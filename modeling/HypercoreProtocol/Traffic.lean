/-
What reaches an established channel.

Messages are routed by remote id, and verification looks at the entry it is about
to accept, once. An `Open` for a key that is already established rewrites the
table before anything is verified, and when the verification then fails the new
id stays: messages on it go to the channel that was verified under another id.
`traffic_verified` gives a condition on the `Open`s of the remote under which that
does not happen; `traffic_unverified` is a run in which it does.
-/
import HypercoreProtocol.Establishment

set_option autoImplicit false

namespace hypercore_protocol.session

open Rust Wire Runs schema message channels mqueue protocol crypto compact_encoding

variable {X : Deps} {σ : Type} [CipherTrait σ] {s s' : Session X σ} {a : Action X}
  {m m' : ChannelMap X} {P : MapOp → Prop}

/-! ## The property -/

/-- An `Open` arrived on channel id `r`, with this capability, whatever it named. An `Open` that
is refused counts as well. -/
def OpensOn (r : ℕ) (cap : Option (Vec UInt8)) (t : Happening X σ) : Prop :=
  ∃ ch o, t.act = .protocol (.inbound ⟨ch, .Open o⟩) ∧ ch.toNat = r ∧ o.capability = cap

/-- A message other than `Open` and `Close` arrived on id `r` and was put into queue
`n`. -/
def Delivers (r n : ℕ) (t : Happening X σ) : Prop :=
  ∃ ch msg b, t.act = .protocol (.inbound ⟨ch, msg⟩) ∧ msg.is_open_or_close = false ∧
    ch.toNat = r ∧ t.pre.protocol.channels.shared.inboxes.read n = some b ∧
    t.post.protocol.channels.shared.inboxes.read n = some { b with queue := b.queue ++ [msg] }

/-- What the step puts into the queue of an earlier established channel arrived on
an id whose last `Open` had shown the capability for the key of the channel. -/
def VerifiedTraffic (tr : List (Happening X σ)) (t : Happening X σ) : Prop :=
  ∀ c n r, (∃ u ∈ tr, Queues (.Channel c) u) → c.inbound_rx = some n → Delivers r n t →
    ∃ hash x, t.pre.protocol.io.handshake_hash = some hash ∧
      (replicate_capability X (!t.pre.protocol.is_initiator) c.key.val hash.val :
        Res IoError (Vec UInt8)) = .ok x ∧
      Since (OpensOn r (some x)) (fun u => ∃ cap, OpensOn r cap u) tr

/-- The condition on an `Open` for `d` on id `r`. Every other id that leads to `d`
belongs to an entry with the same remote capability, and if the entry is open its
capability is the same. If the `Open` names no key, the entry that `r` leads to has
the same capability. -/
def OpensSoundly (t : Happening X σ) : Prop :=
  ∀ ch o, t.act = .protocol (.inbound ⟨ch, .Open o⟩) →
    (∀ d : DiscoveryKey, o.discovery_key.val = d.val →
      (∀ r, r ≠ ch.toNat → t.pre.protocol.channels.remote_id.slot r = some d →
        ∃ h rs, t.pre.protocol.channels.channels d = some h ∧ h.remote_state = some rs ∧
          rs.remote_capability = o.capability) ∧
      ∀ h n rs, t.pre.protocol.channels.channels d = some h → h.inbound_tx = some n →
        h.remote_state = some rs → rs.remote_capability = o.capability) ∧
    (o.discovery_key.val.length ≠ 32 →
      ∀ d h rs, t.pre.protocol.channels.remote_id.slot ch.toNat = some d →
        t.pre.protocol.channels.channels d = some h → h.remote_state = some rs →
        rs.remote_capability = o.capability)

omit [CipherTrait σ] in
/-- A first `Open` is sound: no id leads anywhere yet and no entry is open, so there is nothing
it could disagree with. -/
theorem opens_soundly_of_unopened {t : Happening X σ}
    (hkey : ∀ ch o, t.act = .protocol (.inbound ⟨ch, .Open o⟩) →
      o.discovery_key.val.length = 32)
    (hslot : ∀ r, t.pre.protocol.channels.remote_id.slot r = none)
    (htx : ∀ d h, t.pre.protocol.channels.channels d = some h → h.inbound_tx = none) :
    OpensSoundly t := by
  intro ch o ha
  refine ⟨fun d _ => ⟨fun r _ hs => ?_, fun h n rs hd hn _ => ?_⟩,
    fun hlen => absurd (hkey ch o ha) hlen⟩
  · exact nomatch (hslot r).symm.trans hs
  · exact nomatch (htx d h hd).symm.trans hn

/-- The message went to the open entry that the id leads to. Every other outcome of handling a
message leaves the queue as it is. -/
theorem Delivers.routed {r n : ℕ} (hdel : Delivers r n (⟨s, a, s'⟩ : Happening X σ))
    (h : Step s a s') (hs : Inv s) :
    ∃ d e, s.protocol.channels.remote_id.slot r = some d ∧
      s.protocol.channels.channels d = some e ∧ e.inbound_tx = some n := by
  obtain ⟨ch, msg, b, ha, hmsg, rfl, hpre, hpost⟩ := hdel
  rcases h.move_or_aside with ⟨move, hact, hmove⟩ | ⟨hno, -⟩
  swap
  · exact absurd ha (hno _)
  obtain rfl := Action.protocol.inj (ha.symm.trans hact)
  obtain ⟨result, heff⟩ := inbound_effect hs.wf hmove
  -- the queue has become longer
  have hlonger : s'.protocol.channels.shared.inboxes.read n
      ≠ s.protocol.channels.shared.inboxes.read n := by
    intro heq
    rw [hpost, hpre] at heq
    have hlen := congrArg (fun b : Inbox X => b.queue.length) (Option.some.inj heq)
    simp only [List.length_append, List.length_singleton] at hlen
    omega
  generalize hp' : s'.protocol = p' at heff hlonger
  cases heff with
  | bad_key => exact absurd rfl hlonger
  | announced => exact nomatch hmsg
  | refused => exact nomatch hmsg
  | accepted => exact nomatch hmsg
  | close_unknown => exact nomatch hmsg
  | closed => exact nomatch hmsg
  | unknown => exact absurd rfl hlonger
  | not_open => exact absurd rfl hlonger
  | no_receiver => exact absurd rfl hlonger
  | delivered hmsg hr hn halive =>
    rename_i e n'
    rw [ChannelMap.get_remote, ChannelMap.resolve, Option.bind_eq_some_iff] at hr
    obtain ⟨d, hslot, hd⟩ := hr
    have heq : n = n' := by
      by_contra hne
      exact hlonger (Arena.read_update_of_ne hne _)
    exact ⟨d, e, hslot, hd, heq ▸ hn⟩

/-! ## What the map has to show -/

/-- Behind every id that leads to an entry with a remote state, `A` holds of the id
and the capability. -/
def SlotsShow (A : ℕ → Option (Vec UInt8) → Prop) (m : ChannelMap X) : Prop :=
  ∀ r d h rs, m.remote_id.slot r = some d → m.channels d = some h → h.remote_state = some rs →
    A r rs.remote_capability

/-- The entry that is open on queue `n` has a remote capability for which `B` holds. The queue is
there, and it may be that no entry is open on it. -/
def QueueShows (B : Option (Vec UInt8) → Prop) (n : ℕ) (m : ChannelMap X) : Prop :=
  n < m.shared.inboxes.next ∧ ∀ d h, m.channels d = some h → h.inbound_tx = some n →
    ∃ rs, h.remote_state = some rs ∧ B rs.remote_capability

/-- What `attach_local` and `attach_remote` find for a key is a new handle or the one of the
map, and a new handle has neither a remote side nor a queue. So a handle with a remote side is
in the map. -/
theorem entry_remote_state {d : DiscoveryKey} {rs : RemoteState}
    (h : (m.entry d).remote_state = some rs) : m.channels d = some (m.entry d) := by
  rcases entry_cases m d with hd | ⟨-, hnone, -⟩
  · exact hd
  · exact nomatch hnone.symm.trans h

/-- Likewise a handle with a queue. -/
theorem entry_inbound_tx {d : DiscoveryKey} {n : ℕ} (h : (m.entry d).inbound_tx = some n) :
    m.channels d = some (m.entry d) := by
  rcases entry_cases m d with hd | ⟨-, -, hnone⟩
  · exact hd
  · exact nomatch hnone.symm.trans h

/-- A change that attaches nothing remotely. Slots are at most cleared by it, and the
capabilities of the entries stay. -/
theorem MapChange.slots_show {A : ℕ → Option (Vec UInt8) → Prop} (hc : MapChange P m m')
    (hP : ∀ d r cap, ¬ P (.attach_remote d r cap)) (hA : SlotsShow A m) : SlotsShow A m' := by
  intro r d h rs hslot hd hr
  cases hc with
  | call hop heff =>
    cases heff with
    | attached_local =>
      rcases ChannelMap.update_some_iff.mp hd with ⟨rfl, rfl⟩ | ⟨-, hd⟩
      · exact hA r d _ rs hslot (entry_remote_state hr) hr
      · exact hA r d h rs hslot hd hr
    | attached_remote => exact absurd hop (hP _ _ _)
    | absent => exact hA r d h rs hslot hd hr
    | removed _ _ _ _ hslots =>
      rw [hslots] at hslot
      split at hslot
      · exact nomatch hslot
      · exact hA r d h rs hslot (ChannelMap.update_none_iff.mp hd).2 hr
  | accept hold =>
    rcases ChannelMap.update_some_iff.mp hd with ⟨rfl, rfl⟩ | ⟨-, hd⟩
    · exact hA r d _ rs hslot hold hr
    · exact hA r d h rs hslot hd hr
  | push => exact hA r d h rs hslot hd hr

theorem attached_slots_show {A : ℕ → Option (Vec UInt8) → Prop} {d : DiscoveryKey} {r : ℕ}
    {cap : Option (Vec UInt8)} (heff : MapEffect m (.attach_remote d r cap) m') (hhere : A r cap)
    (hsame : ∀ r', r' ≠ r → m.remote_id.slot r' = some d → A r' cap)
    (hothers : ∀ r' d' h rs, r' ≠ r → m.remote_id.slot r' = some d' → m.channels d' = some h →
      h.remote_state = some rs → A r' rs.remote_capability) : SlotsShow A m' := by
  intro r' d' h rs hslot hd hr
  cases heff with
  | attached_remote _ _ hslots =>
    rw [hslots] at hslot
    split at hslot
    · obtain rfl := Option.some.inj hslot
      rcases ChannelMap.update_some_iff.mp hd with ⟨-, rfl⟩ | ⟨hne, -⟩
      · rename_i heq
        rw [heq, ← Option.some.inj hr]
        exact hhere
      · exact absurd rfl hne
    · rename_i hne
      rcases ChannelMap.update_some_iff.mp hd with ⟨rfl, rfl⟩ | ⟨-, hd⟩
      · rw [← Option.some.inj hr]
        exact hsame r' hne hslot
      · exact hothers r' d' h rs hne hslot hd hr

/-- Queues are never given up: their number only grows, so none is handed out a second time. -/
theorem MapChange.next_inboxes (hc : MapChange P m m') :
    m.shared.inboxes.next ≤ m'.shared.inboxes.next := by
  cases hc with
  | call _ heff =>
    cases heff with
    | attached_local => rw [ChannelMap.entered_inboxes]
    | attached_remote => rw [ChannelMap.entered_inboxes]
    | absent => exact Nat.le_refl _
    | removed => exact Nat.le_refl _
  | accept =>
    exact Nat.le_of_lt (Nat.lt_of_lt_of_eq (Nat.lt_succ_self _) (Arena.next_alloc _ _).symm)
  | push => exact Nat.le_of_eq (Arena.next_update _ _ _).symm

/-- Changes make no queue of an old number, and only an attachment changes what the
entry of a queue shows. -/
theorem MapChange.queue_shows {B : Option (Vec UInt8) → Prop} {n : ℕ} (hc : MapChange P m m')
    (hP : ∀ d r cap, P (.attach_remote d r cap) →
      ∀ h, m.channels d = some h → h.inbound_tx = some n → B cap)
    (hB : QueueShows B n m) : QueueShows B n m' := by
  obtain ⟨hlt, hB⟩ := hB
  refine ⟨Nat.lt_of_lt_of_le hlt hc.next_inboxes, fun d h hd hn => ?_⟩
  rcases hc.entry_cases hd with hd | ⟨key, i, -, rfl⟩ | ⟨r, cap, hop, rfl⟩ | ⟨h₀, hd₀, rfl⟩
  · exact hB d h hd hn
  · exact hB d (m.entry d) (entry_inbound_tx hn) hn
  · exact ⟨⟨r, cap⟩, rfl, hP d r cap hop _ (entry_inbound_tx hn) hn⟩
  · -- a queue that is made now is another one
    exact absurd (Option.some.inj hn) (Nat.ne_of_gt hlt)

/-- The queue of the channel that is accepted is a new one, and its entry is the one whose
capability was just checked. -/
theorem accepted_queue_shows {B : Option (Vec UInt8) → Prop} {d : DiscoveryKey}
    {h : ChannelHandle} {rs : RemoteState} (hm : m.Wf) (hr : h.remote_state = some rs)
    (hB : B rs.remote_capability) :
    QueueShows B m.shared.inboxes.next (m.accepted d h) := by
  refine ⟨Nat.lt_of_lt_of_eq (Nat.lt_succ_self _) (Arena.next_alloc _ _).symm,
    fun d' h' hd' hn => ?_⟩
  rcases ChannelMap.update_some_iff.mp hd' with ⟨-, rfl⟩ | ⟨-, hd'⟩
  · exact ⟨rs, hr, hB⟩
  · exact absurd ((hm.fits hd').inbox_lt hn) (Nat.lt_irrefl _)

/-! ## Moves -/

/-- An `Open` that names a key attaches it to the map as it is, and at most accepts it
after that. -/
theorem open_changes {p p' : Protocol X σ} {ch : UInt64} {o : Open} {result : Option IoError}
    (heff : Protocol.InboundEffect p ⟨ch, .Open o⟩ result p') :
    (o.discovery_key.val.length ≠ 32 ∧ p'.channels = p.channels) ∨
    ∃ d m, o.discovery_key.val = d.val ∧
      MapEffect p.channels (.attach_remote d ch.toNat o.capability) m ∧
      MapChanges (fun _ => False) m p'.channels := by
  cases heff with
  | bad_key hlen => exact Or.inl ⟨hlen, rfl⟩
  | announced hk hmap => exact Or.inr ⟨_, _, hk, hmap, .refl⟩
  | refused hk hmap => exact Or.inr ⟨_, _, hk, hmap, .refl⟩
  | accepted hk hmap hd hr hl =>
    exact Or.inr ⟨_, _, hk, hmap,
      .single (.accept hd (by rw [ChannelHandle.is_connected, hl, hr]; rfl))⟩
  | unknown hmsg => cases hmsg
  | not_open hmsg => cases hmsg
  | no_receiver hmsg => cases hmsg
  | delivered hmsg => cases hmsg

/-- The rule for the properties of a map that only an `Open` of the remote can break:
they are kept by a step if every change other than an `Open` keeps them, and an
`Open` makes them hold of the map it attaches to. -/
theorem Step.keep {I : ChannelMap X → Prop} (h : Step s a s') (hs : Inv s)
    (hquiet : ∀ {P m m'}, MapChange P m m' → (∀ d r cap, ¬ P (.attach_remote d r cap)) →
      I m → I m')
    (hopen : ∀ {ch o d m}, a = .protocol (.inbound ⟨ch, .Open o⟩) →
      o.discovery_key.val = d.val →
      MapEffect s.protocol.channels (.attach_remote d ch.toNat o.capability) m → I m)
    (haside : ∀ {m m' : ChannelMap X}, m'.channels = m.channels → m'.remote_id = m.remote_id →
      m'.shared.inboxes.next = m.shared.inboxes.next → I m → I m')
    (h₀ : (∀ ch o, a = .protocol (.inbound ⟨ch, .Open o⟩) → o.discovery_key.val.length ≠ 32) →
      I s.protocol.channels) : I s'.protocol.channels := by
  rcases h.move_or_aside with ⟨move, ha, hmove⟩ | ⟨hno, hq⟩
  · -- an `Open` first attaches and then may accept; any other move does not attach remotely
    by_cases hop : ∃ ch o, move = .inbound ⟨ch, .Open o⟩
    · obtain ⟨ch, o, rfl⟩ := hop
      obtain ⟨result, heff⟩ := inbound_effect hs.wf hmove
      rcases open_changes heff with ⟨hlen, heq⟩ | ⟨d, m, hk, hmap, hrest⟩
      · rw [heq]
        refine h₀ fun ch' o' hact => ?_
        obtain ⟨rfl, rfl⟩ := inbound_open_inj (ha.symm.trans hact)
        exact hlen
      · exact (MapChanges.keep (fun hc _ => hquiet hc fun _ _ _ h => h) hrest
          (hmap.wf hs.wf) (hopen ha hk hmap)).2
    · refine (MapChanges.keep (fun hc _ => hquiet hc fun d r cap hcall => ?_)
        (protocol_step_changes hs.wf hmove) hs.wf (h₀ fun ch o hact => ?_)).2
      · obtain ⟨ch, o, hmv, -⟩ := Move.calls_attach_remote hcall
        exact hop ⟨ch, o, hmv⟩
      · exact absurd ⟨ch, o, Action.protocol.inj (ha.symm.trans hact)⟩ hop
  · exact haside hq.entries hq.remote_id hq.inboxes (h₀ fun _ _ hact => absurd hact (hno _))

/-- What was verified stays so: neither the role nor the hash changes, and these are all that the
check depends on. -/
theorem Step.verified {key : Key} {cap : Option (Vec UInt8)} (h : Step s a s') (hs : Inv s)
    (hv : s.protocol.Verified key cap) : s'.protocol.Verified key cap := by
  have hkeep : ∀ {p p' : Protocol X σ}, p'.is_initiator = p.is_initiator →
      KeepsHandshake p.io.stream p'.io.stream → p.Verified key cap → p'.Verified key cap := by
    rintro p p' hinit hkeeps ⟨hash, c, hhash, hc, hcap⟩
    exact ⟨hash, c, hkeeps.1 hash hhash, by rw [hinit]; exact hc, hcap⟩
  obtain ⟨hinit, hkeeps⟩ := h.handshake hs
  exact hkeep hinit hkeeps hv

/-! ## The invariant -/

/-- Behind every id stands the capability of its last `Open`, and behind the queue of
every established channel one that was verified for its key. -/
structure Checked (tr : List (Happening X σ)) (s : Session X σ) : Prop where
  slots : SlotsShow (fun r cap => Since (OpensOn r cap) (fun u => ∃ cap, OpensOn r cap u) tr)
    s.protocol.channels
  queues : ∀ {c n}, (∃ u ∈ tr, Queues (.Channel c) u) → c.inbound_rx = some n →
    QueueShows (fun cap => s.protocol.Verified c.key cap) n s.protocol.channels

theorem checked_new (stream : σ) : Checked [] (Session.new stream : Session X σ) where
  slots _ _ _ _ _ hd := nomatch hd
  queues hc := absurd hc (by simp)

/-- The ids after a step: the entry that an id leads to has the capability of the last `Open` on
the id, whether it was in this step or before. -/
theorem Checked.slots_snoc {tr : List (Happening X σ)} (hc : Checked tr s) (hs : Inv s)
    (h : Step s a s') (hsound : OpensSoundly (⟨s, a, s'⟩ : Happening X σ)) :
    SlotsShow (fun r cap => Since (OpensOn r cap) (fun u => ∃ cap, OpensOn r cap u)
      (tr ++ [⟨s, a, s'⟩])) s'.protocol.channels := by
  refine h.keep hs MapChange.slots_show ?_ ?_ ?_
  · intro ch o d m ha hk heff
    obtain ⟨hother, -⟩ := (hsound ch o ha).1 d hk
    -- the step opens one id, so what was last shown on the others stays
    have hpast : ∀ {r}, r ≠ ch.toNat →
        ¬ ∃ cap, OpensOn r cap (⟨s, a, s'⟩ : Happening X σ) := by
      rintro r hne ⟨cap, ch', o', ha', rfl, -⟩
      obtain ⟨rfl, -⟩ := inbound_open_inj (ha.symm.trans ha')
      exact hne rfl
    refine attached_slots_show heff (.here ⟨ch, o, ha, rfl, rfl⟩) ?_ ?_
    · intro r' hne hslot
      obtain ⟨e, rs, hd, hr, hcap⟩ := hother r' hne hslot
      rw [← hcap]
      exact (hc.slots r' d e rs hslot hd hr).later (hpast hne)
    · intro r' d' e rs hne hslot hd hr
      exact (hc.slots r' d' e rs hslot hd hr).later (hpast hne)
  · intro m m' hch hrem _ hA r d e rs hslot hd hr
    exact hA r d e rs (by rwa [← hrem]) (by rwa [← hch]) hr
  · intro hnokey r d e rs hslot hd hr
    by_cases hopen : ∃ cap, OpensOn r cap (⟨s, a, s'⟩ : Happening X σ)
    · -- an `Open` without a key, and with the capability of the entry
      obtain ⟨cap, ch, o, ha, rfl, rfl⟩ := hopen
      exact .here ⟨ch, o, ha, rfl,
        ((hsound ch o ha).2 (hnokey ch o ha) d e rs hslot hd hr).symm⟩
    · exact (hc.slots r d e rs hslot hd hr).later hopen

/-- The queues after a step: the entry that is open on the queue of an announced channel still
has a verified capability. -/
theorem Checked.queues_snoc {tr : List (Happening X σ)} (hc : Checked tr s) (hs : Inv s)
    (h : Step s a s') (hsound : OpensSoundly (⟨s, a, s'⟩ : Happening X σ)) {c : Channel} {n : ℕ}
    (hq : ∃ u ∈ tr ++ [⟨s, a, s'⟩], Queues (.Channel c) u) (hn : c.inbound_rx = some n) :
    QueueShows (fun cap => s'.protocol.Verified c.key cap) n s'.protocol.channels := by
  obtain ⟨u, hu, hq⟩ := hq
  rcases List.mem_append.mp hu with hu | hu
  · obtain ⟨hlt, hold⟩ := hc.queues ⟨u, hu, hq⟩ hn
    -- what was verified before the step is so after it
    have hverified : QueueShows (fun cap => s'.protocol.Verified c.key cap) n
        s.protocol.channels := by
      refine ⟨hlt, fun d e hd hn => ?_⟩
      obtain ⟨rs, hr, hv⟩ := hold d e hd hn
      exact ⟨rs, hr, h.verified hs hv⟩
    refine h.keep hs
      (fun hchange hP => hchange.queue_shows fun d r cap hop => absurd hop (hP _ _ _))
      ?_ ?_ (fun _ => hverified)
    · intro ch o d m ha hk heff
      refine
        (MapChange.call (P := (· = .attach_remote d ch.toNat o.capability)) rfl heff).queue_shows
          ?_ hverified
      intro d' r cap hop e hd hn
      obtain ⟨rfl, -, rfl⟩ := MapOp.attach_remote.inj hop
      obtain ⟨rs, hr, hv⟩ := hverified.2 d' e hd hn
      rw [← ((hsound ch o ha).1 d' hk).2 e n rs hd hn hr]
      exact hv
    · intro m m' hch _ hnext hB
      exact ⟨hnext ▸ hB.1, fun d e hd => hB.2 d e (by rwa [← hch])⟩
  · obtain rfl := List.mem_singleton.mp hu
    obtain ⟨m, d, e, ls, rs, hm, hd, hl, hr, hv, rfl, hpost⟩ := hq.establishes h hs
    obtain rfl := Option.some.inj hn
    rw [hpost]
    exact accepted_queue_shows hm hr (h.verified hs hv)

/-- In every run in which the remote opens soundly, no message reaches a channel
through an unverified opening. -/
theorem traffic_verified {stream : σ} {tr : List (Happening X σ)}
    (run : Run Step (Session.new stream) tr s) (hsound : ∀ t ∈ tr, OpensSoundly t) :
    Always VerifiedTraffic tr := by
  refine run.always_if (I := Checked) (checked_new stream) ?_ ?_ hsound
  · intro tr s a s' run hc h hsound
    exact ⟨hc.slots_snoc (reachable_inv run) h hsound,
      hc.queues_snoc (reachable_inv run) h hsound⟩
  · intro tr s a s' run hc h _ c n r hq hn hdel
    obtain ⟨d, e, hslot, hd, htx⟩ := hdel.routed h (reachable_inv run)
    obtain ⟨rs, hr, hash, x, hhash, hx, hcap⟩ := (hc.queues hq hn).2 d e hd htx
    refine ⟨hash, x, hhash, hx, ?_⟩
    rw [← hcap]
    exact hc.slots r d e rs hslot hd hr

/-- One verified `Open`, and a message on its id. The message is delivered to the queue of the
channel. -/
theorem traffic_verified_once :
    ∃ tr t s, Run Step (Session.new (Memory.connected false) : Session deps Memory)
        (tr ++ [t]) s ∧ Delivers 1 0 t ∧ Always VerifiedTraffic (tr ++ [t]) := by
  have run₀ : Run Step (Session.new (Memory.connected false) : Session deps Memory) [] _ := .nil
  have run₁ := run₀.snoc (.queue_command (.Open (sample 1)) (by decide))
  have run₂ := run₁.snoc (.protocol (.command rfl (Or.inl ⟨(), rfl⟩)))
  have run₃ := run₂.snoc (a := .protocol (.inbound (remote_open 1 (sample 1))))
    (.protocol (.inbound (Or.inl ⟨(), rfl⟩)))
  have run₄ := run₃.snoc (a := .protocol (.inbound ⟨1, .Cancel ⟨7⟩⟩))
    (.protocol (.inbound (Or.inl ⟨(), rfl⟩)))
  refine ⟨_, _, _, run₄, ⟨1, .Cancel ⟨7⟩, _, rfl, rfl, rfl, rfl, rfl⟩, traffic_verified run₄ ?_⟩
  simp only [List.nil_append, List.cons_append, List.forall_mem_cons]
  refine ⟨by rintro _ _ ⟨⟩, by rintro _ _ ⟨⟩, ?_, by rintro _ _ ⟨⟩,
    fun _ ht => absurd ht List.not_mem_nil⟩
  refine opens_soundly_of_unopened (fun ch o ha => ?_) (fun r => rfl) (fun d h hd => ?_)
  · rw [← (inbound_open_inj ha).2]
    rfl
  · rcases ChannelMap.update_some_iff.mp hd with ⟨-, rfl⟩ | ⟨-, hd⟩
    · rfl
    · cases hd

/-- A second `Open` for an established key, on another id and without a capability, is
refused; a message on that id is delivered all the same. -/
theorem traffic_unverified :
    ∃ tr t s, Run Step (Session.new (Memory.connected false) : Session deps Memory)
        (tr ++ [t]) s ∧ ¬ VerifiedTraffic tr t := by
  have run₀ : Run Step (Session.new (Memory.connected false) : Session deps Memory) [] _ := .nil
  have run₁ := run₀.snoc (.queue_command (.Open (sample 1)) (by decide))
  have run₂ := run₁.snoc (.protocol (.command rfl (Or.inl ⟨(), rfl⟩)))
  have run₃ := run₂.snoc (a := .protocol (.inbound (remote_open 1 (sample 1))))
    (.protocol (.inbound (Or.inl ⟨(), rfl⟩)))
  have run₄ := run₃.snoc
    (a := .protocol (.inbound (open_message 2 (discovery_key_of deps (sample 1)) none)))
    (.protocol (.inbound (Or.inr ⟨invalid_capability, rfl⟩)))
  have run₅ := run₄.snoc (a := .protocol (.inbound ⟨2, .Cancel ⟨7⟩⟩))
    (.protocol (.inbound (Or.inl ⟨(), rfl⟩)))
  refine ⟨_, _, _, run₅, fun hv => ?_⟩
  obtain ⟨hash, x, -, -, hsince⟩ := hv _ 0 2
    ⟨_, List.mem_append_left _ (List.mem_append_right _ (List.mem_singleton.mpr rfl)), _, rfl,
      List.mem_singleton.mpr rfl⟩ rfl ⟨2, .Cancel ⟨7⟩, _, rfl, rfl, rfl, rfl, rfl⟩
  rcases since_snoc.mp hsince with ⟨ch, o, ha, -, hcap⟩ | ⟨-, hno⟩
  · rw [← (inbound_open_inj ha).2] at hcap
    exact nomatch hcap
  · exact hno ⟨none, 2, _, rfl, rfl, rfl⟩

end hypercore_protocol.session
