/-
Where messages from the remote go.

A message is routed by the id it carries: the id selects a slot of the table of
remote ids, the slot a discovery key, and the key an entry. Slots are written by
`Open`s alone and may outlive the entry, so what a slot holds is the key of the last
`Open` on its id, however often keys were attached to other ids, removed and opened
again in between. A queue belongs to one discovery key for good, since every
established channel gets a new one.
-/
import HypercoreProtocol.Traffic
import HypercoreProtocol.Closing

set_option autoImplicit false

namespace hypercore_protocol.session

open Rust Wire Runs schema message channels mqueue protocol compact_encoding

variable {X : Deps} {σ : Type} [CipherTrait σ] {s s' : Session X σ} {a : Action X}
  {m m' : ChannelMap X} {d : DiscoveryKey} {r n : ℕ} {tr : List (Happening X σ)}
  {P : MapOp → Prop}

/-! ## The property -/

/-- An `Open` arrived on channel id `r` and named the key `d`. Its capability may have been
refused. -/
def OpensAs (r : ℕ) (d : DiscoveryKey) (t : Happening X σ) : Prop :=
  ∃ ch o, t.act = .protocol (.inbound ⟨ch, .Open o⟩) ∧ ch.toNat = r ∧
    o.discovery_key.val = d.val

/-- The last `Open` on id `r` that named a key named `d`. An `Open` without a proper key changes
no slot. -/
def LastOpened (r : ℕ) (d : DiscoveryKey) (tr : List (Happening X σ)) : Prop :=
  Since (OpensAs r d) (fun t => ∃ d', OpensAs r d' t) tr

/-! ## Slots -/

/-- The key in a slot is one that `A` allows for the id. Free slots are not constrained. -/
def SlotsIn (A : ℕ → DiscoveryKey → Prop) (m : ChannelMap X) : Prop :=
  ∀ r d, m.remote_id.slot r = some d → A r d

/-- Without an `Open`, slots are at most cleared: only `attach_remote` writes a key into one. -/
theorem MapChange.slots_in {A : ℕ → DiscoveryKey → Prop} (hc : MapChange P m m')
    (hP : ∀ d r cap, ¬ P (.attach_remote d r cap)) (hA : SlotsIn A m) : SlotsIn A m' := by
  intro r d hslot
  cases hc with
  | call hop heff =>
    cases heff with
    | attached_local => exact hA r d hslot
    | attached_remote => exact absurd hop (hP _ _ _)
    | absent => exact hA r d hslot
    | removed _ _ _ _ hslots =>
      rw [hslots] at hslot
      split at hslot
      · exact nomatch hslot
      · exact hA r d hslot
  | accept => exact hA r d hslot
  | push => exact hA r d hslot

/-- The slots hold the keys of the last `Open`s. A slot may also be free again, when its entry
has been removed. -/
theorem reachable_slots {stream : σ} (run : Run Step (Session.new stream) tr s) :
    SlotsIn (fun r d => LastOpened r d tr) s.protocol.channels := by
  refine run.invariant (I := fun tr s =>
    SlotsIn (fun r d => LastOpened r d tr) s.protocol.channels) ?_ ?_
  · exact fun r d hslot => nomatch hslot
  intro tr s a s' run hA h
  refine h.keep (reachable_inv run) MapChange.slots_in ?_ ?_ ?_
  · intro ch o d m ha hk heff r' d' hslot
    cases heff with
    | attached_remote _ _ hslots =>
      rw [hslots] at hslot
      split at hslot
      · rename_i heq
        obtain rfl := Option.some.inj hslot
        exact .here ⟨ch, o, ha, heq.symm, hk⟩
      · -- the `Open` was on another id
        rename_i hne
        refine (hA r' d' hslot).later ?_
        rintro ⟨d'', ch', o', ha', rfl, -⟩
        obtain ⟨rfl, -⟩ := inbound_open_inj (ha.symm.trans ha')
        exact hne rfl
  · intro m m' _ hremote _ hA r d hslot
    exact hA r d (by rwa [← hremote])
  · -- no key could be parsed, so this was no `Open` of any id
    intro hnokey r d hslot
    refine (hA r d hslot).later ?_
    rintro ⟨d', ch, o, ha, -, hk⟩
    exact hnokey ch o ha (hk ▸ d'.property)

/-! ## Queues -/

/-- Queue `n` is there, and only an entry of `d` is open on it. It may also be that none is. -/
def QueueOf (d : DiscoveryKey) (n : ℕ) (m : ChannelMap X) : Prop :=
  n < m.shared.inboxes.next ∧ ∀ d' h, m.channels d' = some h → h.inbound_tx = some n → d' = d

theorem MapChange.queue_of (hc : MapChange P m m') (h : QueueOf d n m) : QueueOf d n m' := by
  obtain ⟨hlt, hown⟩ := h
  refine ⟨Nat.lt_of_lt_of_le hlt hc.next_inboxes, fun d' e hd hn => ?_⟩
  rcases hc.entry_cases hd with hd | ⟨key, i, -, rfl⟩ | ⟨r, cap, -, rfl⟩ | ⟨e₀, -, rfl⟩
  · exact hown d' e hd hn
  · exact hown d' _ (entry_inbound_tx hn) hn
  · exact hown d' _ (entry_inbound_tx hn) hn
  · -- a queue that is made now is another one
    exact absurd (Option.some.inj hn) (Nat.ne_of_gt hlt)

theorem Step.queue_of (h : Step s a s') (hs : Inv s) (hq : QueueOf d n s.protocol.channels) :
    QueueOf d n s'.protocol.channels := by
  rcases h.move_or_aside with ⟨move, -, hmove⟩ | ⟨-, haside⟩
  · exact (MapChanges.keep (fun hchange _ => hchange.queue_of)
      (protocol_step_changes hs.wf hmove) hs.wf hq).2
  · exact ⟨haside.inboxes ▸ hq.1, fun d' e hd => hq.2 d' e (by rwa [← haside.entries])⟩

theorem Establishes.queue_of {p p' : Protocol X σ} {c : Channel} (h : Establishes p p' c)
    (hn : c.inbound_rx = some n) : QueueOf c.discovery_key n p'.channels := by
  obtain ⟨m, d, e, ls, rs, hm, hd, -, -, -, rfl, hp'⟩ := h
  obtain rfl := Option.some.inj hn
  rw [hp']
  refine ⟨Nat.lt_of_lt_of_eq (Nat.lt_succ_self _) (Arena.next_alloc _ _).symm,
    fun d' e' hd' hn' => ?_⟩
  rcases ChannelMap.update_some_iff.mp hd' with ⟨rfl, -⟩ | ⟨-, hd'⟩
  · exact (hm.fits hd).keyed.symm
  · exact absurd ((hm.fits hd').inbox_lt hn') (Nat.lt_irrefl _)

/-- The queue of an emitted channel belongs to its discovery key, and keeps doing so after the
channel is closed. -/
theorem reachable_queue_of {stream : σ} (run : Run Step (Session.new stream) tr s) {c : Channel}
    (hc : Emitted c tr) (hn : c.inbound_rx = some n) :
    QueueOf c.discovery_key n s.protocol.channels := by
  induction run with
  | nil => exact absurd hc (by simp [Emitted])
  | snoc run h ih =>
    have hs := reachable_inv run
    obtain ⟨t, ht, hq⟩ := hc
    rcases List.mem_append.mp ht with ht | ht
    · exact h.queue_of hs (ih ⟨t, ht, hq⟩)
    · obtain rfl := List.mem_singleton.mp ht
      exact (hq.establishes h hs).queue_of hn

/-! ## Closes -/

/-- The entry a `Close` of the remote removes is the one its id leads to. The id inside the
message is not looked at. -/
theorem inbound_close_removes {ch : UInt64} {x : Close} (hs : Inv s)
    (hmove : protocol_step s.protocol (.inbound ⟨ch, .Close x⟩) s'.protocol)
    (hd : Removes d (⟨s, a, s'⟩ : Happening X σ)) :
    s.protocol.channels.remote_id.slot ch.toNat = some d := by
  obtain ⟨hsome, hnone⟩ := hd
  obtain ⟨result, heff⟩ := inbound_effect hs.wf hmove
  -- the entry was there and is not any more
  have hmoved : s'.protocol.channels.channels d ≠ s.protocol.channels.channels d := by
    intro heq
    rw [← heq, show s'.protocol.channels.channels d = none from hnone] at hsome
    exact nomatch hsome
  generalize s'.protocol = p' at heff hmoved
  cases heff with
  | close_unknown => exact absurd rfl hmoved
  | closed hr hentry htold hmap =>
    rename_i e m₁ m
    have hsame : m₁.channels = s.protocol.channels.channels := by
      rcases htold with ⟨n, -, -, rfl⟩ | ⟨-, rfl⟩
      · rfl
      · rfl
    have hkey : d = e.discovery_key := by
      by_contra hne
      exact hmoved ((removed_others hmap hne).trans (congrFun hsame d))
    obtain ⟨d', hslot, hd'⟩ := Option.bind_eq_some_iff.mp hr
    rw [hkey, (hs.wf.fits hd').keyed]
    exact hslot
  | unknown hmsg => exact nomatch hmsg
  | not_open hmsg => exact nomatch hmsg
  | no_receiver hmsg => exact nomatch hmsg
  | delivered hmsg => exact nomatch hmsg

/-! ## The theorem -/

/-- A message that is put into the queue of a channel, and a `Close` that removes an
entry, arrived on an id whose last `Open` had named the key of that channel or entry. -/
theorem routed_by_last_open {stream : σ} {t : Happening X σ}
    (run : Run Step (Session.new stream) (tr ++ [t]) s) :
    (∀ c n r, Emitted c tr → c.inbound_rx = some n → Delivers r n t →
      LastOpened r c.discovery_key tr) ∧
    ∀ ch x d, t.act = .protocol (.inbound ⟨ch, .Close x⟩) → Removes d t →
      LastOpened ch.toNat d tr := by
  obtain ⟨run₀, h, -⟩ := run.snoc_inv
  have hs := reachable_inv run₀
  constructor
  · intro c n r hc hn hdel
    obtain ⟨d, e, hslot, hd, htx⟩ := hdel.routed h hs
    obtain rfl := (reachable_queue_of run₀ hc hn).2 d e hd htx
    exact reachable_slots run₀ r _ hslot
  · intro ch x d ha hd
    rcases h.move_or_aside with ⟨move, hact, hmove⟩ | ⟨hno, -⟩
    · obtain rfl := Action.protocol.inj (ha.symm.trans hact)
      exact reachable_slots run₀ _ d (inbound_close_removes hs hmove hd)
    · exact absurd ha (hno _)

/-- A message for an established channel, whose key was named by the only `Open` on the id. -/
theorem routed_by_last_open_delivered :
    ∃ tr t s, Run Step (Session.new (Memory.connected false) : Session deps Memory)
        (tr ++ [t]) s ∧ Emitted first_channel tr ∧ Delivers 1 0 t ∧
      LastOpened 1 first_channel.discovery_key tr := by
  obtain ⟨tr, run, -⟩ := established_reachable
  have hemitted : Emitted first_channel tr :=
    (emitted_iff_gives run).mpr (Or.inl (List.mem_singleton.mpr rfl))
  have run' := run.snoc (a := .protocol (.inbound ⟨1, .Cancel ⟨7⟩⟩))
    (.protocol (.inbound (Or.inl ⟨(), rfl⟩)))
  obtain ⟨t, s, run', hdel⟩ : ∃ t s, Run Step _ (tr ++ [t]) s ∧ Delivers 1 0 t :=
    ⟨_, _, run', 1, .Cancel ⟨7⟩, _, rfl, rfl, rfl, rfl, rfl⟩
  exact ⟨tr, t, s, run', hemitted, hdel,
    (routed_by_last_open run').1 first_channel 0 1 hemitted rfl hdel⟩

end hypercore_protocol.session
