/-
Invariants of every session.

The first half reduces a step to what it does: `protocol_step` to the outcomes
of `ProtocolSpec`, and these to a chain of changes of the channel map, each of
which is a call, an accepted channel or a message in a queue. The second half is
the invariant of all reachable sessions: the channel map is well-formed, every
batch in the outbound queue has a known sender, and every channel that is about
is backed by the map. As long as its flag is not set its entry is there, and as
long as its entry is there its local id leads to it.
-/
import HypercoreProtocol.Session
import HypercoreProtocol.Memory

set_option autoImplicit false

namespace hypercore_protocol.session

open Rust Wire Runs schema message channels mqueue protocol compact_encoding

variable {X : Deps} {σ : Type} [CipherTrait σ] {p p' : Protocol X σ} {m m' : ChannelMap X}

/-! ## From steps to outcomes -/

omit [CipherTrait σ] in
theorem leaves_outcome {f : ProtocolMethod X σ Unit} {E : Option IoError → Protocol X σ → Prop}
    {P : Panic → Prop} (h : Method.Leaves f p p')
    (hspec : (∃ result q, E result q ∧ f.run p = outcome result q) ∨
      ∃ pan q, P pan ∧ f.run p = .error (.panic pan) q) : ∃ result, E result p' := by
  rcases hspec with ⟨result, q, hE, hrun⟩ | ⟨pan, q, -, hrun⟩
  · cases result with
    | none =>
      rw [Method.leaves_of_run_ok hrun h]
      exact ⟨none, hE⟩
    | some e =>
      rcases h with ⟨a, ha⟩ | ⟨e', he⟩
      · rw [hrun] at ha
        exact nomatch ha
      · rw [hrun] at he
        injection he with _ hq
        rw [← hq]
        exact ⟨some e, hE⟩
  · exact absurd h (Method.not_leaves_of_panic hrun)

/-- What a command does, from the specification of its handler. -/
theorem command_effect (hm : p.channels.Wf) {c : Command}
    (h : protocol_step p (.command c) p') :
    ∃ rest result, p.command_rx = c :: rest ∧
      Protocol.CommandEffect { p with command_rx := rest } c result p' := by
  cases h with
  | command hq h =>
    rename_i rest
    obtain ⟨result, heff⟩ :=
      leaves_outcome h (Protocol.on_command_spec (p := { p with command_rx := rest }) hm c)
    exact ⟨rest, result, hq, heff⟩

/-- The same for a message from the remote. -/
theorem inbound_effect (hm : p.channels.Wf) {msg : ChannelMessage X}
    (h : protocol_step p (.inbound msg) p') :
    ∃ result, Protocol.InboundEffect p msg result p' := by
  cases h with
  | inbound h => exact leaves_outcome h (Protocol.on_inbound_message_spec hm msg)

/-- The same for a batch: its messages are handled one by one, and those that are kept are
enqueued. -/
theorem outbound_effect (hm : p.channels.Wf) {batch : List (ChannelMessage X)}
    (h : protocol_step p (.outbound batch) p') :
    ∃ rest kept q, p.outbound_rx = batch :: rest ∧
      Protocol.BatchEffect { p with outbound_rx := rest } batch kept q ∧
      p' = { q with io := { q.io with write_queue := q.io.write_queue ++ kept } } := by
  cases h with
  | outbound hq h =>
    rename_i rest
    obtain ⟨kept, q, heff, hrun⟩ :=
      Protocol.on_outbound_batch_spec (p := { p with outbound_rx := rest }) hm batch
    exact ⟨rest, kept, q, hq, heff, Method.leaves_of_run_ok hrun h⟩

/-- The handlers leave the connection alone: only `io` touches it, and the message layer is
driven there. -/
theorem protocol_step_stream (hm : p.channels.Wf) {move : Move X} (h : protocol_step p move p')
    (hno : move ≠ .io) : p'.io.stream = p.io.stream := by
  cases move with
  | command c =>
    obtain ⟨rest, result, -, heff⟩ := command_effect hm h
    exact heff.frame.stream
  | inbound msg =>
    obtain ⟨result, heff⟩ := inbound_effect hm h
    exact heff.frame.stream
  | outbound batch =>
    obtain ⟨rest, kept, q, -, heff, rfl⟩ := outbound_effect hm h
    exact heff.frame.stream
  | io => exact absurd rfl hno
  | handshake key => cases h; rfl
  | event e => cases h; rfl

/-! ## Changes of the channel map -/

/-- The ways a channel map changes, by calls among `P`. Besides the calls themselves, an entry
may be accepted, and a message may be put into a queue. -/
inductive MapChange (P : MapOp → Prop) : ChannelMap X → ChannelMap X → Prop where
  | call {m m' : ChannelMap X} {op : MapOp} (hop : P op) (h : MapEffect m op m') :
      MapChange P m m'
  | accept {m : ChannelMap X} {d : DiscoveryKey} {h : ChannelHandle}
      (hd : m.channels d = some h) (hc : h.is_connected = true) : MapChange P m (m.accepted d h)
  | push {m : ChannelMap X} (n : ℕ) (msg : Message X) :
      MapChange P m { m with shared := m.shared.push n msg }

/-- Any number of them. -/
abbrev MapChanges (P : MapOp → Prop) : ChannelMap X → ChannelMap X → Prop :=
  Relation.ReflTransGen (MapChange P)

variable {P : MapOp → Prop}

/-- Changes keep a map well-formed. -/
theorem MapChange.wf (h : MapChange P m m') (hm : m.Wf) : m'.Wf := by
  cases h with
  | call _ h => exact h.wf hm
  | accept hd hc => exact hm.accepted hd hc
  | push n msg => exact hm.push n msg

/-- The rule for chains of changes: a property that every change of a well-formed
map keeps is kept by all of them. -/
theorem MapChanges.keep {I : ChannelMap X → Prop}
    (hI : ∀ {m m'}, MapChange P m m' → m.Wf → I m → I m') (h : MapChanges P m m') (hm : m.Wf)
    (h₀ : I m) : m'.Wf ∧ I m' := by
  induction h with
  | refl => exact ⟨hm, h₀⟩
  | tail _ h ih => exact ⟨h.wf ih.1, hI h ih.1 ih.2⟩

/-- The calls a command makes. At most one each, and none for a local signal. -/
def command_calls : Command → MapOp → Prop
  | .Open key, op => op = .attach_local key
  | .Close d, op => op = .remove d
  | .SignalLocal _ _, _ => False

/-- The calls a message from the remote causes. Which entry a `Close` removes depends on the
map. -/
def inbound_calls (m : ChannelMap X) (msg : ChannelMessage X) (op : MapOp) : Prop :=
  (∃ o d, msg.message = .Open o ∧ o.discovery_key.val = d.val ∧
    op = .attach_remote d msg.channel.toNat o.capability) ∨
  ∃ c h, msg.message = .Close c ∧ m.get_remote msg.channel.toNat = some h ∧
    op = .remove h.discovery_key

/-- The calls of a move, on the map as it is before. For a batch it is enough to know that they
are removals. -/
def Move.calls (m : ChannelMap X) : Move X → MapOp → Prop
  | .command c, op => command_calls c op
  | .inbound msg, op => inbound_calls m msg op
  | .outbound _, op => ∃ d, op = .remove d
  | _, _ => False

theorem command_changes {c : Command} {result : Option IoError}
    (h : Protocol.CommandEffect p c result p') :
    MapChanges (command_calls c) p.channels p'.channels := by
  cases h with
  | opened hmap => exact .single (.call rfl hmap)
  | refused hmap => exact .single (.call rfl hmap)
  | accepted hmap hd hl hr =>
    exact (Relation.ReflTransGen.single (.call rfl hmap)).tail
      (.accept hd (by rw [ChannelHandle.is_connected, hl, hr]; rfl))
  | close_absent => exact .refl
  | closed hd hmap => exact .single (.call rfl hmap)
  | signalled => exact .refl

theorem inbound_changes {msg : ChannelMessage X} {result : Option IoError}
    (h : Protocol.InboundEffect p msg result p') :
    MapChanges (inbound_calls p.channels msg) p.channels p'.channels := by
  cases h with
  | bad_key => exact .refl
  | announced hk hmap => exact .single (.call (Or.inl ⟨_, _, rfl, hk, rfl⟩) hmap)
  | refused hk hmap => exact .single (.call (Or.inl ⟨_, _, rfl, hk, rfl⟩) hmap)
  | accepted hk hmap hd hr hl =>
    exact (Relation.ReflTransGen.single (.call (Or.inl ⟨_, _, rfl, hk, rfl⟩) hmap)).tail
      (.accept hd (by rw [ChannelHandle.is_connected, hl, hr]; rfl))
  | close_unknown => exact .refl
  | closed hr hd htold hmap =>
    rename_i ch c h m₁ m
    have hcall : MapChange (inbound_calls p.channels ⟨ch, .Close c⟩) m₁ m :=
      .call (Or.inr ⟨c, h, rfl, hr, rfl⟩) hmap
    rcases htold with ⟨n, -, -, rfl⟩ | ⟨-, rfl⟩
    · exact (Relation.ReflTransGen.single (.push n _)).tail hcall
    · exact .single hcall
  | unknown => exact .refl
  | not_open => exact .refl
  | no_receiver => exact .refl
  | delivered => exact .single (.push _ _)

omit [CipherTrait σ] in
theorem outbound_changes {msg : ChannelMessage X} {keep : Bool}
    (h : Protocol.OutboundEffect p msg keep p') :
    MapChanges (fun op => ∃ d, op = .remove d) p.channels p'.channels := by
  cases h with
  | close_unknown => exact .refl
  | closed hl hd hmap => exact .single (.call ⟨_, rfl⟩ hmap)
  | signalled => exact .refl
  | passed => exact .refl

omit [CipherTrait σ] in
theorem batch_changes {msgs kept : List (ChannelMessage X)}
    (h : Protocol.BatchEffect p msgs kept p') :
    MapChanges (fun op => ∃ d, op = .remove d) p.channels p'.channels := by
  induction h with
  | nil p => exact .refl
  | cons head _ ih => exact (outbound_changes head).trans ih

/-- What a protocol step does to the channel map: a sequence of the calls of its move. Invariants
of the map are carried over steps by this, and not by going into the handlers again. -/
theorem protocol_step_changes (hm : p.channels.Wf) {move : Move X}
    (h : protocol_step p move p') :
    MapChanges (move.calls p.channels) p.channels p'.channels := by
  cases move with
  | command c =>
    obtain ⟨rest, result, -, heff⟩ := command_effect hm h
    exact (command_changes heff :)
  | inbound msg =>
    obtain ⟨result, heff⟩ := inbound_effect hm h
    exact inbound_changes heff
  | outbound batch =>
    obtain ⟨rest, kept, q, -, heff, rfl⟩ := outbound_effect hm h
    exact (batch_changes heff :)
  | io => cases h; exact .refl
  | handshake key => cases h; exact .refl
  | event e => cases h; exact .refl

/-- Every step keeps the map well-formed. -/
theorem protocol_step_wf (hm : p.channels.Wf) {move : Move X} (h : protocol_step p move p') :
    p'.channels.Wf :=
  (MapChanges.keep (I := fun _ => True) (fun _ _ _ => trivial) (protocol_step_changes hm h) hm
    trivial).1

/-- The entry of `d` after a change: the one before, one that a call attached, or
one that was opened. -/
theorem MapChange.entry_cases (hc : MapChange P m m') {d : DiscoveryKey} {h' : ChannelHandle}
    (hd : m'.channels d = some h') :
    m.channels d = some h' ∨
    (∃ key i, P (.attach_local key) ∧ h' = (m.entry d).attach_local i key) ∨
    (∃ r cap, P (.attach_remote d r cap) ∧ h' = (m.entry d).attach_remote r cap) ∨
    ∃ h, m.channels d = some h ∧ h' = { h with inbound_tx := some m.shared.inboxes.next } := by
  cases hc with
  | call hop heff =>
    cases heff with
    | attached_local =>
      rcases ChannelMap.update_some_iff.mp hd with ⟨rfl, rfl⟩ | ⟨-, hd⟩
      · exact Or.inr (Or.inl ⟨_, _, hop, rfl⟩)
      · exact Or.inl hd
    | attached_remote =>
      rcases ChannelMap.update_some_iff.mp hd with ⟨rfl, rfl⟩ | ⟨-, hd⟩
      · exact Or.inr (Or.inr (Or.inl ⟨_, _, hop, rfl⟩))
      · exact Or.inl hd
    | absent => exact Or.inl hd
    | removed => exact Or.inl (ChannelMap.update_none_iff.mp hd).2
  | accept hold =>
    rcases ChannelMap.update_some_iff.mp hd with ⟨rfl, rfl⟩ | ⟨-, hd⟩
    · exact Or.inr (Or.inr (Or.inr ⟨_, hold, rfl⟩))
    · exact Or.inl hd
  | push => exact Or.inl hd

/-- The handle a call attaches to is an entry of the map, or it has no state: then it was made
for this call. -/
theorem entry_cases (m : ChannelMap X) (d : DiscoveryKey) :
    m.channels d = some (m.entry d) ∨
      ((m.entry d).local_state = none ∧ (m.entry d).remote_state = none ∧
        (m.entry d).inbound_tx = none) := by
  cases hd : m.channels d with
  | some h => exact Or.inl (by rw [ChannelMap.entry_of_some hd])
  | none => exact Or.inr (by rw [ChannelMap.entry_of_none hd]; exact ⟨rfl, rfl, rfl⟩)

/-- Where the local state of an entry comes from: it was there, or a command has attached it. -/
theorem MapChanges.local_state {A : LocalState → Prop} {d : DiscoveryKey}
    (hA : ∀ key i, P (.attach_local key) → A ⟨key, i⟩) (hc : MapChanges P m m') (hm : m.Wf)
    (h₀ : ∀ h ls, m.channels d = some h → h.local_state = some ls → A ls) :
    ∀ h ls, m'.channels d = some h → h.local_state = some ls → A ls := by
  refine (MapChanges.keep (I := fun m => ∀ h ls, m.channels d = some h →
    h.local_state = some ls → A ls) ?_ hc hm h₀).2
  intro m m' hc _ hI h ls hd hl
  rcases hc.entry_cases hd with hd | ⟨key, i, hop, rfl⟩ | ⟨r, cap, -, rfl⟩ | ⟨h₀, hd₀, rfl⟩
  · exact hI h ls hd hl
  · rw [← Option.some.inj hl]
    exact hA key i hop
  · rcases entry_cases m d with hd | ⟨hnone, -⟩
    · exact hI _ ls hd hl
    · exact nomatch hnone.symm.trans hl
  · exact hI h₀ ls hd₀ hl

/-- Where the remote state of an entry comes from: it was there, or an `Open` of the remote has
attached it. -/
theorem MapChanges.remote_state {A : RemoteState → Prop} {d : DiscoveryKey}
    (hA : ∀ r cap, P (.attach_remote d r cap) → A ⟨r, cap⟩) (hc : MapChanges P m m')
    (hm : m.Wf) (h₀ : ∀ h rs, m.channels d = some h → h.remote_state = some rs → A rs) :
    ∀ h rs, m'.channels d = some h → h.remote_state = some rs → A rs := by
  refine (MapChanges.keep (I := fun m => ∀ h rs, m.channels d = some h →
    h.remote_state = some rs → A rs) ?_ hc hm h₀).2
  intro m m' hc _ hI h rs hd hr
  rcases hc.entry_cases hd with hd | ⟨key, i, -, rfl⟩ | ⟨r, cap, hop, rfl⟩ | ⟨h₀, hd₀, rfl⟩
  · exact hI h rs hd hr
  · rcases entry_cases m d with hd | ⟨-, hnone, -⟩
    · exact hI _ rs hd hr
    · exact nomatch hnone.symm.trans hr
  · rw [← Option.some.inj hr]
    exact hA r cap hop
  · exact hI h₀ rs hd₀ hr

/-! ## Channels are backed by the map -/

/-- The map backs a channel: as long as its flag is not set its entry is there, and
as long as its entry is there it is connected and the channel's local id leads to
it. -/
structure Backed (m : ChannelMap X) (c : Channel) : Prop where
  flag_lt : c.closed < m.shared.flags.next
  inbox_lt : c.direct_inbound_tx < m.shared.inboxes.next
  key_of : discovery_key_of X c.key = c.discovery_key
  slot : ∀ h, m.channels c.discovery_key = some h → h.closed = c.closed →
    m.local_id.slot c.local_id = some c.discovery_key
  connected : ∀ h, m.channels c.discovery_key = some h → h.closed = c.closed →
    h.is_connected = true
  entry : m.shared.flags.read c.closed = some false →
    ∃ h, m.channels c.discovery_key = some h ∧ h.closed = c.closed

/-- The flag of a handle that is made new was not there before. So an entry with the flag of a
channel that exists is the entry of that channel. -/
theorem Backed.entry_closed {c : Channel} (hc : Backed m c) {d : DiscoveryKey}
    (heq : (m.entry d).closed = c.closed) : m.channels d = some (m.entry d) := by
  cases hd : m.channels d with
  | some h => rw [ChannelMap.entry_of_some hd]
  | none =>
    rw [ChannelMap.entry_of_none hd] at heq
    exact absurd heq (Nat.ne_of_gt hc.flag_lt)

/-- Giving `d` another handle with the same flag, in a map that keeps the slots of
the others, keeps a channel backed. -/
theorem Backed.replace {c : Channel} {d : DiscoveryKey} {h : ChannelHandle} (hc : Backed m c)
    (hchannels : m'.channels = Function.update m.channels d (some h))
    (hclosed : h.closed = (m.entry d).closed)
    (hconnected : (m.entry d).is_connected = true → h.is_connected = true)
    (hslot : m.local_id.slot c.local_id = some c.discovery_key →
      m'.local_id.slot c.local_id = some c.discovery_key)
    (hflags : m.shared.flags.next ≤ m'.shared.flags.next)
    (hread : m'.shared.flags.read c.closed = m.shared.flags.read c.closed)
    (hinboxes : m.shared.inboxes.next ≤ m'.shared.inboxes.next) : Backed m' c where
  flag_lt := Nat.lt_of_lt_of_le hc.flag_lt hflags
  inbox_lt := Nat.lt_of_lt_of_le hc.inbox_lt hinboxes
  key_of := hc.key_of
  slot h' hh' hcl := by
    rw [hchannels] at hh'
    rcases ChannelMap.update_some_iff.mp hh' with ⟨hd, rfl⟩ | ⟨-, hh'⟩
    · rw [hclosed] at hcl
      have hold := hc.entry_closed hcl
      rw [← hd] at hold hcl
      exact hslot (hc.slot _ hold hcl)
    · exact hslot (hc.slot h' hh' hcl)
  connected h' hh' hcl := by
    rw [hchannels] at hh'
    rcases ChannelMap.update_some_iff.mp hh' with ⟨hd, rfl⟩ | ⟨-, hh'⟩
    · rw [hclosed] at hcl
      have hold := hc.entry_closed hcl
      rw [← hd] at hold hcl hconnected
      exact hconnected (hc.connected _ hold hcl)
    · exact hc.connected h' hh' hcl
  entry hflag := by
    rw [hread] at hflag
    -- the flag is not set, so the entry was there; it is still there, perhaps as `h`
    obtain ⟨h₀, hd₀, hcl⟩ := hc.entry hflag
    rw [hchannels]
    by_cases hd : c.discovery_key = d
    · refine ⟨h, ChannelMap.update_some_iff.mpr (Or.inl ⟨hd, rfl⟩), ?_⟩
      rw [hclosed, ← hd, ChannelMap.entry_of_some hd₀, hcl]
    · exact ⟨h₀, ChannelMap.update_some_iff.mpr (Or.inr ⟨hd, hd₀⟩), hcl⟩

/-- Stores to flags and messages in queues keep a channel backed, as long as no flag is
cleared. -/
theorem Backed.with_shared {c : Channel} (hc : Backed m c) {shared : Shared X}
    (hflags : shared.flags.next = m.shared.flags.next)
    (hinboxes : shared.inboxes.next = m.shared.inboxes.next)
    (hread : shared.flags.read c.closed = some false →
      m.shared.flags.read c.closed = some false) :
    Backed { m with shared := shared } c where
  flag_lt := Nat.lt_of_lt_of_eq hc.flag_lt hflags.symm
  inbox_lt := Nat.lt_of_lt_of_eq hc.inbox_lt hinboxes.symm
  key_of := hc.key_of
  slot := hc.slot
  connected := hc.connected
  entry hflag := hc.entry (hread hflag)

/-- Attaching only adds to a handle: one that is connected stays so. -/
theorem attach_local_connected {h : ChannelHandle} {i : ℕ} {key : Key}
    (hc : h.is_connected = true) : (h.attach_local i key).is_connected = true := by
  rw [ChannelHandle.is_connected, Bool.and_eq_true] at hc ⊢
  exact ⟨rfl, hc.2⟩

theorem attach_remote_connected {h : ChannelHandle} {r : ℕ} {cap : Option (Vec UInt8)}
    (hc : h.is_connected = true) : (h.attach_remote r cap).is_connected = true := by
  rw [ChannelHandle.is_connected, Bool.and_eq_true] at hc ⊢
  exact ⟨hc.1, rfl⟩

theorem MapEffect.backed {op : MapOp} (h : MapEffect m op m') (hm : m.Wf) {c : Channel}
    (hc : Backed m c) : Backed m' c := by
  cases h with
  | attached_local hkey hi hlen hfree hslot hroom hmax =>
    refine hc.replace rfl rfl attach_local_connected (fun hs => ?_)
      (ChannelMap.le_entered_flags _ _) (ChannelMap.read_entered hc.flag_lt _)
      (by rw [ChannelMap.entered_inboxes])
    rw [hslot, if_neg]
    · exact hs
    · intro heq
      rw [heq, hfree] at hs
      exact nomatch hs
  | attached_remote hr hlen hslot htakes hgrow =>
    exact hc.replace rfl rfl attach_remote_connected (fun hs => hs)
      (ChannelMap.le_entered_flags _ _) (ChannelMap.read_entered hc.flag_lt _)
      (by rw [ChannelMap.entered_inboxes])
  | absent hd => exact hc
  | removed hd hlenl hlenr hslotl hslotr =>
    rename_i d h vl vr
    refine ⟨by rw [Shared.store_true, Arena.next_update]; exact hc.flag_lt, hc.inbox_lt,
      hc.key_of, fun h' hh' hcl => ?_,
      fun h' hh' hcl => hc.connected h' (ChannelMap.update_none_iff.mp hh').2 hcl,
      fun hflag => ?_⟩
    · obtain ⟨hne, hh'⟩ := ChannelMap.update_none_iff.mp hh'
      have hs := hc.slot h' hh' hcl
      -- the cleared slot held `d`
      rw [hslotl, if_neg]
      · exact hs
      · intro hl
        rw [((hm.fits hd).local_slot hl).2] at hs
        exact hne (Option.some.inj hs).symm
    · have hne : c.closed ≠ h.closed := by
        intro heq
        rw [Shared.store_true, heq, Arena.read_update_self] at hflag
        cases hread : m.shared.flags.read h.closed <;> rw [hread] at hflag <;> exact nomatch hflag
      rw [Shared.store_true, Arena.read_update_of_ne hne] at hflag
      obtain ⟨h₀, hd₀, hcl⟩ := hc.entry hflag
      refine ⟨h₀, ChannelMap.update_none_iff.mpr ⟨?_, hd₀⟩, hcl⟩
      intro heq
      rw [heq, hd] at hd₀
      exact hne (by rw [← hcl, Option.some.inj hd₀])

theorem MapChange.backed (h : MapChange P m m') (hm : m.Wf) {c : Channel} (hc : Backed m c) :
    Backed m' c := by
  cases h with
  | call _ h => exact MapEffect.backed h hm hc
  | accept hd hconn =>
    refine hc.replace rfl ?_ (fun _ => hconn) (fun hs => hs) (Nat.le_refl _) rfl ?_
    · rw [ChannelMap.entry_of_some hd]
    · exact Nat.le_of_lt (Nat.lt_of_lt_of_eq (Nat.lt_succ_self _) (Arena.next_alloc _ _).symm)
  | push n msg => exact hc.with_shared rfl (Arena.next_update _ _ _) (fun h => h)

/-- The channel of an accepted entry is backed: this is how a channel begins. -/
theorem backed_opened (hm : m.Wf) {d : DiscoveryKey} {h : ChannelHandle} {ls : LocalState}
    {rs : RemoteState} (hd : m.channels d = some h) (hl : h.local_state = some ls)
    (hr : h.remote_state = some rs) :
    Backed (m.accepted d h) (ChannelMap.opened h ls m.shared.inboxes.next) := by
  have hf := hm.fits hd
  have hs := (hf.local_slot (i := ls.local_id) (by rw [ChannelHandle.local_id, hl]; rfl)).2
  have hentry : (m.accepted d h).channels h.discovery_key
      = some { h with inbound_tx := some m.shared.inboxes.next } :=
    ChannelMap.update_some_iff.mpr (Or.inl ⟨hf.keyed, rfl⟩)
  refine ⟨hf.flag_lt, ?_, ?_, fun _ _ _ => ?_, fun h' hh' _ => ?_, fun _ => ⟨_, hentry, rfl⟩⟩
  · exact Nat.lt_of_lt_of_eq (Nat.lt_succ_self _) (Arena.next_alloc _ _).symm
  · exact (hf.key_of hl).trans hf.keyed.symm
  · exact hs.trans (congrArg some hf.keyed.symm)
  · rw [← Option.some.inj (hentry.symm.trans hh'), ChannelHandle.is_connected, hl, hr]
    rfl

/-! ## The events a step queues -/

/-- The step from `p` to `p'` ends by accepting an entry, verified against the
capability the remote had shown, and `c` is its channel. -/
def Establishes (p p' : Protocol X σ) (c : Channel) : Prop :=
  ∃ (m : ChannelMap X) (d : DiscoveryKey) (h : ChannelHandle) (ls : LocalState)
    (rs : RemoteState), m.Wf ∧ m.channels d = some h ∧ h.local_state = some ls ∧
    h.remote_state = some rs ∧ p.Verified ls.key rs.remote_capability ∧
    c = ChannelMap.opened h ls m.shared.inboxes.next ∧ p'.channels = m.accepted d h

theorem Establishes.backed {c : Channel} (h : Establishes p p' c) : Backed p'.channels c := by
  obtain ⟨m, d, h, ls, rs, hm, hd, hl, hr, -, rfl, hp'⟩ := h
  rw [hp']
  exact backed_opened hm hd hl hr

/-- A command queues events behind those that wait, and a channel only by establishing it. So no
channel event comes from elsewhere. -/
theorem command_events (hm : p.channels.Wf) {c : Command} {result : Option IoError}
    (h : Protocol.CommandEffect p c result p') :
    ∃ es, p'.queued_events = p.queued_events ++ es ∧
      ∀ ch, Event.Channel ch ∈ es → Establishes p p' ch := by
  cases h with
  | opened => exact ⟨[], (List.append_nil _).symm, fun _ hch => absurd hch List.not_mem_nil⟩
  | refused => exact ⟨[], (List.append_nil _).symm, fun _ hch => absurd hch List.not_mem_nil⟩
  | accepted hmap hd hl hr hv hcap =>
    refine ⟨_, rfl, fun ch hch => ?_⟩
    obtain rfl := Event.Channel.inj (List.mem_singleton.mp hch)
    exact ⟨_, _, _, _, _, hmap.wf hm, hd, hl, hr, hv, rfl, rfl⟩
  | close_absent => exact ⟨[], (List.append_nil _).symm, fun _ hch => absurd hch List.not_mem_nil⟩
  | closed => exact ⟨_, rfl, fun _ hch => nomatch List.mem_singleton.mp hch⟩
  | signalled => exact ⟨_, rfl, fun _ hch => nomatch List.mem_singleton.mp hch⟩

theorem inbound_events (hm : p.channels.Wf) {msg : ChannelMessage X} {result : Option IoError}
    (h : Protocol.InboundEffect p msg result p') :
    ∃ es, p'.queued_events = p.queued_events ++ es ∧
      ∀ ch, Event.Channel ch ∈ es → Establishes p p' ch := by
  have hnone : ∃ es, p.queued_events = p.queued_events ++ es ∧
      ∀ ch, Event.Channel ch ∈ es → Establishes p p' ch :=
    ⟨[], (List.append_nil _).symm, fun _ hch => absurd hch List.not_mem_nil⟩
  cases h with
  | bad_key => exact hnone
  | announced => exact ⟨_, rfl, fun _ hch => nomatch List.mem_singleton.mp hch⟩
  | refused => exact hnone
  | accepted hk hmap hd hr hl hv =>
    refine ⟨_, rfl, fun ch hch => ?_⟩
    obtain rfl := Event.Channel.inj (List.mem_singleton.mp hch)
    exact ⟨_, _, _, _, _, hmap.wf hm, hd, hl, hr, hv, rfl, rfl⟩
  | close_unknown => exact hnone
  | closed => exact ⟨_, rfl, fun _ hch => nomatch List.mem_singleton.mp hch⟩
  | unknown => exact hnone
  | not_open => exact hnone
  | no_receiver => exact hnone
  | delivered => exact hnone

omit [CipherTrait σ] in
/-- Outbound messages queue no channels, only the closing of one and local signals. -/
theorem outbound_events {msg : ChannelMessage X} {keep : Bool}
    (h : Protocol.OutboundEffect p msg keep p') :
    ∃ es, p'.queued_events = p.queued_events ++ es ∧ ∀ ch, Event.Channel ch ∉ es := by
  cases h with
  | close_unknown => exact ⟨[], (List.append_nil _).symm, fun _ => List.not_mem_nil⟩
  | closed => exact ⟨_, rfl, fun _ hch => nomatch List.mem_singleton.mp hch⟩
  | signalled => exact ⟨_, rfl, fun _ hch => nomatch List.mem_singleton.mp hch⟩
  | passed => exact ⟨[], (List.append_nil _).symm, fun _ => List.not_mem_nil⟩

omit [CipherTrait σ] in
theorem batch_events {msgs kept : List (ChannelMessage X)}
    (h : Protocol.BatchEffect p msgs kept p') :
    ∃ es, p'.queued_events = p.queued_events ++ es ∧ ∀ ch, Event.Channel ch ∉ es := by
  induction h with
  | nil p => exact ⟨[], (List.append_nil _).symm, fun _ => List.not_mem_nil⟩
  | cons head _ ih =>
    obtain ⟨es₁, h₁, hno₁⟩ := outbound_events head
    obtain ⟨es₂, h₂, hno₂⟩ := ih
    refine ⟨es₁ ++ es₂, by rw [h₂, h₁, List.append_assoc], fun ch hch => ?_⟩
    rcases List.mem_append.mp hch with hch | hch
    · exact hno₁ ch hch
    · exact hno₂ ch hch

/-- A step returns the first event, or it queues events behind those that wait, and
a channel only by establishing it. -/
theorem protocol_step_events (hm : p.channels.Wf) {move : Move X}
    (h : protocol_step p move p') :
    (∃ e, move = .event e ∧ p.queued_events = e :: p'.queued_events) ∨
      ∃ es, p'.queued_events = p.queued_events ++ es ∧
        ∀ c, Event.Channel c ∈ es → Establishes p p' c := by
  cases move with
  | command cmd =>
    obtain ⟨rest, result, -, heff⟩ := command_effect hm h
    exact Or.inr (command_events (p := { p with command_rx := rest }) hm heff)
  | inbound msg =>
    obtain ⟨result, heff⟩ := inbound_effect hm h
    exact Or.inr (inbound_events hm heff)
  | outbound batch =>
    obtain ⟨rest, kept, q, -, heff, rfl⟩ := outbound_effect hm h
    obtain ⟨es, hes, hno⟩ := batch_events heff
    exact Or.inr ⟨es, hes, fun c hc => absurd hc (hno c)⟩
  | io =>
    cases h
    exact Or.inr ⟨[], (List.append_nil _).symm, fun _ hc => absurd hc List.not_mem_nil⟩
  | handshake key =>
    cases h
    exact Or.inr ⟨[], (List.append_nil _).symm, fun _ hc => absurd hc List.not_mem_nil⟩
  | event e =>
    cases h with
    | event hq => exact Or.inl ⟨e, rfl, hq⟩

/-- A channel event that waits after a step waited before, or the step established the channel.
What is shown of established channels holds of all that are announced. -/
theorem protocol_step_channel (hm : p.channels.Wf) {move : Move X}
    (h : protocol_step p move p') {c : Channel} (hc : Event.Channel c ∈ p'.queued_events) :
    Event.Channel c ∈ p.queued_events ∨ Establishes p p' c := by
  rcases protocol_step_events hm h with ⟨e, -, hq⟩ | ⟨es, hes, hest⟩
  · left
    rw [hq]
    exact List.mem_cons_of_mem e hc
  · rw [hes] at hc
    rcases List.mem_append.mp hc with hc | hc
    · exact Or.inl hc
    · exact Or.inr (hest c hc)

/-! ## The invariant -/

/-- A channel that somebody still has: the application, an event that waits, a call under way, or
a batch in the queue. -/
def Session.Knows (s : Session X σ) (c : Channel) : Prop :=
  c ∈ s.held ∨ Event.Channel c ∈ s.protocol.queued_events ∨ (∃ x ∈ s.sending, x.channel = c) ∨
    c ∈ s.closing ∨ c ∈ s.senders

/-- **The invariant of a session.** The map is well-formed, every batch has its sender, and every
channel that somebody has is backed. -/
structure Inv (s : Session X σ) : Prop where
  wf : s.protocol.channels.Wf
  senders : s.senders.length = s.protocol.outbound_rx.length
  backed : ∀ c, s.Knows c → Backed s.protocol.channels c

theorem not_knows_new (stream : σ) (c : Channel) :
    ¬ (Session.new stream : Session X σ).Knows c := by
  rintro (hc | hc | ⟨x, hx, -⟩ | hc | hc)
  · exact absurd hc List.not_mem_nil
  · exact absurd hc List.not_mem_nil
  · exact absurd hx List.not_mem_nil
  · exact absurd hc List.not_mem_nil
  · exact absurd hc List.not_mem_nil

theorem inv_new (stream : σ) : Inv (Session.new stream : Session X σ) where
  wf := ChannelMap.wf_new
  senders := rfl
  backed c hc := absurd hc (not_knows_new stream c)

/-- What a move of the protocol leaves of the outbound queue: all of it, or all but the batch it
took. -/
theorem protocol_step_outbound_rx (hm : p.channels.Wf) {move : Move X}
    (h : protocol_step p move p') :
    (∃ batch, move = .outbound batch ∧ p.outbound_rx = batch :: p'.outbound_rx) ∨
      ((∀ batch, move ≠ .outbound batch) ∧ p'.outbound_rx = p.outbound_rx) := by
  cases move with
  | command cmd =>
    obtain ⟨rest, result, -, heff⟩ := command_effect hm h
    exact Or.inr ⟨(fun _ h => nomatch h), heff.frame.outbound_rx⟩
  | inbound msg =>
    obtain ⟨result, heff⟩ := inbound_effect hm h
    exact Or.inr ⟨(fun _ h => nomatch h), heff.frame.outbound_rx⟩
  | outbound batch =>
    obtain ⟨rest, kept, q, hq, heff, rfl⟩ := outbound_effect hm h
    refine Or.inl ⟨batch, rfl, ?_⟩
    rw [hq]
    exact congrArg _ heff.frame.outbound_rx.symm
  | io => cases h; exact Or.inr ⟨(fun _ h => nomatch h), rfl⟩
  | handshake key => cases h; exact Or.inr ⟨(fun _ h => nomatch h), rfl⟩
  | event e => cases h; exact Or.inr ⟨(fun _ h => nomatch h), rfl⟩

/-- Nobody gets a channel but by an event, and an event only by a step that has established the
channel. -/
theorem knows_after {s : Session X σ} (hm : s.protocol.channels.Wf) {move : Move X}
    (h : protocol_step s.protocol move p) {c : Channel} (hc : (s.after move p).Knows c) :
    s.Knows c ∨ Establishes s.protocol p c := by
  have hevents : Event.Channel c ∈ p.queued_events →
      s.Knows c ∨ Establishes s.protocol p c := by
    intro he
    rcases protocol_step_channel hm h he with he | he
    · exact Or.inl (Or.inr (Or.inl he))
    · exact Or.inr he
  -- most moves leave what the application has, and can only queue an event
  have hcommon : (c ∈ s.held ∨ Event.Channel c ∈ p.queued_events ∨
      (∃ x ∈ s.sending, x.channel = c) ∨ c ∈ s.closing ∨ c ∈ s.senders) →
      s.Knows c ∨ Establishes s.protocol p c := by
    rintro (hc | hc | hc | hc | hc)
    · exact Or.inl (Or.inl hc)
    · exact hevents hc
    · exact Or.inl (Or.inr (Or.inr (Or.inl hc)))
    · exact Or.inl (Or.inr (Or.inr (Or.inr (Or.inl hc))))
    · exact Or.inl (Or.inr (Or.inr (Or.inr (Or.inr hc))))
  cases move with
  | command cmd => exact hcommon hc
  | inbound msg => exact hcommon hc
  | io => exact hcommon hc
  | handshake key => exact hcommon hc
  | outbound batch =>
    rcases hc with hc | hc | hc | hc | hc
    · exact hcommon (Or.inl hc)
    · exact hcommon (Or.inr (Or.inl hc))
    · exact hcommon (Or.inr (Or.inr (Or.inl hc)))
    · exact hcommon (Or.inr (Or.inr (Or.inr (Or.inl hc))))
    · exact hcommon (Or.inr (Or.inr (Or.inr (Or.inr (List.mem_of_mem_tail hc)))))
  | event e =>
    cases e with
    | Channel c₀ =>
      rcases hc with hc | hc
      · rcases List.mem_append.mp hc with hc | hc
        · exact hcommon (Or.inl hc)
        · -- the channel was in the event that is returned
          obtain rfl := List.mem_singleton.mp hc
          cases h with
          | event hq => exact Or.inl (Or.inr (Or.inl (by rw [hq]; exact List.mem_cons_self)))
      · exact hcommon (Or.inr hc)
    | _ => exact hcommon hc

/-- A store of `true` makes no flag false, so that a flag that reads false has always been so. -/
theorem read_store_true {shared : Shared X} {flag n : ℕ}
    (h : (shared.store_true flag).flags.read n = some false) :
    shared.flags.read n = some false := by
  by_cases heq : n = flag
  · rw [Shared.store_true, heq, Arena.read_update_self] at h
    cases hread : shared.flags.read flag <;> rw [hread] at h <;> exact nomatch h
  · rwa [Shared.store_true, Arena.read_update_of_ne heq] at h

omit [CipherTrait σ] in
theorem Session.protocol_after (s : Session X σ) (move : Move X) (p : Protocol X σ) :
    (s.after move p).protocol = p := by
  cases move with
  | event e => cases e <;> rfl
  | _ => rfl

/-- A move of the protocol keeps the invariant. The map changes by calls that keep channels
backed, and a new channel is backed when it is established. -/
theorem Inv.after {s : Session X σ} (hs : Inv s) {move : Move X}
    (h : protocol_step s.protocol move p) : Inv (s.after move p) := by
  have hchanges := protocol_step_changes hs.wf h
  refine ⟨?_, ?_, fun c hc => ?_⟩
  · rw [s.protocol_after]
    exact (MapChanges.keep (I := fun _ => True) (fun _ _ _ => trivial) hchanges hs.wf trivial).1
  · rw [s.protocol_after]
    rcases protocol_step_outbound_rx hs.wf h with ⟨batch, rfl, hq⟩ | ⟨hne, hq⟩
    · show s.senders.tail.length = _
      rw [List.length_tail, hs.senders, hq, List.length_cons, Nat.add_sub_cancel]
    · rw [hq, ← hs.senders]
      cases move with
      | outbound batch => exact absurd rfl (hne batch)
      | event e => cases e <;> rfl
      | _ => rfl
  · rw [s.protocol_after]
    rcases knows_after hs.wf h hc with hc | hc
    · exact (MapChanges.keep (fun h hm => h.backed hm) hchanges hs.wf (hs.backed c hc)).2
    · exact hc.backed

omit [CipherTrait σ] in
/-- A channel among waiting batches, one of which is taken out, was among them before. -/
theorem knows_sending {s : Session X σ} {l r : List (Sending X)} {x : Sending X}
    (hs : s.sending = l ++ x :: r) {c : Channel} (hc : ∃ y ∈ l ++ r, y.channel = c) :
    s.Knows c := by
  obtain ⟨y, hy, rfl⟩ := hc
  refine Or.inr (Or.inr (Or.inl ⟨y, ?_, rfl⟩))
  rw [hs]
  exact ((List.sublist_cons_self _ _).append_left _).subset hy

omit [CipherTrait σ] in
/-- A held channel that starts to send is no new channel to the session. -/
theorem knows_sending_snoc {s : Session X σ} {x : Sending X} (hx : x.channel ∈ s.held)
    {c : Channel} (hc : ({ s with sending := s.sending ++ [x] } : Session X σ).Knows c) :
    s.Knows c := by
  rcases hc with hc | hc | ⟨y, hy, rfl⟩ | hc
  · exact Or.inl hc
  · exact Or.inr (Or.inl hc)
  · rcases List.mem_append.mp hy with hy | hy
    · exact Or.inr (Or.inr (Or.inl ⟨y, hy, rfl⟩))
    · rw [List.mem_singleton.mp hy]
      exact Or.inl hx
  · exact Or.inr (Or.inr (Or.inr hc))

omit [CipherTrait σ] in
/-- A batch that enters the queue moves its channel from one place to another, and adds none. -/
theorem knows_enqueued {s : Session X σ} {l r : List (Sending X)} {x : Sending X}
    (hl : s.sending = l ++ x :: r) {c : Channel}
    (hc : ({ s with
      sending := l ++ r
      closing := if x.closing then s.closing ++ [x.channel] else s.closing
      senders := s.senders ++ [x.channel]
      protocol := { s.protocol with outbound_rx := s.protocol.outbound_rx ++ [x.batch] } } :
        Session X σ).Knows c) : s.Knows c := by
  -- the batch was waiting, so its channel was known
  have hx : s.Knows x.channel :=
    Or.inr (Or.inr (Or.inl ⟨x, hl ▸ List.mem_append_right _ List.mem_cons_self, rfl⟩))
  rcases hc with hc | hc | hc | hc | hc
  · exact Or.inl hc
  · exact Or.inr (Or.inl hc)
  · exact knows_sending hl hc
  · have hc : c ∈ s.closing ++ [x.channel] := by
      revert hc
      show c ∈ (if x.closing then s.closing ++ [x.channel] else s.closing) → _
      split
      · exact fun hc => hc
      · exact fun hc => List.mem_append_left _ hc
    rcases List.mem_append.mp hc with hc | hc
    · exact Or.inr (Or.inr (Or.inr (Or.inl hc)))
    · exact List.mem_singleton.mp hc ▸ hx
  · rcases List.mem_append.mp hc with hc | hc
    · exact Or.inr (Or.inr (Or.inr (Or.inr hc)))
    · exact List.mem_singleton.mp hc ▸ hx

/-- A channel that is about after a step was about before, or the step established it. -/
theorem Step.knows {s s' : Session X σ} {a : Action X} (h : Step s a s')
    (hm : s.protocol.channels.Wf) {c : Channel} (hc : s'.Knows c) :
    s.Knows c ∨ Establishes s.protocol s'.protocol c := by
  cases h with
  | protocol h =>
    rw [s.protocol_after]
    exact knows_after hm h hc
  | queue_command => exact Or.inl hc
  | send messages hheld => exact Or.inl (knows_sending_snoc hheld hc)
  | close hheld => exact Or.inl (knows_sending_snoc hheld hc)
  | enqueue hl => exact Or.inl (knows_enqueued hl hc)
  | abandon hl =>
    left
    rcases hc with hc | hc | hc | hc
    · exact Or.inl hc
    · exact Or.inr (Or.inl hc)
    · exact knows_sending hl hc
    · exact Or.inr (Or.inr (Or.inr hc))
  | store_closed hl =>
    rename_i l r c₀
    left
    rcases hc with hc | hc | hc | hc | hc
    · exact Or.inl hc
    · exact Or.inr (Or.inl hc)
    · exact Or.inr (Or.inr (Or.inl hc))
    · refine Or.inr (Or.inr (Or.inr (Or.inl ?_)))
      rw [hl]
      exact ((List.sublist_cons_self _ _).append_left _).subset hc
    · exact Or.inr (Or.inr (Or.inr (Or.inr hc)))
  | receive => exact Or.inl hc
  | drop_receiver => exact Or.inl hc
  | local_send => exact Or.inl hc

/-- A session that differs in its queues only has the invariant, since this speaks of the map and
of who has a channel. -/
theorem Inv.same_map {s s' : Session X σ} {a : Action X} (hs : Inv s) (h : Step s a s')
    (hmap : s'.protocol.channels = s.protocol.channels)
    (hsenders : s'.senders.length = s'.protocol.outbound_rx.length) : Inv s' where
  wf := hmap ▸ hs.wf
  senders := hsenders
  backed c hc := by
    rcases h.knows hs.wf hc with hc | hc
    · exact hmap ▸ hs.backed c hc
    · exact hc.backed

/-- A session that differs in the shared cells has the invariant too, if no cell is lost and no
flag is cleared. -/
theorem Inv.same_tables {s s' : Session X σ} {a : Action X} (hs : Inv s) (h : Step s a s')
    {shared : Shared X}
    (hmap : s'.protocol.channels = { s.protocol.channels with shared := shared })
    (hsenders : s'.senders.length = s'.protocol.outbound_rx.length)
    (hflags : shared.flags.next = s.protocol.channels.shared.flags.next)
    (hinboxes : shared.inboxes.next = s.protocol.channels.shared.inboxes.next)
    (hread : ∀ n, shared.flags.read n = some false →
      s.protocol.channels.shared.flags.read n = some false) : Inv s' where
  wf := hmap ▸ hs.wf.with_shared hflags hinboxes
  senders := hsenders
  backed c hc := by
    rcases h.knows hs.wf hc with hc | hc
    · exact hmap ▸ (hs.backed c hc).with_shared hflags hinboxes (hread c.closed)
    · exact hc.backed

/-- Every step keeps the invariant: the moves by `Inv.after`, and the steps of the application
since they leave the entries alone. -/
theorem Step.inv {s s' : Session X σ} {a : Action X} (h : Step s a s') (hs : Inv s) : Inv s' := by
  have hstep := h
  cases h with
  | protocol h => exact hs.after h
  | queue_command => exact hs.same_map hstep rfl hs.senders
  | send => exact hs.same_map hstep rfl hs.senders
  | close => exact hs.same_map hstep rfl hs.senders
  | enqueue =>
    refine hs.same_map hstep rfl ?_
    rw [List.length_append, List.length_append, hs.senders]
    rfl
  | abandon => exact hs.same_map hstep rfl hs.senders
  | store_closed =>
    exact hs.same_tables hstep rfl hs.senders (Arena.next_update _ _ _) rfl
      fun n hn => read_store_true hn
  | receive =>
    exact hs.same_tables hstep rfl hs.senders rfl (Arena.next_update _ _ _) fun n hn => hn
  | drop_receiver =>
    exact hs.same_tables hstep rfl hs.senders rfl (Arena.next_update _ _ _) fun n hn => hn
  | local_send =>
    exact hs.same_tables hstep rfl hs.senders rfl (Arena.next_update _ _ _) fun n hn => hn

/-- What the application does leaves the entries, the id tables, the events and the
connection alone. -/
structure Aside (p p' : Protocol X σ) : Prop where
  entries : p'.channels.channels = p.channels.channels
  local_id : p'.channels.local_id = p.channels.local_id
  remote_id : p'.channels.remote_id = p.channels.remote_id
  inboxes : p'.channels.shared.inboxes.next = p.channels.shared.inboxes.next
  io : p'.io = p.io
  is_initiator : p'.is_initiator = p.is_initiator
  queued_events : p'.queued_events = p.queued_events
  handshake_emitted : p'.handshake_emitted = p.handshake_emitted

/-- A step is a move of the protocol or one of the application, which leaves most of the protocol
alone. Proofs about the protocol need only look at the first kind. -/
theorem Step.move_or_aside {s s' : Session X σ} {a : Action X} (h : Step s a s') :
    (∃ move, a = .protocol move ∧ protocol_step s.protocol move s'.protocol) ∨
      ((∀ move, a ≠ .protocol move) ∧ Aside s.protocol s'.protocol) := by
  cases h with
  | protocol h =>
    rw [Session.protocol_after]
    exact Or.inl ⟨_, rfl, h⟩
  | queue_command => exact Or.inr ⟨(fun _ h => nomatch h), ⟨rfl, rfl, rfl, rfl, rfl, rfl, rfl, rfl⟩⟩
  | send => exact Or.inr ⟨(fun _ h => nomatch h), ⟨rfl, rfl, rfl, rfl, rfl, rfl, rfl, rfl⟩⟩
  | close => exact Or.inr ⟨(fun _ h => nomatch h), ⟨rfl, rfl, rfl, rfl, rfl, rfl, rfl, rfl⟩⟩
  | enqueue => exact Or.inr ⟨(fun _ h => nomatch h), ⟨rfl, rfl, rfl, rfl, rfl, rfl, rfl, rfl⟩⟩
  | abandon => exact Or.inr ⟨(fun _ h => nomatch h), ⟨rfl, rfl, rfl, rfl, rfl, rfl, rfl, rfl⟩⟩
  | store_closed => exact Or.inr ⟨(fun _ h => nomatch h), ⟨rfl, rfl, rfl, rfl, rfl, rfl, rfl, rfl⟩⟩
  | receive =>
    exact Or.inr
      ⟨(fun _ h => nomatch h), ⟨rfl, rfl, rfl, Arena.next_update _ _ _, rfl, rfl, rfl, rfl⟩⟩
  | drop_receiver =>
    exact Or.inr
      ⟨(fun _ h => nomatch h), ⟨rfl, rfl, rfl, Arena.next_update _ _ _, rfl, rfl, rfl, rfl⟩⟩
  | local_send =>
    exact Or.inr
      ⟨(fun _ h => nomatch h), ⟨rfl, rfl, rfl, Arena.next_update _ _ _, rfl, rfl, rfl, rfl⟩⟩

/-- The role never changes, and what the handshake has given stays, through every move. -/
theorem protocol_step_handshake (hm : p.channels.Wf) {move : Move X}
    (h : protocol_step p move p') :
    p'.is_initiator = p.is_initiator ∧ KeepsHandshake p.io.stream p'.io.stream := by
  -- what handles commands and messages does not touch the connection
  have hsame : ∀ {q : Protocol X σ}, Protocol.SameFrame q p' → q.io.stream = p.io.stream →
      q.is_initiator = p.is_initiator →
      p'.is_initiator = p.is_initiator ∧ KeepsHandshake p.io.stream p'.io.stream := by
    intro q hf hstream hinit
    refine ⟨hf.is_initiator.trans hinit, ?_⟩
    rw [hf.stream, hstream]
    exact .refl _
  cases move with
  | command c =>
    obtain ⟨rest, result, -, heff⟩ := command_effect hm h
    exact hsame heff.frame rfl rfl
  | inbound msg =>
    obtain ⟨result, heff⟩ := inbound_effect hm h
    exact hsame heff.frame rfl rfl
  | outbound batch =>
    obtain ⟨rest, kept, q, -, heff, rfl⟩ := outbound_effect hm h
    have hf := heff.frame
    exact ⟨hf.is_initiator, by rw [hf.stream]; exact .refl _⟩
  | io =>
    cases h with
    | io hkeeps => exact ⟨rfl, hkeeps⟩
  | handshake key => cases h; exact ⟨rfl, .refl _⟩
  | event e => cases h; exact ⟨rfl, .refl _⟩

theorem Step.handshake {s s' : Session X σ} {a : Action X} (h : Step s a s') (hs : Inv s) :
    s'.protocol.is_initiator = s.protocol.is_initiator ∧
      KeepsHandshake s.protocol.io.stream s'.protocol.io.stream := by
  rcases h.move_or_aside with ⟨move, -, hmove⟩ | ⟨-, hq⟩
  · exact protocol_step_handshake hs.wf hmove
  · exact ⟨hq.is_initiator, by rw [hq.io]; exact .refl _⟩

/-- Once a channel is about, the handshake is complete: a channel is only established by a check
that needs it. -/
theorem Step.hash {s s' : Session X σ} {a : Action X} (h : Step s a s') (hs : Inv s)
    (hhash : ∀ c, s.Knows c → s.protocol.io.handshake_hash.isSome) (c : Channel)
    (hc : s'.Knows c) : s'.protocol.io.handshake_hash.isSome := by
  have hkeeps := (h.handshake hs).2.1
  have hkept : s.protocol.io.handshake_hash.isSome → s'.protocol.io.handshake_hash.isSome := by
    intro hsome
    obtain ⟨hash, hhash⟩ := Option.isSome_iff_exists.mp hsome
    exact Option.isSome_iff_exists.mpr ⟨hash, hkeeps hash hhash⟩
  rcases h.knows hs.wf hc with hc | ⟨m, d, e, ls, rs, -, -, -, -, ⟨hash, x, hhash, -⟩, -⟩
  · exact hkept (hhash c hc)
  · exact hkept (Option.isSome_iff_exists.mpr ⟨hash, hhash⟩)

/-- Every reachable session has the invariant, by induction on the run. -/
theorem reachable_inv {stream : σ} {tr : List (Transition (Session X σ) (Action X))}
    {s : Session X σ} (h : Run Step (Session.new stream) tr s) : Inv s :=
  Run.invariant (I := fun _ s => Inv s) (inv_new stream) (fun _ _ _ _ _ hs h => h.inv hs) h

theorem reachable_hash {stream : σ} {tr : List (Transition (Session X σ) (Action X))}
    {s : Session X σ} (h : Run Step (Session.new stream) tr s) {c : Channel} (hc : s.Knows c) :
    s.protocol.io.handshake_hash.isSome :=
  Run.invariant (I := fun _ s => ∀ c, s.Knows c → s.protocol.io.handshake_hash.isSome)
    (fun c hc => absurd hc (not_knows_new stream c))
    (fun _ _ _ _ run hs h => h.hash (reachable_inv run) hs) h c hc

/-! ## Panics of the id tables -/

/-- The call panics in the arithmetic or the indexing of the id tables: an index is out of its
table, or the length that a table is resized to does not fit into a `usize`. An id whose table
would fit into a `usize` but not into memory panics in the same `resize`, with another panic
(`capacity_overflow`); these panics depend on the allocator and are not counted here. -/
def BreaksTable {α : Type} (f : ProtocolMethod X σ α) (p : Protocol X σ) : Prop :=
  ∃ pan p', (pan = .overflow ∨ pan = .index_out_of_bounds) ∧ f.run p = .error (.panic pan) p'

/-- An `Open` that names a key and carries the last channel id there is. Its table would need one
slot more than a `usize` can count. -/
def OpensLastId (msg : ChannelMessage X) : Prop :=
  ∃ o, msg.message = .Open o ∧ o.discovery_key.val.length = 32 ∧ msg.channel.toNat = USIZE_MAX

omit [CipherTrait σ] in
theorem not_breaks_of_outcome {f : ProtocolMethod X σ Unit} {result : Option IoError}
    (hrun : f.run p = outcome result p') : ¬ BreaksTable f p := by
  rintro ⟨pan, q, -, hpan⟩
  rw [hrun] at hpan
  cases result with
  | none => exact nomatch hpan
  | some e => exact nomatch hpan

omit [CipherTrait σ] in
/-- A panic that is not one of the id tables: those are an overflow of the length and an index
out of bounds. -/
theorem not_breaks_of_panic {f : ProtocolMethod X σ Unit} {pan : Panic}
    (hrun : f.run p = .error (.panic pan) p') (ho : pan ≠ .overflow)
    (hi : pan ≠ .index_out_of_bounds) : ¬ BreaksTable f p := by
  rintro ⟨pan', q, hpan', hpan⟩
  rw [hrun] at hpan
  injection hpan with hpan _
  injection hpan with hpan
  rcases hpan' with rfl | rfl
  · exact ho hpan
  · exact hi hpan

theorem handshake_panic_ne {pan : Panic} (h : Protocol.HandshakePanic pan) :
    pan ≠ .overflow ∧ pan ≠ .index_out_of_bounds := by
  rcases h with rfl | rfl
  · exact ⟨(fun h => nomatch h), (fun h => nomatch h)⟩
  · exact ⟨(fun h => nomatch h), (fun h => nomatch h)⟩

theorem on_command_tables (hm : p.channels.Wf) (c : Command) :
    ¬ BreaksTable (Protocol.on_command c) p := by
  rcases Protocol.on_command_spec hm c with ⟨result, q, -, hrun⟩ | ⟨pan, q, hpan, hrun⟩
  · exact not_breaks_of_outcome hrun
  · rcases hpan with ⟨rfl, -⟩ | ⟨hpan, -⟩
    · exact not_breaks_of_panic hrun (fun h => nomatch h) (fun h => nomatch h)
    · exact not_breaks_of_panic hrun (handshake_panic_ne hpan).1 (handshake_panic_ne hpan).2

omit [CipherTrait σ] in
theorem on_outbound_batch_tables (hm : p.channels.Wf) (batch : List (ChannelMessage X)) :
    ¬ BreaksTable (Protocol.on_outbound_batch batch) p := by
  obtain ⟨kept, q, -, hrun⟩ := Protocol.on_outbound_batch_spec hm batch
  rintro ⟨pan, q', -, hpan⟩
  rw [hrun] at hpan
  exact nomatch hpan

theorem on_inbound_message_tables (hm : p.channels.Wf) (msg : ChannelMessage X) :
    BreaksTable (Protocol.on_inbound_message msg) p ↔ OpensLastId msg := by
  constructor
  · intro hbreaks
    by_contra hlast
    rcases Protocol.on_inbound_message_spec hm msg with
      ⟨result, q, -, hrun⟩ | ⟨pan, q, ⟨o, hmsg, hlen, hpan⟩, hrun⟩
    · exact not_breaks_of_outcome hrun hbreaks
    · rcases hpan with ⟨rfl, -⟩ | ⟨rfl, hmax⟩ | ⟨hpan, -⟩
      · exact not_breaks_of_panic hrun (fun h => nomatch h) (fun h => nomatch h) hbreaks
      · exact hlast ⟨o, hmsg, hlen, hmax⟩
      · exact not_breaks_of_panic hrun (handshake_panic_ne hpan).1 (handshake_panic_ne hpan).2
          hbreaks
  · obtain ⟨ch, message⟩ := msg
    rintro ⟨o, rfl, hlen, hmax⟩
    obtain ⟨d, hk⟩ : ∃ d : DiscoveryKey, o.discovery_key.val = d.val := ⟨⟨_, hlen⟩, rfl⟩
    have hparse := Protocol.parse_key_of_eq hk
    -- no table is long enough to have a slot for the last id
    rcases ChannelMap.attach_remote_spec (m := p.channels) d ch.toNat o.capability with
      ⟨v, -, hlt, -⟩ | ⟨hlt, -, -⟩ | ⟨-, hattach⟩
    · exact absurd (hmax ▸ hlt) (Nat.not_lt_of_le v.len_le)
    · exact absurd (hmax ▸ hlt) (Nat.lt_irrefl _)
    · refine ⟨.overflow, p, Or.inl rfl, ?_⟩
      simp [Protocol.on_inbound_message, Protocol.on_open, hparse, hattach]

/-- A frame of messages breaks the tables only through one of its messages. The messages before
it are handled, and leave a well-formed map. -/
theorem on_inbound_channel_messages_tables (hm : p.channels.Wf) (msgs : List (ChannelMessage X))
    (hmsgs : ∀ msg ∈ msgs, ¬ OpensLastId msg) :
    ¬ BreaksTable (Protocol.on_inbound_channel_messages msgs) p := by
  induction msgs generalizing p with
  | nil => rintro ⟨pan, q, -, hrun⟩; exact nomatch hrun
  | cons msg msgs ih =>
    rintro ⟨pan, q, hpan, hrun⟩
    rw [Protocol.on_inbound_channel_messages, EStateM.run_bind] at hrun
    have hmsg := fun hb => hmsgs msg List.mem_cons_self
      ((on_inbound_message_tables hm msg).mp hb)
    rcases Protocol.on_inbound_message_spec hm msg with
      ⟨result, p₁, heff, hrun₁⟩ | ⟨pan₁, p₁, -, hrun₁⟩
    · rw [hrun₁] at hrun
      cases result with
      | none =>
        exact ih (heff.wf hm) (fun m hm => hmsgs m (List.mem_cons_of_mem _ hm)) ⟨pan, q, hpan, hrun⟩
      | some e => exact nomatch hrun
    · rw [hrun₁] at hrun
      exact hmsg ⟨pan, q, hpan, by rw [hrun₁]; exact hrun⟩

/-- In every reachable session the id tables are broken exactly by an `Open` with the
last channel id; commands, outbound messages and all other messages from the
remote, in any number, find every id they use in bounds. -/
theorem id_tables_break_iff {stream : σ} {tr : List (Transition (Session X σ) (Action X))}
    {s : Session X σ} (run : Run Step (Session.new stream) tr s) :
    (∀ msg, BreaksTable (Protocol.on_inbound_message msg) s.protocol ↔ OpensLastId msg) ∧
    (∀ msgs, (∀ msg ∈ msgs, ¬ OpensLastId msg) →
      ¬ BreaksTable (Protocol.on_inbound_channel_messages msgs) s.protocol) ∧
    (∀ c, ¬ BreaksTable (Protocol.on_command c) s.protocol) ∧
    ∀ batch, ¬ BreaksTable (Protocol.on_outbound_batch batch) s.protocol := by
  have hm := (reachable_inv run).wf
  exact ⟨on_inbound_message_tables hm, on_inbound_channel_messages_tables hm,
    on_command_tables hm, on_outbound_batch_tables hm⟩

/-- An `Open` on id 1 in a session that has just opened a key itself. -/
theorem id_tables_break_iff_first_id :
    ∃ tr s, Run Step (Session.new (Memory.connected false) : Session deps Memory) tr s ∧
      tr.length = 2 ∧ ¬ BreaksTable (Protocol.on_inbound_message
        (open_message 1 (discovery_key_of deps (sample 1)) none)) s.protocol := by
  have run₀ : Run Step (Session.new (Memory.connected false) : Session deps Memory) [] _ := .nil
  have run₁ := run₀.snoc (.queue_command (.Open (sample 1)) (by decide))
  have run₂ := run₁.snoc (.protocol (.command rfl (Or.inl ⟨(), rfl⟩)))
  refine ⟨_, _, run₂, rfl, fun hb => ?_⟩
  obtain ⟨o, -, -, hmax⟩ := ((id_tables_break_iff run₂).1 _).mp hb
  exact absurd hmax (by decide)

/-- The last id in the first message of a session. -/
theorem id_tables_broken_by_last_id :
    BreaksTable (Protocol.on_inbound_message (open_message USIZE_MAX (sample 1) none))
      (Session.new (Memory.connected false) : Session deps Memory).protocol :=
  ⟨.overflow, _, Or.inl rfl, rfl⟩

end hypercore_protocol.session
