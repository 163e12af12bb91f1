/-
When channels are established.

The statements here are about the past of a run: which command was handled,
which message arrived, and what has been removed since. The states of a protocol
do not record any of that, so the invariant `Provenance` ties what an entry of
the channel map holds to the transition that put it there.
-/
import HypercoreProtocol.SessionSpec
import HypercoreProtocol.Memory

set_option autoImplicit false

namespace hypercore_protocol.session

open Rust Wire Runs schema message channels mqueue protocol crypto compact_encoding

variable {X : Deps} {σ : Type} [CipherTrait σ] {s s' : Session X σ} {a : Action X}

/-- The transitions of a session, with the states before and after each step. -/
abbrev Happening (X : Deps) (σ : Type) := Transition (Session X σ) (Action X)

/-! ## What a transition did -/

/-- The command was taken from its queue and handled, whether or not with an error. -/
def Handles (c : Command) (t : Happening X σ) : Prop := t.act = .protocol (.command c)

/-- An `Open` for `d` arrived, with the id and the capability of `rs`. It was handled, but
perhaps refused. -/
def Opens (d : DiscoveryKey) (rs : RemoteState) (t : Happening X σ) : Prop :=
  ∃ ch o, t.act = .protocol (.inbound ⟨ch, .Open o⟩) ∧ o.discovery_key.val = d.val ∧
    rs = ⟨ch.toNat, o.capability⟩

/-- The entry of `d` was removed in this step: it was there before, and is not after it. -/
def Removes (d : DiscoveryKey) (t : Happening X σ) : Prop :=
  (t.pre.protocol.channels.channels d).isSome ∧ t.post.protocol.channels.channels d = none

/-- The event was queued in this step, behind those that were waiting. -/
def Queues (e : Event) (t : Happening X σ) : Prop :=
  ∃ es, t.post.protocol.queued_events = t.pre.protocol.queued_events ++ es ∧ e ∈ es

theorem inbound_open_inj {ch ch' : UInt64} {o o' : Open}
    (h : (Action.protocol (.inbound ⟨ch, .Open o⟩) : Action X)
      = .protocol (.inbound ⟨ch', .Open o'⟩)) : ch = ch' ∧ o = o' := by
  simpa using h

/-- A channel is queued only by a step that establishes it, as the events of the handlers are
known. -/
theorem Queues.establishes {c : Channel} (hq : Queues (.Channel c) (⟨s, a, s'⟩ : Happening X σ))
    (h : Step s a s') (hs : Inv s) : Establishes s.protocol s'.protocol c := by
  obtain ⟨es, hes, hc⟩ := hq
  rcases h.move_or_aside with ⟨move, -, hmove⟩ | ⟨-, hq⟩
  · rcases protocol_step_events hs.wf hmove with ⟨e, -, hpop⟩ | ⟨es', hes', hest⟩
    · -- a queue that has become shorter
      have hlen := congrArg List.length hes
      simp only [hpop, List.length_append, List.length_cons] at hlen
      omega
    · have heq : es' = es := List.append_cancel_left (hes'.symm.trans hes)
      exact hest c (heq ▸ hc)
  · have hnil : es = [] := List.append_right_eq_self.mp (hes.symm.trans hq.queued_events)
    exact absurd hc (hnil ▸ List.not_mem_nil)

/-- After an `Open` for `d` the entry of `d` has its id and its capability, also if it was
refused in the end. -/
theorem open_attached {p p' : Protocol X σ} {ch : UInt64} {o : Open} {d : DiscoveryKey}
    {result : Option IoError} (heff : Protocol.InboundEffect p ⟨ch, .Open o⟩ result p')
    (hk : o.discovery_key.val = d.val) :
    ∃ e, p'.channels.channels d = some e ∧ e.remote_state = some ⟨ch.toNat, o.capability⟩ := by
  have heq : ∀ {d' : DiscoveryKey}, o.discovery_key.val = d'.val → d = d' :=
    fun hk' => Subtype.ext (hk.symm.trans hk')
  cases heff with
  | bad_key hlen => exact absurd (hk ▸ d.property) hlen
  | announced hk' hmap hd hr => obtain rfl := heq hk'; exact ⟨_, hd, hr⟩
  | refused hk' hmap hd hr => obtain rfl := heq hk'; exact ⟨_, hd, hr⟩
  | accepted hk' hmap hd hr =>
    obtain rfl := heq hk'
    exact ⟨_, ChannelMap.update_some_iff.mpr (Or.inl ⟨rfl, rfl⟩), hr⟩
  | unknown hmsg => exact nomatch hmsg
  | not_open hmsg => exact nomatch hmsg
  | no_receiver hmsg => exact nomatch hmsg
  | delivered hmsg => exact nomatch hmsg

theorem Opens.attached {d : DiscoveryKey} {rs : RemoteState}
    (ho : Opens d rs (⟨s, a, s'⟩ : Happening X σ)) (h : Step s a s') (hs : Inv s) :
    ∃ e, s'.protocol.channels.channels d = some e ∧ e.remote_state = some rs := by
  obtain ⟨ch, o, ha, hk, rfl⟩ := ho
  rcases h.move_or_aside with ⟨move, hact, hmove⟩ | ⟨hno, -⟩
  · obtain rfl := Action.protocol.inj (ha.symm.trans hact)
    obtain ⟨result, heff⟩ := inbound_effect hs.wf hmove
    exact open_attached heff hk
  · exact absurd ha (hno _)

/-! ## Where the state of an entry comes from -/

/-- What an entry holds was put there by a command and by a message that nothing has
undone since. -/
structure Provenance (tr : List (Happening X σ)) (s : Session X σ) : Prop where
  local_state : ∀ {d h ls}, s.protocol.channels.channels d = some h → h.local_state = some ls →
    Since (Handles (.Open ls.key)) (Removes d) tr
  remote_state : ∀ {d h rs}, s.protocol.channels.channels d = some h →
    h.remote_state = some rs → Since (Opens d rs) (fun t => Removes d t ∨ ∃ rs, Opens d rs t) tr

theorem provenance_new (stream : σ) : Provenance [] (Session.new stream : Session X σ) where
  local_state hd := nomatch hd
  remote_state hd := nomatch hd

/-- The only call that attaches a key locally is the one of its command. So a local state comes
from a command. -/
theorem Move.calls_attach_local {m : ChannelMap X} {move : Move X} {key : Key}
    (h : move.calls m (.attach_local key)) : move = .command (.Open key) := by
  cases move with
  | command c =>
    cases c with
    | Open key' => rw [MapOp.attach_local.inj h]
    | Close d => exact nomatch h
    | SignalLocal => exact h.elim
  | inbound msg =>
    rcases h with ⟨o, d, -, -, hop⟩ | ⟨c, e, -, -, hop⟩
    · exact nomatch hop
    · exact nomatch hop
  | outbound batch => obtain ⟨d, hop⟩ := h; exact nomatch hop
  | _ => exact h.elim

/-- The only call that attaches `d` remotely is the one of an `Open` for it. So a remote state
comes from a message. -/
theorem Move.calls_attach_remote {m : ChannelMap X} {move : Move X} {d : DiscoveryKey} {r : ℕ}
    {cap : Option (Vec UInt8)} (h : move.calls m (.attach_remote d r cap)) :
    ∃ ch o, move = .inbound ⟨ch, .Open o⟩ ∧ o.discovery_key.val = d.val ∧ r = ch.toNat ∧
      cap = o.capability := by
  cases move with
  | command c =>
    cases c with
    | Open key => exact nomatch h
    | Close d => exact nomatch h
    | SignalLocal => exact h.elim
  | inbound msg =>
    obtain ⟨ch, message⟩ := msg
    rcases h with ⟨o, d', hmsg, hk, hop⟩ | ⟨c, e, -, -, hop⟩
    · obtain ⟨rfl, rfl, rfl⟩ := MapOp.attach_remote.inj hop
      exact ⟨ch, o, congrArg (fun message => Move.inbound ⟨ch, message⟩) hmsg, hk, rfl, rfl⟩
    · exact nomatch hop
  | outbound batch => obtain ⟨d, hop⟩ := h; exact nomatch hop
  | _ => exact h.elim

/-- Every step keeps the provenance: what it attaches is accounted for by the step itself, and
the rest by what came before. -/
theorem Provenance.snoc {tr : List (Happening X σ)} (hp : Provenance tr s) (hs : Inv s)
    (h : Step s a s') : Provenance (tr ++ [⟨s, a, s'⟩]) s' := by
  -- an entry that is there after the step was not removed by it
  have hkept : ∀ {d e}, s'.protocol.channels.channels d = some e →
      ¬ Removes d (⟨s, a, s'⟩ : Happening X σ) := by
    rintro d e hd ⟨-, hnone⟩
    exact nomatch hd.symm.trans hnone
  constructor
  · intro d e ls hd hl
    have hold : ∀ e ls, s.protocol.channels.channels d = some e → e.local_state = some ls →
        Since (Handles (.Open ls.key)) (Removes d) (tr ++ [⟨s, a, s'⟩]) :=
      fun e ls hd₀ hl => (hp.local_state hd₀ hl).later (hkept hd)
    rcases h.move_or_aside with ⟨move, rfl, hmove⟩ | ⟨-, hq⟩
    · refine (protocol_step_changes hs.wf hmove).local_state (fun key i hop => .here ?_) hs.wf hold
        e ls hd hl
      exact congrArg Action.protocol (Move.calls_attach_local hop)
    · exact hold e ls (by rwa [← hq.entries]) hl
  · intro d e rs hd hr
    by_cases hopen : ∃ rs, Opens d rs (⟨s, a, s'⟩ : Happening X σ)
    · -- the entry has the state this `Open` has given it
      obtain ⟨rs', ho⟩ := hopen
      obtain ⟨e', hd', hr'⟩ := ho.attached h hs
      obtain rfl := Option.some.inj (hd.symm.trans hd')
      obtain rfl := Option.some.inj (hr.symm.trans hr')
      exact .here ho
    · have hold : ∀ e rs, s.protocol.channels.channels d = some e → e.remote_state = some rs →
          Since (Opens d rs) (fun t => Removes d t ∨ ∃ rs, Opens d rs t) (tr ++ [⟨s, a, s'⟩]) :=
        fun e rs hd₀ hr => (hp.remote_state hd₀ hr).later fun hend => hend.elim (hkept hd) hopen
      rcases h.move_or_aside with ⟨move, rfl, hmove⟩ | ⟨-, hq⟩
      · refine (protocol_step_changes hs.wf hmove).remote_state (fun r cap hop => ?_) hs.wf hold
          e rs hd hr
        obtain ⟨ch, o, rfl, hk, rfl, rfl⟩ := Move.calls_attach_remote hop
        exact absurd ⟨_, ch, o, rfl, hk, rfl⟩ hopen
      · exact hold e rs (by rwa [← hq.entries]) hr

theorem reachable_provenance {stream : σ} {tr : List (Happening X σ)}
    (run : Run Step (Session.new stream) tr s) : Provenance tr s :=
  run.invariant (provenance_new stream)
    fun _ _ _ _ run hp h => hp.snoc (reachable_inv run) h

/-! ## A session in memory -/

/-- The capability for `key` of the side with this role, over the hash that the connections in
memory have. -/
def sample_capability (is_initiator : Bool) (key : Key) : Vec UInt8 :=
  to_vec (deps.blake2b_mac (sample 0).val
    ((if is_initiator then REPLICATE_INITIATOR else REPLICATE_RESPONDER) ++ key.val))

/-- The `Open` for `key` of a remote that has initiated the connection, with the capability that
is expected. -/
def remote_open (ch : UInt64) (key : Key) : ChannelMessage deps :=
  open_message ch.toNat (discovery_key_of deps key) (some (sample_capability true key))

/-- The channel of the first key that is established. -/
def first_channel : Channel := ⟨some 0, 0, sample 1, discovery_key_of deps (sample 1), 1, 0⟩

/-- The entry of that key: opened by us, then by the remote, then accepted. -/
def first_handle (remote_state : Option RemoteState) (inbound_tx : Option ℕ) : ChannelHandle :=
  ⟨first_channel.discovery_key, some ⟨sample 1, 1⟩, remote_state, inbound_tx, 0⟩

def first_remote : RemoteState := ⟨1, some (sample_capability true (sample 1))⟩

/-- A session that has established one channel and given it to the application. Most examples
start from here. -/
def established : Session deps Memory where
  protocol :=
    { io := ⟨Memory.connected false, [open_message 1 first_channel.discovery_key
        (some (sample_capability false (sample 1)))]⟩
      is_initiator := false
      channels :=
        { channels := Function.update (Function.update (Function.update (fun _ => none)
            first_channel.discovery_key (some (first_handle none none)))
            first_channel.discovery_key (some (first_handle (some first_remote) none)))
            first_channel.discovery_key (some (first_handle (some first_remote) (some 0)))
          local_id := ⟨[none, some first_channel.discovery_key], by decide⟩
          remote_id := ⟨[none, some first_channel.discovery_key], by decide⟩
          shared := ⟨⟨[false]⟩, ⟨[⟨[], true⟩]⟩⟩ }
      command_rx := []
      outbound_rx := []
      queued_events := []
      handshake_emitted := false }
  held := [first_channel]
  sending := []
  closing := []
  senders := []

/-- What happened before it: the key is asked for, the remote opens it, and the events are
returned. -/
def establishing : List (Action deps) :=
  [.queue_command (.Open (sample 1)), .protocol (.command (.Open (sample 1))),
    .protocol (.inbound (remote_open 1 (sample 1))), .protocol (.event (.Channel first_channel))]

theorem established_reachable :
    ∃ tr, Run Step (Session.new (Memory.connected false) : Session deps Memory) tr established ∧
      tr.map Transition.act = establishing := by
  have run₀ : Run Step (Session.new (Memory.connected false) : Session deps Memory) [] _ := .nil
  have run₁ := run₀.snoc (.queue_command (.Open (sample 1)) (by decide))
  have run₂ := run₁.snoc (.protocol (.command rfl (Or.inl ⟨(), rfl⟩)))
  have run₃ := run₂.snoc (a := .protocol (.inbound (remote_open 1 (sample 1))))
    (.protocol (.inbound (Or.inl ⟨(), rfl⟩)))
  have run₄ := run₃.snoc (.protocol (.event rfl))
  exact ⟨_, run₄, rfl⟩

/-! ## Established channels -/

/-- Whenever a channel is queued, its discovery key is the one of its key, the
application has asked for that key and the remote has shown the capability for
it, both since the entry was last removed, and the remote has not opened it
again since. -/
theorem channel_established {stream : σ} {tr : List (Happening X σ)} {t : Happening X σ}
    {c : Channel} (run : Run Step (Session.new stream) (tr ++ [t]) s)
    (hq : Queues (.Channel c) t) :
    (discovery_key X c.key.val : Res IoError DiscoveryKey) = .ok c.discovery_key ∧
    Since (Handles (.Open c.key)) (Removes c.discovery_key) (tr ++ [t]) ∧
    ∃ hash x r, t.pre.protocol.io.handshake_hash = some hash ∧
      (replicate_capability X (!t.pre.protocol.is_initiator) c.key.val hash.val :
        Res IoError (Vec UInt8)) = .ok x ∧
      Since (Opens c.discovery_key ⟨r, some x⟩)
        (fun t => Removes c.discovery_key t ∨ ∃ rs, Opens c.discovery_key rs t) (tr ++ [t]) := by
  have hp := reachable_provenance run
  obtain ⟨run₀, h, rfl⟩ := run.snoc_inv
  obtain ⟨m, d, e, ls, rs, hm, hd, hl, hr, hv, rfl, hpost⟩ :=
    hq.establishes h (reachable_inv run₀)
  have hkeyed : e.discovery_key = d := (hm.fits hd).keyed
  -- after the step the channel's entry has both states, and each has its provenance
  have hentry : t.post.protocol.channels.channels e.discovery_key
      = some { e with inbound_tx := some m.shared.inboxes.next } := by
    rw [hpost]
    exact ChannelMap.update_some_iff.mpr (Or.inl ⟨hkeyed, rfl⟩)
  refine ⟨?_, hp.local_state hentry hl, ?_⟩
  · have hkey : discovery_key_of X ls.key = e.discovery_key :=
      ((hm.fits hd).key_of hl).trans hkeyed.symm
    exact (discovery_key_key ls.key).trans (congrArg Except.ok hkey)
  · obtain ⟨hash, x, hhash, hx, hcap⟩ := hv
    refine ⟨hash, x, rs.remote_id, hhash, hx, ?_⟩
    rw [← hcap]
    exact hp.remote_state hentry hr

/-- The application asks for a key, and the remote opens it. -/
theorem channel_established_once :
    ∃ tr t s c, Run Step (Session.new (Memory.connected false) : Session deps Memory)
        (tr ++ [t]) s ∧ Queues (.Channel c) t ∧ c.key = sample 1 ∧
      Since (Handles (.Open c.key)) (Removes c.discovery_key) (tr ++ [t]) := by
  have run₀ : Run Step (Session.new (Memory.connected false) : Session deps Memory) [] _ := .nil
  have run₁ := run₀.snoc (.queue_command (.Open (sample 1)) (by decide))
  have run₂ := run₁.snoc (.protocol (.command rfl (Or.inl ⟨(), rfl⟩)))
  have run₃ := run₂.snoc (a := .protocol (.inbound (remote_open 1 (sample 1))))
    (.protocol (.inbound (Or.inl ⟨(), rfl⟩)))
  exact ⟨_, _, _, _, run₃, ⟨_, rfl, List.mem_singleton.mpr rfl⟩, rfl,
    (channel_established run₃ ⟨_, rfl, List.mem_singleton.mpr rfl⟩).2.1⟩

end hypercore_protocol.session
