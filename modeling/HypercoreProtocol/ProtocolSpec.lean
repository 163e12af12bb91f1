/-
What the handlers of the protocol do.

For every handler there is a relation that lists its outcomes, each with what it
had to find and the state it leaves: `CommandEffect` for commands,
`InboundEffect` for messages from the remote, `OutboundEffect` for messages on
their way out. The `_spec` theorems say that on a well-formed channel map a call
ends in one of these outcomes, or in one of a few panics. Everything that is
later said about runs of a protocol is read off these relations.
-/
import HypercoreProtocol.Protocol
import HypercoreProtocol.ChannelMapRuns

set_option autoImplicit false

namespace hypercore_protocol.protocol

open Rust Wire schema message channels mqueue crypto

variable {X : Deps} {σ : Type}

/-- `verify_remote_capability` on a capability that is not the expected one, and also on one that
is missing. -/
def invalid_capability : IoError := ⟨.PermissionDenied, "Invalid remote channel capability"⟩

/-- `parse_key` on a key of another length, which is how an `Open` of the remote can fail before
it has any effect. -/
def invalid_key : IoError := ⟨.InvalidInput, "Key must be 32 bytes long"⟩

/-- The `Open` that tells the remote about local id `i` for `d`. Everything else in it is
fixed. -/
def open_message (i : ℕ) (d : DiscoveryKey) (capability : Option (Vec UInt8)) :
    ChannelMessage X :=
  ⟨UInt64.ofNat i, .Open ⟨UInt64.ofNat i, PROTOCOL_NAME, to_vec d, capability⟩⟩

/-- How a call ended that did not panic: `none` for `Ok`, `some e` for `Err`. The state is the
one that the call left in either case. -/
def outcome (result : Option IoError) (p : Protocol X σ) :
    EStateM.Result (Fault IoError) (Protocol X σ) Unit :=
  match result with
  | none => .ok () p
  | some e => .error (.err e) p

namespace Protocol

@[simp] theorem run_on_channels {α : Type} (f : MapMethod X α) (p : Protocol X σ) :
    (on_channels f).run p =
      match f.run p.channels with
      | .ok a m => .ok a { p with channels := m }
      | .error e m => .error e { p with channels := m } := by
  rw [on_channels, Method.run_on]
  cases f.run p.channels <;> rfl

@[simp] theorem run_on_io {α : Type} (f : IoMethod X σ α) (p : Protocol X σ) :
    (on_io f).run p =
      match f.run p.io with
      | .ok a io => .ok a { p with io := io }
      | .error e io => .error e { p with io := io } := by
  rw [on_io, Method.run_on]
  cases f.run p.io <;> rfl

@[simp] theorem run_queue_event (e : Event) (p : Protocol X σ) :
    (queue_event e).run p = .ok () { p with queued_events := p.queued_events ++ [e] } := rfl

variable [CipherTrait σ] {p p' : Protocol X σ}

/-! ## Capabilities -/

/-- The remote's key and the handshake hash are there, and the hash can key a digest. Then
capabilities can be computed, and checking one does not panic. -/
def Ready (p : Protocol X σ) : Prop :=
  ∃ remote_pubkey hash, p.io.remote_public_key = some remote_pubkey ∧
    p.io.handshake_hash = some hash ∧ hash.val.length ≤ 64

/-- The capability is the one the remote has to show for `key`: that of the other role, over the
hash of the handshake. -/
def Verified (p : Protocol X σ) (key : Key) (capability : Option (Vec UInt8)) : Prop :=
  ∃ hash c, p.io.handshake_hash = some hash ∧
    (replicate_capability X (!p.is_initiator) key.val hash.val : Res IoError _) = .ok c ∧
    capability = some c

/-- The capability is the one we show for `key`: none before the handshake. An `Open` that is
sent too early carries no proof for this reason. -/
def Offers (p : Protocol X σ) (key : Key) (capability : Option (Vec UInt8)) : Prop :=
  match p.handshake_result with
  | none => capability = none
  | some handshake => ∃ c,
    (replicate_capability X p.is_initiator key.val handshake.handshake_hash.val : Res IoError _)
      = .ok c ∧ capability = some c

/-- What the result of the handshake is made of, when there is one: a remote key, a hash, and our
role. -/
theorem handshake_result_eq_some {hs : HandshakeResult} (h : p.handshake_result = some hs) :
    ∃ remote_pubkey hash, p.io.remote_public_key = some remote_pubkey ∧
      p.io.handshake_hash = some hash ∧ hs.is_initiator = p.is_initiator ∧
      hs.handshake_hash = hash := by
  simp only [handshake_result, Option.bind_eq_bind, Option.bind_eq_some_iff] at h
  obtain ⟨k, hk, hash, hhash, h⟩ := h
  rw [← Option.some.inj h]
  exact ⟨k, hash, hk, hhash, rfl, rfl⟩

/-- A protocol that is ready has one, and its hash fits into the key of the keyed hash. -/
theorem handshake_result_of_ready (h : p.Ready) :
    ∃ hs, p.handshake_result = some hs ∧ hs.handshake_hash.val.length ≤ 64 := by
  obtain ⟨k, hash, hk, hhash, hlen⟩ := h
  refine ⟨.from_pre_encrypted p.is_initiator p.io.local_public_key k hash, ?_, hlen⟩
  simp only [handshake_result, hk, hhash]
  rfl

/-- A capability can be computed exactly when the hash can key a digest. Otherwise the `unwrap`
of the source panics; there is no error in between. -/
theorem replicate_capability_cases {ε : Type} (is_initiator : Bool) (key hash : Bytes) :
    (∃ c, (replicate_capability X is_initiator key hash : Res ε _) = .ok c) ∨
      (64 < hash.length ∧
        (replicate_capability X is_initiator key hash : Res ε _) = .error (.panic .unwrap)) := by
  by_cases h : hash.length ≤ 64
  · left
    simp only [replicate_capability, blake2b_mac, h, if_true, ok_bind]
    exact ⟨_, rfl⟩
  · right
    refine ⟨Nat.lt_of_not_le h, ?_⟩
    simp only [replicate_capability, blake2b_mac, h, if_false, error_bind]

/-- A hash that does not fit is what makes a protocol not ready, besides a missing one. -/
theorem not_ready_of_long {hs : HandshakeResult} (h : p.handshake_result = some hs)
    (hlong : 64 < hs.handshake_hash.val.length) : ¬ p.Ready := by
  intro hready
  obtain ⟨hs', h', hlen⟩ := handshake_result_of_ready hready
  rw [h] at h'
  rw [Option.some.inj h'] at hlong
  omega

/-- The capability of a key is computed, or the call panics because the protocol is not ready. -/
theorem capability_spec (p : Protocol X σ) (key : Key) :
    (∃ cap, p.Offers key cap ∧ (capability key.val).run p = .ok cap p) ∨
      (¬ p.Ready ∧ (capability key.val).run p = .error (.panic .unwrap) p) := by
  cases hhs : p.handshake_result with
  | none =>
    left
    refine ⟨none, by rw [Offers, hhs], ?_⟩
    simp only [capability, EStateM.run_bind, EStateM.run_get, hhs, EStateM.run_pure]
  | some hs =>
    obtain ⟨k, hash, hk, hhash, hinit, heq⟩ := handshake_result_eq_some hhs
    -- the digest panics on a hash that is too long for a key
    rcases replicate_capability_cases (X := X) p.is_initiator key.val hs.handshake_hash.val with
      ⟨c, hc⟩ | ⟨hlong, hc⟩
    · left
      refine ⟨some c, by rw [Offers, hhs]; exact ⟨c, hc, rfl⟩, ?_⟩
      have hcap : (hs.capability X key.val : Res IoError _) = .ok (some c) := by
        rw [HandshakeResult.capability, hinit, hc]
        rfl
      simp only [capability, EStateM.run_bind, EStateM.run_get, hhs, hcap, Method.run_lift_ok]
    · right
      have hcap : (hs.capability X key.val : Res IoError _) = .error (.panic .unwrap) := by
        rw [HandshakeResult.capability, hinit, hc]
        rfl
      refine ⟨not_ready_of_long hhs hlong, ?_⟩
      simp only [capability, EStateM.run_bind, EStateM.run_get, hhs, hcap, Method.run_lift_error]

/-- The panics of a handshake that is not there or has an unusable hash: the `expect` of
`accept_channel`, and the `unwrap` behind the digest. -/
def HandshakePanic (pan : Panic) : Prop :=
  pan = .unwrap ∨ pan = .expect "TODO channel can only be accepted after first message"

/-- If a capability could be computed, then the protocol was ready. This turns a computation that
succeeded into the condition for it. -/
theorem ready_of_computed {key : Array32} {hash : Vec UInt8} {is_initiator : Bool} {k : Bytes}
    {c : Vec UInt8} (hkey : p.io.remote_public_key = some key)
    (hhash : p.io.handshake_hash = some hash)
    (hc : (replicate_capability X is_initiator k hash.val : Res IoError _) = .ok c) :
    p.Ready := by
  refine ⟨key, hash, hkey, hhash, ?_⟩
  by_contra hlong
  rw [replicate_capability, blake2b_mac, if_neg hlong] at hc
  cases hc

/-- **The check of a capability** has three ends: it is the right one, it is refused, or nothing
could be computed to compare it with and the call panics. -/
theorem verify_remote_capability_spec (p : Protocol X σ) (cap : Option (Vec UInt8)) (key : Key) :
    (p.Verified key cap ∧ (verify_remote_capability cap key.val).run p = .ok () p) ∨
      (p.Ready ∧ ¬ p.Verified key cap ∧
        (verify_remote_capability cap key.val).run p = .error (.err invalid_capability) p) ∨
      (¬ p.Ready ∧ ∃ pan, HandshakePanic pan ∧
        (verify_remote_capability cap key.val).run p = .error (.panic pan) p) := by
  cases hhs : p.handshake_result with
  | none =>
    right; right
    refine ⟨fun hready => ?_, _, Or.inr rfl, ?_⟩
    · obtain ⟨hs, h, -⟩ := handshake_result_of_ready hready
      rw [hhs] at h
      exact nomatch h
    · simp only [verify_remote_capability, EStateM.run_bind, EStateM.run_get, hhs,
        EStateM.run_throw]
  | some hs =>
    obtain ⟨k, hash, hk, hhash, hinit, heq⟩ := handshake_result_eq_some hhs
    -- with a handshake the method only calls that of its result
    have hrun : (verify_remote_capability cap key.val).run p =
        (Method.lift (hs.verify_remote_capability X cap key.val)
          : ProtocolMethod X σ Unit).run p := by
      simp only [verify_remote_capability, EStateM.run_bind, EStateM.run_get, hhs]
    rw [hrun, HandshakeResult.verify_remote_capability_eq, hinit, heq]
    rcases replicate_capability_cases (X := X) (!p.is_initiator) key.val hash.val with
      ⟨c, hc⟩ | ⟨hlong, hc⟩
    · rw [hc]
      by_cases hcap : cap = some c
      · left
        exact ⟨⟨hash, c, hhash, hc, hcap⟩, by simp only [hcap, if_true, Method.run_lift_ok]⟩
      · right; left
        refine ⟨ready_of_computed hk hhash hc, ?_,
          by simp only [hcap, if_false, Method.run_lift_error]; rfl⟩
        -- there is one hash and so one right capability, and it was not this one
        rintro ⟨hash', c', hhash', hc', hcap'⟩
        rw [hhash] at hhash'
        rw [← Option.some.inj hhash', hc] at hc'
        exact hcap (by rw [hcap', Except.ok.inj hc'])
    · right; right
      rw [hc]
      exact ⟨not_ready_of_long hhs (by rw [heq]; exact hlong), .unwrap, Or.inl rfl, rfl⟩

/-- Accepting a connected entry: verified and opened, refused without a trace, or a
panic of the handshake. -/
theorem accept_channel_spec {d : DiscoveryKey} {h : ChannelHandle} {i : ℕ} {ls : LocalState}
    {rs : RemoteState} (hs : p.channels.local_id.slot i = some d)
    (hd : p.channels.channels d = some h) (hl : h.local_state = some ls)
    (hr : h.remote_state = some rs) :
    (p.Verified ls.key rs.remote_capability ∧ (accept_channel i).run p =
      .ok () { p with
        channels := p.channels.accepted d h
        queued_events := p.queued_events ++
          [.Channel (ChannelMap.opened h ls p.channels.shared.inboxes.next)] }) ∨
    (p.Ready ∧ ¬ p.Verified ls.key rs.remote_capability ∧
      (accept_channel i).run p = .error (.err invalid_capability) p) ∨
    (¬ p.Ready ∧ ∃ pan, HandshakePanic pan ∧
      (accept_channel i).run p = .error (.panic pan) p) := by
  have hprep := ChannelMap.prepare_to_verify_of_some hs hd hl hr
  have haccept := ChannelMap.accept_of_some hs hd hl hr
  rcases verify_remote_capability_spec p rs.remote_capability ls.key with
    ⟨hv, hrun⟩ | ⟨hready, hv, hrun⟩ | ⟨hready, pan, hpan, hrun⟩
  · left
    refine ⟨hv, ?_⟩
    simp only [accept_channel, EStateM.run_bind, run_on_channels, hprep, hrun, haccept,
      run_queue_event]
  · right; left
    refine ⟨hready, hv, ?_⟩
    simp only [accept_channel, EStateM.run_bind, run_on_channels, hprep, hrun]
  · right; right
    refine ⟨hready, pan, hpan, ?_⟩
    simp only [accept_channel, EStateM.run_bind, run_on_channels, hprep, hrun]

/-! ## Attaching

What the two handlers that attach find in the map afterwards. `entry` is the handle the map
had for the key, or a new one; attaching one side leaves the other side of it alone. -/

/-- `attach_local` on a well-formed map: the entry, its new id and its slot, or a panic because
the table is full. -/
theorem attach_local_effect {m : ChannelMap X} (hm : m.Wf) (key : Key) :
    (∃ i h m', (ChannelMap.attach_local key).run m = .ok h m' ∧
      MapEffect m (.attach_local key) m' ∧ m'.channels (discovery_key_of X key) = some h ∧
      h.local_state = some ⟨key, i⟩ ∧ m'.local_id.slot i = some (discovery_key_of X key) ∧
      h.remote_state = (m.entry (discovery_key_of X key)).remote_state) ∨
    (¬ m.HasRoom ∧ (ChannelMap.attach_local key).run m = .error (.panic .capacity_overflow) m) := by
  rcases ChannelMap.attach_local_spec hm.local_pos key with
    ⟨i, v, hattach, hi, hlen, hfree, hslot, hroom, hmax⟩ | ⟨hroom, hattach⟩
  · refine Or.inl ⟨i, _, _, hattach, .attached_local rfl hi hlen hfree hslot hroom hmax,
      Function.update_self _ _ _, rfl, ?_, rfl⟩
    rw [hslot, if_pos rfl]
  · exact Or.inr ⟨hroom, hattach⟩

/-- `attach_remote`, with the id that the remote has chosen. It panics if the table does not fit
into memory, and for the largest id there is. -/
theorem attach_remote_effect {m : ChannelMap X} (d : DiscoveryKey) (r : ℕ)
    (cap : Option (Vec UInt8)) :
    (∃ h m', (ChannelMap.attach_remote d r cap).run m = .ok h m' ∧
      MapEffect m (.attach_remote d r cap) m' ∧ m'.channels d = some h ∧
      h.remote_state = some ⟨r, cap⟩ ∧ h.local_state = (m.entry d).local_state) ∨
    (¬ m.TakesRemote r ∧
      (ChannelMap.attach_remote d r cap).run m = .error (.panic .capacity_overflow) m) ∨
    (USIZE_MAX ≤ r ∧ (ChannelMap.attach_remote d r cap).run m = .error (.panic .overflow) m) := by
  rcases ChannelMap.attach_remote_spec (m := m) d r cap with
    ⟨v, hattach, hr, hle, hslot, htakes, hgrow⟩ | ⟨-, hcap, hattach⟩ | ⟨hr, hattach⟩
  · exact Or.inl ⟨_, _, hattach, .attached_remote hr hle hslot htakes hgrow,
      Function.update_self _ _ _, rfl, rfl⟩
  · exact Or.inr (Or.inl ⟨hcap, hattach⟩)
  · exact Or.inr (Or.inr ⟨hr, hattach⟩)

/-! ## Commands -/

/-- **The outcomes of a command**, one constructor for each way in which its handler can end,
with the state it leaves. What is proved about commands is proved by cases on this, and not by
running the handler. -/
inductive CommandEffect (p : Protocol X σ) : Command → Option IoError → Protocol X σ → Prop where
  /-- Attached locally only; the remote is told. -/
  | opened {key : Key} {m : ChannelMap X} {h : ChannelHandle} {i : ℕ}
      {capability : Option (Vec UInt8)} (hmap : MapEffect p.channels (.attach_local key) m)
      (hd : m.channels (discovery_key_of X key) = some h) (hl : h.local_state = some ⟨key, i⟩)
      (hr : h.remote_state = none) (hcap : p.Offers key capability) :
      CommandEffect p (.Open key) none
        { p with
          channels := m
          io := { p.io with write_queue := p.io.write_queue ++
            [open_message i (discovery_key_of X key) capability] } }
  /-- The remote had opened with another capability. The local attachment stays. -/
  | refused {key : Key} {m : ChannelMap X} {h : ChannelHandle} {i : ℕ} {rs : RemoteState}
      (hmap : MapEffect p.channels (.attach_local key) m)
      (hd : m.channels (discovery_key_of X key) = some h) (hl : h.local_state = some ⟨key, i⟩)
      (hr : h.remote_state = some rs) (hv : ¬ p.Verified key rs.remote_capability)
      (hready : p.Ready) : CommandEffect p (.Open key) (some invalid_capability)
        { p with channels := m }
  /-- The remote had opened: the channel is established, and the remote is told. -/
  | accepted {key : Key} {m : ChannelMap X} {h : ChannelHandle} {i : ℕ} {rs : RemoteState}
      {capability : Option (Vec UInt8)} (hmap : MapEffect p.channels (.attach_local key) m)
      (hd : m.channels (discovery_key_of X key) = some h) (hl : h.local_state = some ⟨key, i⟩)
      (hr : h.remote_state = some rs) (hv : p.Verified key rs.remote_capability)
      (hcap : p.Offers key capability) :
      CommandEffect p (.Open key) none
        { p with
          channels := m.accepted (discovery_key_of X key) h
          queued_events := p.queued_events ++
            [.Channel (ChannelMap.opened h ⟨key, i⟩ m.shared.inboxes.next)]
          io := { p.io with write_queue := p.io.write_queue ++
            [open_message i (discovery_key_of X key) capability] } }
  | close_absent {d : DiscoveryKey} (hd : p.channels.channels d = none) :
      CommandEffect p (.Close d) none p
  | closed {d : DiscoveryKey} {h : ChannelHandle} {m : ChannelMap X}
      (hd : p.channels.channels d = some h) (hmap : MapEffect p.channels (.remove d) m) :
      CommandEffect p (.Close d) none
        { p with channels := m, queued_events := p.queued_events ++ [.Close d] }
  | signalled {name : Str} {data : Vec UInt8} :
      CommandEffect p (.SignalLocal name data) none
        { p with queued_events := p.queued_events ++ [.LocalSignal name data] }

/-- The panics of a command, and when they happen: no id is left, or the key cannot be verified
since the handshake is not over. -/
def CommandPanic (p : Protocol X σ) (pan : Panic) : Prop :=
  (pan = .capacity_overflow ∧ ¬ p.channels.HasRoom) ∨ (HandshakePanic pan ∧ ¬ p.Ready)

/-- Removing an entry of a well-formed map succeeds: the ids of its entries are within the
tables. -/
theorem remove_spec {m : ChannelMap X} (hm : m.Wf) {d : DiscoveryKey} {h : ChannelHandle}
    (hd : m.channels d = some h) :
    ∃ m', (ChannelMap.remove d).run m = .ok () m' ∧ MapEffect m (.remove d) m' := by
  obtain ⟨vl, vr, hrun, hlenl, hlenr, hslotl, hslotr⟩ := ChannelMap.remove_of_some hd
    (fun i hi => hm.local_lt hd hi) (fun r hr => (hm.fits hd).remote_lt hr)
  exact ⟨_, hrun, .removed hd hlenl hlenr hslotl hslotr⟩

/-- `Command::Open` does one of the things in `CommandEffect`, or it panics for a cause in
`CommandPanic`. The handler is run once, here, along its own case distinctions. -/
theorem command_open_spec (hm : p.channels.Wf) (key : Key) :
    (∃ result p', CommandEffect p (.Open key) result p' ∧
      (command_open key).run p = outcome result p') ∨
    ∃ pan p', CommandPanic p pan ∧ (command_open key).run p = .error (.panic pan) p' := by
  rcases attach_local_effect hm key with ⟨i, h, m, hattach, hmap, hd, hl, hs, -⟩ | ⟨hroom, hattach⟩
  swap
  · right
    refine ⟨.capacity_overflow, p, Or.inl ⟨rfl, hroom⟩, ?_⟩
    simp only [command_open, EStateM.run_bind, run_on_channels, hattach]
  have hlid : h.local_id = some i := by rw [ChannelHandle.local_id, hl]; rfl
  have hkeyed : h.discovery_key = discovery_key_of X key := ((hmap.wf hm).fits hd).keyed
  -- the capability is computed in a state that differs in the channel map only
  have hcap : ∀ (q : Protocol X σ), q.io = p.io → q.is_initiator = p.is_initiator →
      (∃ cap, p.Offers key cap ∧ (capability key.val).run q = .ok cap q) ∨
        (¬ p.Ready ∧ (capability key.val).run q = .error (.panic .unwrap) q) := by
    intro q hio hinit
    have hoffers : ∀ cap, q.Offers key cap ↔ p.Offers key cap := by
      intro cap
      simp only [Offers, handshake_result, hio, hinit]
    have hready : q.Ready ↔ p.Ready := by simp only [Ready, hio]
    have := capability_spec q key
    simpa only [hoffers, hready] using this
  cases hr : h.remote_state with
  | none =>
    have hconn : h.is_connected = false := by simp [ChannelHandle.is_connected, hr]
    rcases hcap { p with channels := m } rfl rfl with ⟨cap, hoff, hrun⟩ | ⟨hready, hrun⟩
    · left
      refine ⟨none, _, .opened hmap hd hl hr hoff, ?_⟩
      simp [command_open, hattach, hlid, hconn, hrun, MessageIo.enqueue, hkeyed, open_message,
        outcome]
    · right
      refine ⟨.unwrap, { p with channels := m }, Or.inr ⟨Or.inl rfl, hready⟩, ?_⟩
      simp [command_open, hattach, hlid, hconn, hrun]
  | some rs =>
    have hconn : h.is_connected = true := by simp [ChannelHandle.is_connected, hl, hr]
    rcases accept_channel_spec (p := { p with channels := m }) hs hd hl hr with
      ⟨hv, haccept⟩ | ⟨hready, hv, haccept⟩ | ⟨hready, pan, hpan, haccept⟩
    · rcases hcap { p with
        channels := m.accepted (discovery_key_of X key) h
        queued_events := p.queued_events ++
          [.Channel (ChannelMap.opened h ⟨key, i⟩ m.shared.inboxes.next)] } rfl rfl with
        ⟨cap, hoff, hrun⟩ | ⟨hready, hrun⟩
      · left
        refine ⟨none, _, .accepted hmap hd hl hr hv hoff, ?_⟩
        simp [command_open, hattach, hlid, hconn, haccept, hrun, MessageIo.enqueue, hkeyed,
          open_message, outcome]
      · right
        refine ⟨.unwrap, { p with
          channels := m.accepted (discovery_key_of X key) h
          queued_events := p.queued_events ++
            [.Channel (ChannelMap.opened h ⟨key, i⟩ m.shared.inboxes.next)] },
          Or.inr ⟨Or.inl rfl, hready⟩, ?_⟩
        simp [command_open, hattach, hlid, hconn, haccept, hrun]
    · left
      refine ⟨some invalid_capability, _, .refused hmap hd hl hr hv hready, ?_⟩
      simp [command_open, hattach, hlid, hconn, haccept, outcome]
    · right
      refine ⟨pan, { p with channels := m }, Or.inr ⟨hpan, hready⟩, ?_⟩
      simp [command_open, hattach, hlid, hconn, haccept]

/-- A command ends in one of its outcomes or panics, from every state with a well-formed map. -/
theorem on_command_spec (hm : p.channels.Wf) (c : Command) :
    (∃ result p', CommandEffect p c result p' ∧ (on_command c).run p = outcome result p') ∨
    ∃ pan p', CommandPanic p pan ∧ (on_command c).run p = .error (.panic pan) p' := by
  cases c with
  | Open key => exact command_open_spec hm key
  | Close d =>
    left
    cases hd : p.channels.channels d with
    | none =>
      refine ⟨none, p, .close_absent hd, ?_⟩
      simp [on_command, command_close, ChannelMap.has_channel, hd, outcome]
    | some h =>
      obtain ⟨m, hrun, hmap⟩ := remove_spec hm hd
      refine ⟨none, _, .closed hd hmap, ?_⟩
      simp [on_command, command_close, ChannelMap.has_channel, hd, hrun, outcome]
  | SignalLocal name data => exact Or.inl ⟨none, _, .signalled, rfl⟩

/-! ## Inbound messages -/

/-- A discovery key that came over the wire is one if it has 32 bytes. The bytes are compared,
since the wire type has any length. -/
theorem parse_key_of_eq {v : Vec UInt8} {d : DiscoveryKey} (h : v.val = d.val) :
    parse_key v = .ok d := by
  rw [parse_key, try_into_array32, dif_pos (by rw [h]; exact d.property)]
  exact congrArg Except.ok (Subtype.ext h)

/-- **The outcomes of a message from the remote**, as `CommandEffect` has them for commands. The
remote may send anything, so there is no condition on the message. -/
inductive InboundEffect (p : Protocol X σ) :
    ChannelMessage X → Option IoError → Protocol X σ → Prop where
  | bad_key {ch : UInt64} {o : Open} (hk : o.discovery_key.val.length ≠ 32) :
      InboundEffect p ⟨ch, .Open o⟩ (some invalid_key) p
  /-- Attached remotely only; the application is asked. -/
  | announced {ch : UInt64} {o : Open} {d : DiscoveryKey} {m : ChannelMap X} {h : ChannelHandle}
      (hk : o.discovery_key.val = d.val)
      (hmap : MapEffect p.channels (.attach_remote d ch.toNat o.capability) m)
      (hd : m.channels d = some h) (hr : h.remote_state = some ⟨ch.toNat, o.capability⟩)
      (hl : h.local_state = none) :
      InboundEffect p ⟨ch, .Open o⟩ none
        { p with channels := m, queued_events := p.queued_events ++ [.DiscoveryKey d] }
  /-- Opened locally for another capability. The remote attachment stays. -/
  | refused {ch : UInt64} {o : Open} {d : DiscoveryKey} {m : ChannelMap X} {h : ChannelHandle}
      {ls : LocalState} (hk : o.discovery_key.val = d.val)
      (hmap : MapEffect p.channels (.attach_remote d ch.toNat o.capability) m)
      (hd : m.channels d = some h) (hr : h.remote_state = some ⟨ch.toNat, o.capability⟩)
      (hl : h.local_state = some ls) (hv : ¬ p.Verified ls.key o.capability)
      (hready : p.Ready) : InboundEffect p ⟨ch, .Open o⟩ (some invalid_capability)
        { p with channels := m }
  /-- Opened locally: the channel is established. -/
  | accepted {ch : UInt64} {o : Open} {d : DiscoveryKey} {m : ChannelMap X} {h : ChannelHandle}
      {ls : LocalState} (hk : o.discovery_key.val = d.val)
      (hmap : MapEffect p.channels (.attach_remote d ch.toNat o.capability) m)
      (hd : m.channels d = some h) (hr : h.remote_state = some ⟨ch.toNat, o.capability⟩)
      (hl : h.local_state = some ls) (hv : p.Verified ls.key o.capability) :
      InboundEffect p ⟨ch, .Open o⟩ none
        { p with
          channels := m.accepted d h
          queued_events := p.queued_events ++
            [.Channel (ChannelMap.opened h ls m.shared.inboxes.next)] }
  | close_unknown {ch : UInt64} {c : Close} (hr : p.channels.get_remote ch.toNat = none) :
      InboundEffect p ⟨ch, .Close c⟩ none p
  /-- The entry is removed; an open channel with a receiver is told. -/
  | closed {ch : UInt64} {c : Close} {h : ChannelHandle} {m₁ m : ChannelMap X}
      (hr : p.channels.get_remote ch.toNat = some h)
      (hd : p.channels.channels h.discovery_key = some h)
      (htold : (∃ n, h.inbound_tx = some n ∧ p.channels.receives n = true ∧
          m₁ = { p.channels with shared := p.channels.shared.push n (.Close c) }) ∨
        ((∀ n, h.inbound_tx = some n → p.channels.receives n = false) ∧ m₁ = p.channels))
      (hmap : MapEffect m₁ (.remove h.discovery_key) m) :
      InboundEffect p ⟨ch, .Close c⟩ none
        { p with channels := m, queued_events := p.queued_events ++ [.Close h.discovery_key] }
  | unknown {ch : UInt64} {msg : Message X} (hmsg : msg.is_open_or_close = false)
      (hr : p.channels.get_remote ch.toNat = none) : InboundEffect p ⟨ch, msg⟩ none p
  | not_open {ch : UInt64} {msg : Message X} {h : ChannelHandle}
      (hmsg : msg.is_open_or_close = false) (hr : p.channels.get_remote ch.toNat = some h)
      (hn : h.inbound_tx = none) :
      InboundEffect p ⟨ch, msg⟩ (some (error "Channel is not open")) p
  | no_receiver {ch : UInt64} {msg : Message X} {h : ChannelHandle} {n : ℕ}
      (hmsg : msg.is_open_or_close = false) (hr : p.channels.get_remote ch.toNat = some h)
      (hn : h.inbound_tx = some n) (ha : p.channels.receives n = false) :
      InboundEffect p ⟨ch, msg⟩
        (some (error "Sending to channel failed: sending into a closed channel")) p
  | delivered {ch : UInt64} {msg : Message X} {h : ChannelHandle} {n : ℕ}
      (hmsg : msg.is_open_or_close = false) (hr : p.channels.get_remote ch.toNat = some h)
      (hn : h.inbound_tx = some n) (ha : p.channels.receives n = true) :
      InboundEffect p ⟨ch, msg⟩ none
        { p with channels := { p.channels with shared := p.channels.shared.push n msg } }

/-- The panics of a message from the remote: all of them are about an `Open`, either its id or
the capability it carries. -/
def InboundPanic (p : Protocol X σ) (msg : ChannelMessage X) (pan : Panic) : Prop :=
  ∃ o, msg.message = .Open o ∧ o.discovery_key.val.length = 32 ∧
    ((pan = .capacity_overflow ∧ ¬ p.channels.TakesRemote msg.channel.toNat) ∨
      (pan = .overflow ∧ msg.channel.toNat = USIZE_MAX) ∨ (HandshakePanic pan ∧ ¬ p.Ready))

/-- An `Open` from the remote does one of the things in `InboundEffect`, or it panics for a cause
in `InboundPanic`. -/
theorem on_open_spec (hm : p.channels.Wf) (ch : UInt64) (o : Open) :
    (∃ result p', InboundEffect p ⟨ch, .Open o⟩ result p' ∧
      (on_open ch o).run p = outcome result p') ∨
    ∃ pan p', InboundPanic p ⟨ch, .Open o⟩ pan ∧ (on_open ch o).run p = .error (.panic pan) p' := by
  by_cases hlen : o.discovery_key.val.length = 32
  swap
  · left
    have hparse : parse_key o.discovery_key = .error (.err invalid_key) := by
      rw [parse_key, try_into_array32, dif_neg hlen]
      rfl
    refine ⟨some invalid_key, p, .bad_key hlen, ?_⟩
    simp [on_open, hparse, outcome]
  obtain ⟨d, hk⟩ : ∃ d : DiscoveryKey, o.discovery_key.val = d.val := ⟨⟨_, hlen⟩, rfl⟩
  have hparse := parse_key_of_eq hk
  rcases attach_remote_effect (m := p.channels) d ch.toNat o.capability with
    ⟨h, m, hattach, hmap, hd, hrs, -⟩ | ⟨hcap, hattach⟩ | ⟨hch, hattach⟩
  rotate_left
  · right
    refine ⟨.capacity_overflow, p, ⟨o, rfl, hlen, Or.inl ⟨rfl, hcap⟩⟩, ?_⟩
    simp [on_open, hparse, hattach]
  · right
    -- an id of 64 bits, so only the largest one overflows
    have hmax : ch.toNat = USIZE_MAX := Nat.le_antisymm (Nat.le_pred_of_lt ch.toNat_lt) hch
    refine ⟨.overflow, p, ⟨o, rfl, hlen, Or.inr (Or.inl ⟨rfl, hmax⟩)⟩, ?_⟩
    simp [on_open, hparse, hattach]
  cases hl : h.local_state with
  | none =>
    left
    have hconn : h.is_connected = false := by simp [ChannelHandle.is_connected, hl]
    refine ⟨none, _, .announced hk hmap hd hrs hl, ?_⟩
    simp [on_open, hparse, hattach, hconn, outcome]
  | some ls =>
    have hconn : h.is_connected = true := by simp [ChannelHandle.is_connected, hl, hrs]
    have hlid : h.local_id = some ls.local_id := by rw [ChannelHandle.local_id, hl]; rfl
    -- the entry is attached from both sides, so the channel is accepted at once
    have hs : m.local_id.slot ls.local_id = some d := (((hmap.wf hm).fits hd).local_slot hlid).2
    rcases accept_channel_spec (p := { p with channels := m }) hs hd hl hrs with
      ⟨hv, haccept⟩ | ⟨hready, hv, haccept⟩ | ⟨hready, pan, hpan, haccept⟩
    · left
      refine ⟨none, _, .accepted hk hmap hd hrs hl hv, ?_⟩
      simp [on_open, hparse, hattach, hconn, hlid, haccept, outcome]
    · left
      refine ⟨some invalid_capability, _, .refused hk hmap hd hrs hl hv hready, ?_⟩
      simp [on_open, hparse, hattach, hconn, hlid, haccept, outcome]
    · right
      refine ⟨pan, { p with channels := m },
        ⟨o, rfl, hlen, Or.inr (Or.inr ⟨hpan, hready⟩)⟩, ?_⟩
      simp [on_open, hparse, hattach, hconn, hlid, haccept]

/-- The entry found under a remote id is the one of its discovery key, so that closing it removes
the entry that was found. -/
theorem channels_of_get_remote {m : ChannelMap X} (hm : m.Wf) {r : ℕ} {h : ChannelHandle}
    (hr : m.get_remote r = some h) : m.channels h.discovery_key = some h := by
  rw [ChannelMap.get_remote, ChannelMap.resolve, Option.bind_eq_some_iff] at hr
  obtain ⟨d, -, hd⟩ := hr
  rw [(hm.fits hd).keyed, hd]

/-- What is found by a local id is an entry of the map, under its own key. -/
theorem channels_of_get_local {m : ChannelMap X} (hm : m.Wf) {i : ℕ} {h : ChannelHandle}
    (hl : m.get_local i = some h) :
    m.channels h.discovery_key = some h ∧ m.local_id.slot i = some h.discovery_key := by
  rw [ChannelMap.get_local, ChannelMap.resolve, Option.bind_eq_some_iff] at hl
  obtain ⟨d, hs, hd⟩ := hl
  rw [(hm.fits hd).keyed]
  exact ⟨hd, hs⟩

/-- A `Close` from the remote never fails: one for an id that is not known is ignored. -/
theorem on_close_spec (hm : p.channels.Wf) (ch : UInt64) (c : Close) :
    ∃ p', InboundEffect p ⟨ch, .Close c⟩ none p' ∧ (on_close ch c).run p = .ok () p' := by
  cases hr : p.channels.get_remote ch.toNat with
  | none =>
    refine ⟨p, .close_unknown hr, ?_⟩
    simp [on_close, hr]
  | some h =>
    have hd := channels_of_get_remote hm hr
    have hforward := ChannelMap.forward_tolerate_closed_run (m := p.channels) ch.toNat
      (Message.Close c)
    simp only [hr] at hforward
    -- what the entry sees before it is removed
    obtain ⟨m₁, hm₁, htold, hrun₁, hd₁⟩ : ∃ m₁ : ChannelMap X, m₁.Wf ∧
        ((∃ n, h.inbound_tx = some n ∧ p.channels.receives n = true ∧
            m₁ = { p.channels with shared := p.channels.shared.push n (.Close c) }) ∨
          ((∀ n, h.inbound_tx = some n → p.channels.receives n = false) ∧ m₁ = p.channels)) ∧
        (ChannelMap.forward_inbound_message_tolerate_closed ch.toNat (Message.Close c)).run
          p.channels = .ok () m₁ ∧ m₁.channels h.discovery_key = some h := by
      cases hn : h.inbound_tx with
      | none =>
        rw [hn] at hforward
        exact ⟨p.channels, hm, Or.inr ⟨(fun n hn' => nomatch hn'), rfl⟩, hforward, hd⟩
      | some n =>
        rw [hn] at hforward
        cases ha : p.channels.receives n with
        | true =>
          simp only [ha, if_true] at hforward
          exact ⟨_, hm.push n _, Or.inl ⟨n, rfl, ha, rfl⟩, hforward, hd⟩
        | false =>
          simp only [ha, Bool.false_eq_true, if_false] at hforward
          refine ⟨p.channels, hm, Or.inr ⟨fun n' hn' => ?_, rfl⟩, hforward, hd⟩
          rw [← Option.some.inj hn']
          exact ha
    obtain ⟨m, hrun, hmap⟩ := remove_spec hm₁ hd₁
    refine ⟨_, .closed hr hd htold hmap, ?_⟩
    simp [on_close, hr, hrun₁, hrun]

/-- Any other message is put into the queue of its channel, or refused, or dropped when its id
leads nowhere. It never panics. -/
theorem forward_spec (p : Protocol X σ) (ch : UInt64) {msg : Message X}
    (hmsg : msg.is_open_or_close = false) :
    ∃ result p', InboundEffect p ⟨ch, msg⟩ result p' ∧
      (on_channels (ChannelMap.forward_inbound_message ch.toNat msg) :
        ProtocolMethod X σ Unit).run p = outcome result p' := by
  have hforward := ChannelMap.forward_inbound_message_run (m := p.channels) ch.toNat msg
  cases hr : p.channels.get_remote ch.toNat with
  | none =>
    simp only [hr] at hforward
    exact ⟨none, p, .unknown hmsg hr, by simp [hforward, outcome]⟩
  | some h =>
    cases hn : h.inbound_tx with
    | none =>
      simp only [hr, hn] at hforward
      exact ⟨_, p, .not_open hmsg hr hn, by simp [hforward, outcome]⟩
    | some n =>
      cases ha : p.channels.receives n with
      | true =>
        simp only [hr, hn, ha, if_true] at hforward
        exact ⟨none, _, .delivered hmsg hr hn ha, by simp [hforward, outcome]⟩
      | false =>
        simp only [hr, hn, ha, Bool.false_eq_true, if_false] at hforward
        exact ⟨_, p, .no_receiver hmsg hr hn ha, by simp [hforward, outcome]⟩

/-- A message from the remote ends in one of its outcomes or panics, from every state with a
well-formed map. -/
theorem on_inbound_message_spec (hm : p.channels.Wf) (msg : ChannelMessage X) :
    (∃ result p', InboundEffect p msg result p' ∧
      (on_inbound_message msg).run p = outcome result p') ∨
    ∃ pan p', InboundPanic p msg pan ∧ (on_inbound_message msg).run p = .error (.panic pan) p' := by
  obtain ⟨ch, message⟩ := msg
  cases message with
  | Open o => exact on_open_spec hm ch o
  | Close c =>
    obtain ⟨p', heff, hrun⟩ := on_close_spec hm ch c
    exact Or.inl ⟨none, p', heff, hrun⟩
  | _ => exact Or.inl (forward_spec p ch rfl)

/-! ## Outbound messages -/

/-- The outcomes of a message taken from the outbound queue, with whether it is to
be written. -/
inductive OutboundEffect (p : Protocol X σ) :
    ChannelMessage X → Bool → Protocol X σ → Prop where
  | close_unknown {ch : UInt64} {c : Close} (hl : p.channels.get_local ch.toNat = none) :
      OutboundEffect p ⟨ch, .Close c⟩ true p
  | closed {ch : UInt64} {c : Close} {h : ChannelHandle} {m : ChannelMap X}
      (hl : p.channels.get_local ch.toNat = some h)
      (hd : p.channels.channels h.discovery_key = some h)
      (hmap : MapEffect p.channels (.remove h.discovery_key) m) :
      OutboundEffect p ⟨ch, .Close c⟩ true
        { p with channels := m, queued_events := p.queued_events ++ [.Close h.discovery_key] }
  | signalled {ch : UInt64} {name : Str} {data : Vec UInt8} :
      OutboundEffect p ⟨ch, .LocalSignal name data⟩ false
        { p with queued_events := p.queued_events ++ [.LocalSignal name data] }
  | passed {ch : UInt64} {msg : Message X} (hclose : ∀ c, msg ≠ .Close c)
      (hsignal : ∀ name data, msg ≠ .LocalSignal name data) : OutboundEffect p ⟨ch, msg⟩ true p

omit [CipherTrait σ] in
/-- An outbound message is kept to be written, or it was a local signal and becomes an event. -/
theorem on_outbound_message_spec (hm : p.channels.Wf) (msg : ChannelMessage X) :
    ∃ keep p', OutboundEffect p msg keep p' ∧ (on_outbound_message msg).run p = .ok keep p' := by
  obtain ⟨ch, message⟩ := msg
  cases message with
  | Close c =>
    cases hl : p.channels.get_local ch.toNat with
    | none =>
      exact ⟨true, p, .close_unknown hl, by simp [on_outbound_message, close_local, hl]⟩
    | some h =>
      have hd := (channels_of_get_local hm hl).1
      obtain ⟨m, hrun, hmap⟩ := remove_spec hm hd
      exact ⟨true, _, .closed hl hd hmap, by simp [on_outbound_message, close_local, hl, hrun]⟩
  | LocalSignal name data => exact ⟨false, _, .signalled, rfl⟩
  | _ =>
    exact ⟨true, p, .passed (fun _ h => nomatch h) (fun _ _ h => nomatch h), rfl⟩

/-- The outcomes of a batch, with what of it is to be written. Its messages are handled one after
the other, each in the state the last one has left. -/
inductive BatchEffect : Protocol X σ → List (ChannelMessage X) → List (ChannelMessage X) →
    Protocol X σ → Prop where
  | nil (p : Protocol X σ) : BatchEffect p [] [] p
  | cons {p p₁ p' : Protocol X σ} {msg : ChannelMessage X} {msgs kept : List (ChannelMessage X)}
      {keep : Bool} (head : OutboundEffect p msg keep p₁) (tail : BatchEffect p₁ msgs kept p') :
      BatchEffect p (msg :: msgs) (if keep then msg :: kept else kept) p'

/-! ## What the handlers leave alone -/

/-- **What no handler touches.** The handlers change the channel map, the events and the write
queue, and nothing else of the protocol. -/
structure SameFrame (p p' : Protocol X σ) : Prop where
  stream : p'.io.stream = p.io.stream
  is_initiator : p'.is_initiator = p.is_initiator
  command_rx : p'.command_rx = p.command_rx
  outbound_rx : p'.outbound_rx = p.outbound_rx
  handshake_emitted : p'.handshake_emitted = p.handshake_emitted

omit [CipherTrait σ] in
theorem SameFrame.refl (p : Protocol X σ) : SameFrame p p := ⟨rfl, rfl, rfl, rfl, rfl⟩

omit [CipherTrait σ] in
theorem SameFrame.trans {p₁ p₂ p₃ : Protocol X σ} (h₁ : SameFrame p₁ p₂) (h₂ : SameFrame p₂ p₃) :
    SameFrame p₁ p₃ :=
  ⟨h₂.stream.trans h₁.stream, h₂.is_initiator.trans h₁.is_initiator,
    h₂.command_rx.trans h₁.command_rx, h₂.outbound_rx.trans h₁.outbound_rx,
    h₂.handshake_emitted.trans h₁.handshake_emitted⟩

/-- Nothing but the map, the events and the write queue changes with a command. -/
theorem CommandEffect.frame {c : Command} {result : Option IoError}
    (h : CommandEffect p c result p') : SameFrame p p' := by
  cases h <;> exact ⟨rfl, rfl, rfl, rfl, rfl⟩

theorem InboundEffect.frame {msg : ChannelMessage X} {result : Option IoError}
    (h : InboundEffect p msg result p') : SameFrame p p' := by
  cases h <;> exact ⟨rfl, rfl, rfl, rfl, rfl⟩

omit [CipherTrait σ] in
theorem OutboundEffect.frame {msg : ChannelMessage X} {keep : Bool}
    (h : OutboundEffect p msg keep p') : SameFrame p p' := by
  cases h <;> exact ⟨rfl, rfl, rfl, rfl, rfl⟩

/-- An inbound message is answered by the application, not here: the message layer is left alone
altogether. -/
theorem InboundEffect.io {msg : ChannelMessage X} {result : Option IoError}
    (h : InboundEffect p msg result p') : p'.io = p.io := by
  cases h <;> rfl

omit [CipherTrait σ] in
/-- An outbound message leaves the write queue to its caller, which enqueues what was kept of the
whole batch. -/
theorem OutboundEffect.io {msg : ChannelMessage X} {keep : Bool}
    (h : OutboundEffect p msg keep p') : p'.io = p.io := by
  cases h <;> rfl

omit [CipherTrait σ] in
/-- The same for a batch, message by message. -/
theorem BatchEffect.frame {msgs kept : List (ChannelMessage X)}
    (h : BatchEffect p msgs kept p') : SameFrame p p' := by
  induction h with
  | nil p => exact .refl p
  | cons head _ ih => exact head.frame.trans ih

omit [CipherTrait σ] in
theorem BatchEffect.io {msgs kept : List (ChannelMessage X)} (h : BatchEffect p msgs kept p') :
    p'.io = p.io := by
  induction h with
  | nil p => rfl
  | cons head _ ih => exact ih.trans head.io

/-! ## Well-formedness is kept -/

/-- Every handler keeps the map well-formed. What it does to the map is a sequence of calls that
do. -/
theorem CommandEffect.wf {c : Command} {result : Option IoError}
    (h : CommandEffect p c result p') (hm : p.channels.Wf) : p'.channels.Wf := by
  cases h with
  | opened hmap => exact hmap.wf hm
  | refused hmap => exact hmap.wf hm
  | accepted hmap hd hl hr =>
    exact (hmap.wf hm).accepted hd (by rw [ChannelHandle.is_connected, hl, hr]; rfl)
  | close_absent => exact hm
  | closed hd hmap => exact hmap.wf hm
  | signalled => exact hm

theorem InboundEffect.wf {msg : ChannelMessage X} {result : Option IoError}
    (h : InboundEffect p msg result p') (hm : p.channels.Wf) : p'.channels.Wf := by
  cases h with
  | bad_key => exact hm
  | announced hk hmap => exact hmap.wf hm
  | refused hk hmap => exact hmap.wf hm
  | accepted hk hmap hd hr hl =>
    exact (hmap.wf hm).accepted hd (by rw [ChannelHandle.is_connected, hl, hr]; rfl)
  | close_unknown => exact hm
  | closed hr hd htold hmap =>
    rcases htold with ⟨n, -, -, rfl⟩ | ⟨-, rfl⟩
    · exact hmap.wf (hm.push n _)
    · exact hmap.wf hm
  | unknown => exact hm
  | not_open => exact hm
  | no_receiver => exact hm
  | delivered hmsg hr hn ha => exact hm.push _ _

omit [CipherTrait σ] in
theorem OutboundEffect.wf {msg : ChannelMessage X} {keep : Bool}
    (h : OutboundEffect p msg keep p') (hm : p.channels.Wf) : p'.channels.Wf := by
  cases h with
  | close_unknown => exact hm
  | closed hl hd hmap => exact hmap.wf hm
  | signalled => exact hm
  | passed => exact hm

omit [CipherTrait σ] in
theorem BatchEffect.wf {msgs kept : List (ChannelMessage X)} (h : BatchEffect p msgs kept p')
    (hm : p.channels.Wf) : p'.channels.Wf := by
  induction h with
  | nil p => exact hm
  | cons head _ ih => exact ih (head.wf hm)

/-! ## Batches -/

omit [CipherTrait σ] in
/-- A batch is dealt with message by message, and what is kept is in the order it was in. -/
theorem retain_outbound_spec (hm : p.channels.Wf) (msgs : List (ChannelMessage X)) :
    ∃ kept p', BatchEffect p msgs kept p' ∧ (retain_outbound msgs).run p = .ok kept p' := by
  induction msgs generalizing p with
  | nil => exact ⟨[], p, .nil p, rfl⟩
  | cons msg msgs ih =>
    obtain ⟨keep, p₁, hhead, hrun₁⟩ := on_outbound_message_spec hm msg
    obtain ⟨kept, p', htail, hrun⟩ := ih (hhead.wf hm)
    refine ⟨_, p', .cons hhead htail, ?_⟩
    simp only [retain_outbound, EStateM.run_bind, hrun₁, hrun, EStateM.run_pure]

omit [CipherTrait σ] in
/-- What was kept goes to the end of the write queue, in order, and this does not fail. -/
theorem enqueue_all_run (msgs : List (ChannelMessage X)) (p : Protocol X σ) :
    (enqueue_all msgs).run p =
      .ok () { p with io := { p.io with write_queue := p.io.write_queue ++ msgs } } := by
  induction msgs generalizing p with
  | nil => simp [enqueue_all]
  | cons msg msgs ih => simp [enqueue_all, MessageIo.enqueue, ih]

omit [CipherTrait σ] in
/-- A batch never fails: its messages are handled in order, and what is to be
written goes to the end of the write queue. -/
theorem on_outbound_batch_spec (hm : p.channels.Wf) (batch : List (ChannelMessage X)) :
    ∃ kept p', BatchEffect p batch kept p' ∧ (on_outbound_batch batch).run p =
      .ok () { p' with io := { p'.io with write_queue := p'.io.write_queue ++ kept } } := by
  cases batch with
  | nil => exact ⟨[], p, .nil p, by simp [on_outbound_batch]⟩
  | cons msg msgs =>
    obtain ⟨kept, p', heff, hrun⟩ := retain_outbound_spec hm (msg :: msgs)
    exact ⟨kept, p', heff, by simp [on_outbound_batch, hrun, enqueue_all_run]⟩

end Protocol

end hypercore_protocol.protocol
