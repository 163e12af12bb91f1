/-
A connection in memory.

`CipherTrait` is implemented by another crate. This is an implementation of it for
runs that are evaluated: frames wait in two lists, the handshake is over once its
hash is there and no frame arrives before that, and the sink answers `poll_ready`
and `poll_flush` by a schedule, and is ready when the schedule is used up.
-/
import HypercoreProtocol.Mqueue
import HypercoreProtocol.CompactEncoding

set_option autoImplicit false

namespace hypercore_protocol.mqueue

open Rust Wire compact_encoding

/-- A connection in memory, for runs that are evaluated. What comes in and what goes out are
lists of frames; `schedule` says which of the next answers of the sink are ready, and when it
has run out the sink always is. -/
structure Memory where
  is_initiator : Bool
  handshake_hash : Option (Vec UInt8)
  incoming : List Bytes
  outgoing : List Bytes
  schedule : List Bool

namespace Memory

/-- The next answer of the sink, ready or pending, and the connection with the rest of its
schedule. -/
def answer (self : Memory) : Poll (Except IoError Unit) × Memory :=
  (if self.schedule.headD true then .ready (.ok ()) else .pending,
    { self with schedule := self.schedule.tail })

instance : CipherTrait Memory where
  is_initiator := is_initiator
  local_public_key self := sample (if self.is_initiator then 1 else 2)
  remote_public_key self :=
    self.handshake_hash.map fun _ => sample (if self.is_initiator then 2 else 1)
  handshake_hash := handshake_hash
  poll_next self :=
    match self.handshake_hash, self.incoming with
    | some _, frame :: incoming =>
      (.ready (some (.Message frame)), { self with incoming := incoming })
    | _, _ => (.pending, self)
  poll_ready := answer
  start_send self frame := (.ok (), { self with outgoing := self.outgoing ++ [frame] })
  poll_flush := answer

/-- A connection that is over its handshake, with nothing on the way. Both roles have the same
hash, as two ends of one handshake do. -/
def connected (is_initiator : Bool) : Memory :=
  ⟨is_initiator, some (to_vec (sample 0)), [], [], []⟩

/-- Reading gives the next frame, if the handshake is over and there is one, and otherwise it
changes nothing. What is known of connections is proved from these two cases. -/
theorem poll_next_cases (self : Memory) :
    (∃ hash frame incoming, self.handshake_hash = some hash ∧ self.incoming = frame :: incoming ∧
      CipherTrait.poll_next self =
        (.ready (some (.Message frame)), { self with incoming := incoming })) ∨
      CipherTrait.poll_next self = (.pending, self) := by
  obtain ⟨is_initiator, hash, incoming, outgoing, schedule⟩ := self
  cases hash with
  | none => exact Or.inr rfl
  | some hash =>
    cases incoming with
    | nil => exact Or.inr rfl
    | cons frame incoming => exact Or.inl ⟨hash, frame, incoming, rfl, rfl, rfl⟩

end Memory

end hypercore_protocol.mqueue
