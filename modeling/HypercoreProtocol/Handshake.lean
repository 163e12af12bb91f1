/-
`src/util.rs`, `src/constants.rs` and `src/crypto/handshake.rs`: discovery keys
and replication capabilities.

Both are keyed BLAKE2b digests of the parameter `X`. The constructor of the
digest refuses keys of more than 64 bytes and the sources unwrap its answer, so
a longer key is a panic. A discovery key is only ever taken of a 32-byte key,
where `discovery_key_of` is its value; a capability is keyed with the handshake
hash of the connection, whose length is up to the cipher.
-/
import HypercoreProtocol.Schema

set_option autoImplicit false

namespace hypercore_protocol

open Rust Wire

/-- Seed for the discovery key hash, the bytes of `hypercore`. The digest of it under the key is
the discovery key. -/
def DISCOVERY_NS_BUF : Bytes := [104, 121, 112, 101, 114, 99, 111, 114, 101]

/-- Protocol name, which every `Open` carries. Nothing looks at the one that the remote sends. -/
def PROTOCOL_NAME : Str := ⟨"hypercore/alpha", by decide⟩

variable {ε : Type} {X : Deps}

/-- A keyed digest: `Blake2bMac::<U32>::new_with_salt_and_personal(key, &[], &[])`, unwrapped,
over `data`. A key of more than 64 bytes is refused there, and the `unwrap` panics. -/
def blake2b_mac (X : Deps) (key data : Bytes) : Res ε Array32 :=
  if key.length ≤ 64 then .ok (X.blake2b_mac key data) else .error (.panic .unwrap)

/-- Calculate the discovery key of a key. It panics for a key that is too long for the digest. -/
def discovery_key (X : Deps) (key : Bytes) : Res ε DiscoveryKey :=
  blake2b_mac X key DISCOVERY_NS_BUF

/-- The discovery key of a key of the right length. Such a key is short enough for the digest, so
that this is a function and not a method. -/
def discovery_key_of (X : Deps) (key : Key) : DiscoveryKey :=
  X.blake2b_mac key.val DISCOVERY_NS_BUF

@[simp] theorem discovery_key_key (key : Key) :
    (discovery_key X key.val : Res ε DiscoveryKey) = .ok (discovery_key_of X key) := by
  rw [discovery_key, blake2b_mac, if_pos (by rw [key.property]; decide)]
  rfl

namespace crypto

def REPLICATE_INITIATOR : Bytes :=
  [0x51, 0x81, 0x2A, 0x2A, 0x35, 0x9B, 0x50, 0x36, 0x95, 0x36, 0x77, 0x5D, 0xF8, 0x9E, 0x18, 0xE4,
   0x77, 0x40, 0xF3, 0xDB, 0x72, 0xAC, 0xA, 0xE7, 0xB, 0x29, 0x59, 0x4C, 0x19, 0x4D, 0xC3, 0x16]

def REPLICATE_RESPONDER : Bytes :=
  [0x4, 0x38, 0x49, 0x2D, 0x2, 0x97, 0xC, 0xC1, 0x35, 0x28, 0xAC, 0x2, 0x62, 0xBC, 0xA0, 0x7,
   0x4E, 0x9, 0x26, 0x26, 0x2, 0x56, 0x86, 0x5A, 0xCC, 0xC0, 0xBF, 0x15, 0xBD, 0x79, 0x12, 0x7D]

/-- Create a hash used to indicate replication capability: the digest of the role and the key,
keyed with the hash of the handshake. Both sides can compute it if they know the key. -/
def replicate_capability (X : Deps) (is_initiator : Bool) (key handshake_hash : Bytes) :
    Res ε (Vec UInt8) := do
  let seed := if is_initiator then REPLICATE_INITIATOR else REPLICATE_RESPONDER
  let hash ← blake2b_mac X handshake_hash (seed ++ key)
  return to_vec hash

theorem replicate_capability_length {is_initiator : Bool} {key handshake_hash : Bytes}
    {c : Vec UInt8}
    (h : (replicate_capability X is_initiator key handshake_hash : Res ε _) = .ok c) :
    c.val.length = 32 := by
  rw [replicate_capability, blake2b_mac] at h
  split at h
  · rw [← Except.ok.inj h]
    exact (X.blake2b_mac _ _).property
  · exact nomatch h

/-- Result of a Noise handshake, used for capability verification. The two public keys are kept
as the source does, though only the role and the hash are read. -/
structure HandshakeResult where
  is_initiator : Bool
  local_pubkey : Vec UInt8
  remote_pubkey : Vec UInt8
  handshake_hash : Vec UInt8

namespace HandshakeResult

def from_pre_encrypted (is_initiator : Bool) (local_pubkey remote_pubkey : Array32)
    (handshake_hash : Vec UInt8) : HandshakeResult :=
  ⟨is_initiator, to_vec local_pubkey, to_vec remote_pubkey, handshake_hash⟩

/-- Compute capability for opening a channel with the given key. The role is our own. -/
def capability (X : Deps) (self : HandshakeResult) (key : Bytes) : Res ε (Option (Vec UInt8)) := do
  return some (← replicate_capability X self.is_initiator key self.handshake_hash.val)

/-- Compute expected remote capability for the given key. The role is that of the other side, so
that a capability cannot be sent back to whom it came from. -/
def remote_capability (X : Deps) (self : HandshakeResult) (key : Bytes) :
    Res ε (Option (Vec UInt8)) := do
  return some (← replicate_capability X (!self.is_initiator) key self.handshake_hash.val)

/-- Verify a remote peer's capability for opening a channel. The expected one is always there, so
that a missing one is refused as invalid and the first arm is never taken. -/
def verify_remote_capability (X : Deps) (self : HandshakeResult)
    (capability : Option (Vec UInt8)) (key : Bytes) : Res IoError Unit := do
  let expected_capability ← self.remote_capability X key
  match capability, expected_capability with
  | none, none => throw (.err ⟨.PermissionDenied, "Missing capabilities for verification"⟩)
  | some c1, some c2 =>
    if c1 = c2 then return ()
    else throw (.err ⟨.PermissionDenied, "Invalid remote channel capability"⟩)
  | _, _ => throw (.err ⟨.PermissionDenied, "Invalid remote channel capability"⟩)

/-- What the verification answers: it panics with the digest, and otherwise accepts
exactly the capability of the other role. -/
theorem verify_remote_capability_eq (self : HandshakeResult) (capability : Option (Vec UInt8))
    (key : Bytes) :
    self.verify_remote_capability X capability key =
      match (replicate_capability X (!self.is_initiator) key self.handshake_hash.val :
          Res IoError (Vec UInt8)) with
      | .ok c =>
        if capability = some c then .ok ()
        else .error (.err ⟨.PermissionDenied, "Invalid remote channel capability"⟩)
      | .error e => .error e := by
  rw [verify_remote_capability, remote_capability]
  cases replicate_capability X (!self.is_initiator) key self.handshake_hash.val with
  | error e => rfl
  | ok c =>
    cases capability with
    | none => rfl
    | some c1 =>
      simp only [Option.some.injEq]
      rfl

end HandshakeResult

end crypto

end hypercore_protocol
