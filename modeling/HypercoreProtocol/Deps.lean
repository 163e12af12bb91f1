/-
The crates this crate calls, as a parameter.

None of `compact_encoding`, `hypercore_schema` and `blake2` is part of the
repository, so what the sources use of them is a record of functions, `Deps`,
and what the proofs rely on is a separate statement about such a record:
`Deps.Lawful`, or the weaker `Deps.Sized` where only the encoders matter. The
model never looks inside: two lawful records give the same theorems.

The error types and the 32-byte arrays stand here as well, since every module
of the crate shares them.
-/
import HypercoreProtocol.Lib.Codec
import HypercoreProtocol.Lib.Vec

set_option autoImplicit false

namespace hypercore_protocol

open Rust Wire

/-- `compact_encoding::EncodingErrorKind`: what an encoder or a decoder can fail with. -/
inductive EncodingErrorKind where
  | OutOfBounds
  | Overflow
  | InvalidData
  | External
deriving DecidableEq

/-- `compact_encoding::EncodingError`: its kind and its text. Both are kept, since
`into_io_error` turns them into what the application sees. -/
structure EncodingError where
  kind : EncodingErrorKind
  message : String
deriving DecidableEq

/-- `EncodingError::external`. -/
def EncodingError.external (message : String) : EncodingError := ⟨.External, message⟩

/-- The kinds of `std::io::Error` that the crate builds, and those that the connections of this
development fail with. -/
inductive ErrorKind where
  | InvalidData
  | InvalidInput
  | UnexpectedEof
  | PermissionDenied
  | ConnectionAborted
  | BrokenPipe
  | Other
deriving DecidableEq

/-- `std::io::Error`, as its kind and its text, which is what an application can look at. -/
structure IoError where
  kind : ErrorKind
  message : String
deriving DecidableEq

/-- `[u8; N]`. The length is part of the type, so that no lemma about an array has to assume
it. -/
abbrev U8Array (n : ℕ) := { b : Bytes // b.length = n }

/-- `[u8; 32]`. -/
abbrev Array32 := U8Array 32

/-- `to_vec` on a 32-byte array. It needs no capacity check: thirty-two bytes fit into every
vector. -/
def to_vec (a : Array32) : Vec UInt8 := ⟨a.val, by rw [a.property]; decide⟩

/-- `try_into` from a byte vector to a 32-byte array, which fails for every other length. The
source uses it on keys that come from outside. -/
def try_into_array32 (v : Vec UInt8) : Option Array32 :=
  if h : v.val.length = 32 then some ⟨v.val, h⟩ else none

/-- A key of a hypercore. Whoever knows it may open a channel for it, and so it is never sent;
see `DiscoveryKey`. -/
abbrev Key := Array32

/-- The namespaced hash of a key, by which the two sides name a channel without giving the key
away. -/
abbrev DiscoveryKey := Array32

/-- **What the sources use of other crates.** The codecs, the helpers on buffers and the digest
are a parameter of the model, so that every result holds for all crates that do what the
hypotheses below say. The types that only other crates look into are abstract. -/
structure Deps where
  /-- The types of `hypercore_schema` that requests and data are made of. -/
  RequestBlock : Type
  RequestSeek : Type
  RequestUpgrade : Type
  DataBlock : Type
  DataHash : Type
  DataSeek : Type
  DataUpgrade : Type
  request_block : Codec EncodingError RequestBlock
  request_seek : Codec EncodingError RequestSeek
  request_upgrade : Codec EncodingError RequestUpgrade
  data_block : Codec EncodingError DataBlock
  data_hash : Codec EncodingError DataHash
  data_seek : Codec EncodingError DataSeek
  data_upgrade : Codec EncodingError DataUpgrade
  /-- The `CompactEncoding` impls of `compact_encoding` itself. -/
  u64 : Codec EncodingError UInt64
  string : Codec EncodingError Str
  vec_u8 : Codec EncodingError (Vec UInt8)
  vec_u32 : Codec EncodingError (Vec UInt32)
  decode_usize : Bytes → Res EncodingError (ℕ × Bytes)
  write_array : Bytes → Encoder EncodingError Unit
  write_slice : Bytes → Encoder EncodingError Unit
  take_array : ∀ n : ℕ, Bytes → Res EncodingError (U8Array n × Bytes)
  take_array_mut : ℕ → Encoder EncodingError Unit
  to_encoded_bytes : ∀ {α : Type}, Codec EncodingError α → α → Res EncodingError Bytes
  /-- The conversion behind `?` where a function returns `io::Result`. -/
  into_io_error : EncodingError → IoError
  /-- `Blake2bMac::<U32>` keyed with the first argument, over the second. -/
  blake2b_mac : Bytes → Bytes → Array32

/-- What the proofs rely on: the value codecs round-trip under any suffix, small
integers take one byte, and the buffer helpers do what their names say. -/
structure Deps.Lawful (X : Deps) : Prop where
  request_block : X.request_block.RoundTrips
  request_seek : X.request_seek.RoundTrips
  request_upgrade : X.request_upgrade.RoundTrips
  data_block : X.data_block.RoundTrips
  data_hash : X.data_hash.RoundTrips
  data_seek : X.data_seek.RoundTrips
  data_upgrade : X.data_upgrade.RoundTrips
  u64 : X.u64.RoundTrips
  u64_small : ∀ n : UInt64, n.toNat < 253 → X.u64.Carries n [n.toUInt8]
  string : X.string.RoundTrips
  vec_u8 : X.vec_u8.RoundTrips
  /-- A byte vector travels as its length followed by its bytes. -/
  vec_u8_suffix : ∀ v bs, X.vec_u8.Carries v bs → v.val <:+ bs
  vec_u32 : X.vec_u32.RoundTrips
  /-- A `usize` travels as the `u64` of the same value. -/
  decode_usize : ∀ n bs, X.u64.Carries n bs → Reads X.decode_usize bs n.toNat
  write_array : ∀ bs, Writes (X.write_array bs) bs
  write_slice : ∀ bs, Writes (X.write_slice bs) bs
  take_array : ∀ n bs (h : n ≤ bs.length),
    X.take_array n bs = .ok (⟨bs.take n, List.length_take_of_le h⟩, bs.drop n)
  take_array_mut : ∀ n, Writes (X.take_array_mut n) (List.replicate n 0)
  /-- The bytes of a value are those its encoder leaves in a zeroed buffer of the
  size it asked for, when that buffer can be allocated. -/
  to_encoded_bytes : ∀ {α : Type} (c : Codec EncodingError α) (x : α) (n : ℕ) (w r : Bytes),
    c.encoded_size x = .ok n → n ≤ ISIZE_MAX →
      (c.encode x).run ⟨[], List.replicate n 0⟩ = .ok () ⟨w, r⟩ →
        X.to_encoded_bytes c x = .ok (w ++ r)
  to_encoded_bytes_fits : ∀ {α : Type} (c : Codec EncodingError α) (x : α) (b : Bytes),
    X.to_encoded_bytes c x = .ok b → ∃ n, c.encoded_size x = .ok n ∧ n ≤ ISIZE_MAX

/-- What is assumed of the encoders alone: every value is written in as many bytes as
were announced for it, and the buffer helpers write what they are given. -/
structure Deps.Sized (X : Deps) : Prop where
  request_block : X.request_block.Sized
  request_seek : X.request_seek.Sized
  request_upgrade : X.request_upgrade.Sized
  data_block : X.data_block.Sized
  data_hash : X.data_hash.Sized
  data_seek : X.data_seek.Sized
  data_upgrade : X.data_upgrade.Sized
  u64 : X.u64.Sized
  string : X.string.Sized
  vec_u8 : X.vec_u8.Sized
  vec_u32 : X.vec_u32.Sized
  write_array : ∀ bs, Writes (X.write_array bs) bs
  write_slice : ∀ bs, Writes (X.write_slice bs) bs
  take_array_mut : ∀ n, Writes (X.take_array_mut n) (List.replicate n 0)

theorem Deps.Lawful.sized {X : Deps} (hX : X.Lawful) : X.Sized where
  request_block := hX.request_block.sized
  request_seek := hX.request_seek.sized
  request_upgrade := hX.request_upgrade.sized
  data_block := hX.data_block.sized
  data_hash := hX.data_hash.sized
  data_seek := hX.data_seek.sized
  data_upgrade := hX.data_upgrade.sized
  u64 := hX.u64.sized
  string := hX.string.sized
  vec_u8 := hX.vec_u8.sized
  vec_u32 := hX.vec_u32.sized
  write_array := hX.write_array
  write_slice := hX.write_slice
  take_array_mut := hX.take_array_mut

end hypercore_protocol
