/-
`src/schema.rs`: the wire messages and their encodings.

Each message keeps the source's three functions. Where an impl is nothing but
`sum_encoded_size!`, `map_encode!` and `map_decode!` over its fields it is the
codec of the tuple of fields under the constructor (`Codec.pair`, `Codec.map`);
the messages with a flags byte, and `Open` with its trailing capability, are
written out.
-/
import HypercoreProtocol.Deps

set_option autoImplicit false

namespace hypercore_protocol.schema

open Rust Wire

/-! ## `Open` and `Close` -/

/-- Opens a channel. The number is the sender's id for it; the key itself is not sent, only its
discovery key and a proof that the sender knows it. -/
structure Open where
  channel : UInt64
  protocol : Str
  discovery_key : Vec UInt8
  capability : Option (Vec UInt8)
deriving DecidableEq

namespace Open

/-- The size announced for an `Open`. Where there is a capability it counts 33 bytes for it,
without looking at its length. -/
def encoded_size (X : Deps) (self : Open) : Res EncodingError ℕ := do
  let a ← X.u64.encoded_size self.channel
  let b ← X.string.encoded_size self.protocol
  let c ← X.vec_u8.encoded_size self.discovery_key
  let out := a + b + c
  if self.capability.isSome then
    -- one byte of flags, and a capability is taken to have 32 bytes
    return out + 1 + 32
  return out

/-- The fields of an `Open` one after the other; the flags byte in front of the capability is
skipped over and stays zero. -/
def encode (X : Deps) (self : Open) : Encoder EncodingError Unit := do
  X.u64.encode self.channel
  X.string.encode self.protocol
  X.vec_u8.encode self.discovery_key
  match self.capability with
  | some cap => do
    X.take_array_mut 1
    X.write_slice cap.val
  | none => pure ()

/-- The decoder of an `Open`. Nothing in the bytes says whether a capability was written, so it
looks at whether anything is left. -/
def decode (X : Deps) (buffer : Bytes) : Res EncodingError (Open × Bytes) := do
  let (channel, rest) ← X.u64.decode buffer
  let (protocol, rest) ← X.string.decode rest
  let (discovery_key, rest) ← X.vec_u8.decode rest
  -- an `Open` is alone in its frame, so what is left is the capability
  if !rest.isEmpty then
    let (_, rest) ← X.take_array 1 rest
    let (capability, rest) ← X.take_array 32 rest
    return (⟨channel, protocol, discovery_key, some (to_vec capability)⟩, rest)
  else
    return (⟨channel, protocol, discovery_key, none⟩, rest)

/-- `CompactEncoding for Open`, as a codec: the three functions above. -/
def codec (X : Deps) : Codec EncodingError Open := ⟨encoded_size X, encode X, decode X⟩

end Open

/-- Closes a channel, named by the id of whoever closes it. -/
structure Close where
  channel : UInt64
deriving DecidableEq

/-- `CompactEncoding for Close`, all three functions: the channel number and nothing else. -/
def Close.codec (X : Deps) : Codec EncodingError Close := X.u64.map .mk Close.channel

/-! ## Messages with a flags byte -/

/-- Type 0. Announces the fork and the lengths of both sides, and what the sender does and
can do. -/
structure Synchronize where
  fork : UInt64
  length : UInt64
  remote_length : UInt64
  downloading : Bool
  uploading : Bool
  can_upgrade : Bool
deriving DecidableEq

namespace Synchronize

/-- The size announced for a `Synchronize`: one byte of flags and three numbers. -/
def encoded_size (X : Deps) (self : Synchronize) : Res EncodingError ℕ := do
  let a ← X.u64.encoded_size self.fork
  let b ← X.u64.encoded_size self.length
  let c ← X.u64.encoded_size self.remote_length
  return 1 + (a + b + c)

/-- The flags byte, built up as in `encode`, with a bit for each of the booleans. -/
def flags (self : Synchronize) : UInt8 :=
  let flags : UInt8 := if self.can_upgrade then 1 else 0
  let flags := flags ||| (if self.uploading then 2 else 0)
  flags ||| (if self.downloading then 4 else 0)

def encode (X : Deps) (self : Synchronize) : Encoder EncodingError Unit := do
  X.write_array [self.flags]
  X.u64.encode self.fork
  X.u64.encode self.length
  X.u64.encode self.remote_length

/-- The booleans are the bits of the flags byte, in the order they were set. -/
def decode (X : Deps) (buffer : Bytes) : Res EncodingError (Synchronize × Bytes) := do
  let (head, rest) ← X.take_array 1 buffer
  let flags := head.val.headD 0
  let (fork, rest) ← X.u64.decode rest
  let (length, rest) ← X.u64.decode rest
  let (remote_length, rest) ← X.u64.decode rest
  let can_upgrade := flags &&& 1 != 0
  let uploading := flags &&& 2 != 0
  let downloading := flags &&& 4 != 0
  return (⟨fork, length, remote_length, downloading, uploading, can_upgrade⟩, rest)

def codec (X : Deps) : Codec EncodingError Synchronize := ⟨encoded_size X, encode X, decode X⟩

end Synchronize

/-- Type 1. Asks for parts of a hypercore, each of which may be missing. -/
structure Request (X : Deps) where
  id : UInt64
  fork : UInt64
  block : Option X.RequestBlock
  hash : Option X.RequestBlock
  seek : Option X.RequestSeek
  upgrade : Option X.RequestUpgrade
  manifest : Bool
  priority : UInt64

namespace Request

variable {X : Deps}

/-- The size announced for a `Request`: the parts that are there, and the priority if it is not
zero. -/
def encoded_size (self : Request X) : Res EncodingError ℕ := do
  let a ← X.u64.encoded_size self.id
  let b ← X.u64.encoded_size self.fork
  let out := 1 + (a + b)
  let out := out + (← X.request_block.option_size self.block)
  let out := out + (← X.request_block.option_size self.hash)
  let out := out + (← X.request_seek.option_size self.seek)
  let out := out + (← X.request_upgrade.option_size self.upgrade)
  if self.priority != 0 then
    return out + (← X.u64.encoded_size self.priority)
  return out

/-- The flags byte: a bit for each optional part, one for the manifest and one for the priority. -/
def flags (self : Request X) : UInt8 :=
  let flags : UInt8 := if self.block.isSome then 1 else 0
  let flags := flags ||| (if self.hash.isSome then 2 else 0)
  let flags := flags ||| (if self.seek.isSome then 4 else 0)
  let flags := flags ||| (if self.upgrade.isSome then 8 else 0)
  let flags := flags ||| (if self.manifest then 16 else 0)
  flags ||| (if self.priority != 0 then 32 else 0)

def encode (self : Request X) : Encoder EncodingError Unit := do
  X.write_array [self.flags]
  X.u64.encode self.id
  X.u64.encode self.fork
  X.request_block.encode_option self.block
  X.request_block.encode_option self.hash
  X.request_seek.encode_option self.seek
  X.request_upgrade.encode_option self.upgrade
  if self.priority != 0 then
    X.u64.encode self.priority
  else pure ()

/-- Each optional part is read if its bit is set, in the order in which the bits are numbered. -/
def decode (X : Deps) (buffer : Bytes) : Res EncodingError (Request X × Bytes) := do
  let (head, rest) ← X.take_array 1 buffer
  let flags := head.val.headD 0
  let (id, rest) ← X.u64.decode rest
  let (fork, rest) ← X.u64.decode rest
  let (block, rest) ← X.request_block.decode_option (flags &&& 1 != 0) rest
  let (hash, rest) ← X.request_block.decode_option (flags &&& 2 != 0) rest
  let (seek, rest) ← X.request_seek.decode_option (flags &&& 4 != 0) rest
  let (upgrade, rest) ← X.request_upgrade.decode_option (flags &&& 8 != 0) rest
  let manifest := flags &&& 16 != 0
  let (priority, rest) ← if flags &&& 32 != 0 then X.u64.decode rest else pure (0, rest)
  return (⟨id, fork, block, hash, seek, upgrade, manifest, priority⟩, rest)

def codec (X : Deps) : Codec EncodingError (Request X) := ⟨encoded_size, encode, decode X⟩

end Request

/-- Type 3. The answer to a request: the parts it has, with their proofs. -/
structure Data (X : Deps) where
  request : UInt64
  fork : UInt64
  block : Option X.DataBlock
  hash : Option X.DataHash
  seek : Option X.DataSeek
  upgrade : Option X.DataUpgrade

namespace Data

variable {X : Deps}

/-- The size announced for a `Data`: the flags, the two numbers, and each part that is there. -/
def encoded_size (self : Data X) : Res EncodingError ℕ := do
  let a ← X.u64.encoded_size self.request
  let b ← X.u64.encoded_size self.fork
  let out := 1 + (a + b)
  let out := out + (← X.data_block.option_size self.block)
  let out := out + (← X.data_hash.option_size self.hash)
  let out := out + (← X.data_seek.option_size self.seek)
  return out + (← X.data_upgrade.option_size self.upgrade)

/-- The flags byte: a bit for each of the four parts. -/
def flags (self : Data X) : UInt8 :=
  let flags : UInt8 := if self.block.isSome then 1 else 0
  let flags := flags ||| (if self.hash.isSome then 2 else 0)
  let flags := flags ||| (if self.seek.isSome then 4 else 0)
  flags ||| (if self.upgrade.isSome then 8 else 0)

def encode (self : Data X) : Encoder EncodingError Unit := do
  X.write_array [self.flags]
  X.u64.encode self.request
  X.u64.encode self.fork
  X.data_block.encode_option self.block
  X.data_hash.encode_option self.hash
  X.data_seek.encode_option self.seek
  X.data_upgrade.encode_option self.upgrade

/-- Each part is read if its bit is set. -/
def decode (X : Deps) (buffer : Bytes) : Res EncodingError (Data X × Bytes) := do
  let (head, rest) ← X.take_array 1 buffer
  let flags := head.val.headD 0
  let (request, rest) ← X.u64.decode rest
  let (fork, rest) ← X.u64.decode rest
  let (block, rest) ← X.data_block.decode_option (flags &&& 1 != 0) rest
  let (hash, rest) ← X.data_hash.decode_option (flags &&& 2 != 0) rest
  let (seek, rest) ← X.data_seek.decode_option (flags &&& 4 != 0) rest
  let (upgrade, rest) ← X.data_upgrade.decode_option (flags &&& 8 != 0) rest
  return (⟨request, fork, block, hash, seek, upgrade⟩, rest)

def codec (X : Deps) : Codec EncodingError (Data X) := ⟨encoded_size, encode, decode X⟩

end Data

/-- Type 8. Says which blocks the sender has, or has no longer. -/
structure Range where
  drop : Bool
  start : UInt64
  length : UInt64
deriving DecidableEq

namespace Range

/-- The size announced for a `Range`. A length of one is the common case and is not written. -/
def encoded_size (X : Deps) (self : Range) : Res EncodingError ℕ := do
  let out := 1 + (← X.u64.encoded_size self.start)
  if self.length != 1 then
    return out + (← X.u64.encoded_size self.length)
  return out

/-- The flags byte: whether it is a drop, and whether the length is one and thus left out. -/
def flags (self : Range) : UInt8 :=
  let flags : UInt8 := if self.drop then 1 else 0
  flags ||| (if self.length == 1 then 2 else 0)

def encode (X : Deps) (self : Range) : Encoder EncodingError Unit := do
  X.write_array [self.flags]
  X.u64.encode self.start
  if self.length != 1 then
    X.u64.encode self.length
  else pure ()

/-- A length that was not written is one. So a written length of one is read as well, though the
encoder never writes it. -/
def decode (X : Deps) (buffer : Bytes) : Res EncodingError (Range × Bytes) := do
  let (head, rest) ← X.take_array 1 buffer
  let flags := head.val.headD 0
  let (start, rest) ← X.u64.decode rest
  let drop := flags &&& 1 != 0
  let (length, rest) ← if flags &&& 2 != 0 then pure (1, rest) else X.u64.decode rest
  return (⟨drop, start, length⟩, rest)

def codec (X : Deps) : Codec EncodingError Range := ⟨encoded_size X, encode X, decode X⟩

end Range

/-! ## Messages that are their fields -/

/-- Type 2. Takes a request back. -/
structure Cancel where
  request : UInt64
deriving DecidableEq

/-- `CompactEncoding for Cancel`: the number of the request. -/
def Cancel.codec (X : Deps) : Codec EncodingError Cancel := X.u64.map .mk Cancel.request

/-- Type 4. Says that there will be no answer to a request. -/
structure NoData where
  request : UInt64
deriving DecidableEq

/-- `CompactEncoding for NoData`: the number of the request. -/
def NoData.codec (X : Deps) : Codec EncodingError NoData := X.u64.map .mk NoData.request

/-- Type 5. Asks to be told about a range of blocks. -/
structure Want where
  start : UInt64
  length : UInt64
deriving DecidableEq

/-- `CompactEncoding for Want`: the two numbers in the order of the fields. -/
def Want.codec (X : Deps) : Codec EncodingError Want :=
  (X.u64.pair X.u64).map (fun f => ⟨f.1, f.2⟩) fun m => (m.start, m.length)

/-- Type 6. Takes that back. -/
structure Unwant where
  start : UInt64
  length : UInt64
deriving DecidableEq

/-- `CompactEncoding for Unwant`, the same for its own type. -/
def Unwant.codec (X : Deps) : Codec EncodingError Unwant :=
  (X.u64.pair X.u64).map (fun f => ⟨f.1, f.2⟩) fun m => (m.start, m.length)

/-- Type 7. Says which blocks the sender has, as the bits of words. -/
structure Bitfield where
  start : UInt64
  bitfield : Vec UInt32
deriving DecidableEq

/-- `CompactEncoding for Bitfield`: where it starts, and the words. -/
def Bitfield.codec (X : Deps) : Codec EncodingError Bitfield :=
  (X.u64.pair X.vec_u32).map (fun f => ⟨f.1, f.2⟩) fun m => (m.start, m.bitfield)

/-- Type 9. A message of an extension, which the protocol passes on unread. -/
structure Extension where
  name : Str
  message : Vec UInt8
deriving DecidableEq

/-- `CompactEncoding for Extension`: the name and the message, each behind its length. -/
def Extension.codec (X : Deps) : Codec EncodingError Extension :=
  (X.string.pair X.vec_u8).map (fun f => ⟨f.1, f.2⟩) fun m => (m.name, m.message)

end hypercore_protocol.schema
