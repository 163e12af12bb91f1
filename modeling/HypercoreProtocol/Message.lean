/-
`src/message.rs`: messages, channel messages and the framing of a batch.

A frame is one of four shapes, told apart by its first bytes: a batch, an
`Open`, a `Close`, or a plain message on a channel. The encoder is
`vec_encode`, the decoder is `decode_unframed_channel_messages` under the loop
of `vec_decode`. Both loops of the decoder run on fuel, one unit for every byte
they were given.
-/
import HypercoreProtocol.Schema

set_option autoImplicit false
-- the source has a field `message` in its module `message`
set_option linter.dupNamespace false

namespace hypercore_protocol.message

open Rust Wire schema

def OPEN_MESSAGE_PREFIX : Bytes := [0, 1]
def CLOSE_MESSAGE_PREFIX : Bytes := [0, 3]
def MULTI_MESSAGE_PREFIX : Bytes := [0, 0]
def CHANNEL_CHANGE_SEPERATOR : Bytes := [0]

/-- A protocol message, with one constructor for each variant of the source. `LocalSignal` never
goes over the wire. -/
inductive Message (X : Deps) where
  | Open (x : Open)
  | Close (x : Close)
  | Synchronize (x : Synchronize)
  | Request (x : Request X)
  | Cancel (x : Cancel)
  | Data (x : Data X)
  | NoData (x : NoData)
  | Want (x : Want)
  | Unwant (x : Unwant)
  | Bitfield (x : Bitfield)
  | Range (x : Range)
  | Extension (x : Extension)
  /-- never sent over the wire -/
  | LocalSignal (name : Str) (data : Vec UInt8)

namespace Message

variable {X : Deps}

/-- The name of the message, as the error texts and the logs of the source have it. -/
def name : Message X → String
  | .Open _ => "Open"
  | .Close _ => "Close"
  | .Synchronize _ => "Synchronize"
  | .Request _ => "Request"
  | .Cancel _ => "Cancel"
  | .Data _ => "Data"
  | .NoData _ => "NoData"
  | .Want _ => "Want"
  | .Unwant _ => "Unwant"
  | .Bitfield _ => "Bitfield"
  | .Range _ => "Range"
  | .Extension _ => "Extension"
  | .LocalSignal _ _ => "LocalSignal"

/-- The test `matches!(m, Message::Open(_) | Message::Close(_))`, by which frames are split:
these two travel alone, everything else may be put together. -/
def is_open_or_close : Message X → Bool
  | .Open _ => true
  | .Close _ => true
  | _ => false

/-- Wire type of this message. `Open` and `Close` are told by the prefix of their frame and have
none, and a local signal has none either: for them the source panics. -/
def typ (self : Message X) : Res EncodingError UInt64 :=
  match self with
  | .Synchronize _ => .ok 0
  | .Request _ => .ok 1
  | .Cancel _ => .ok 2
  | .Data _ => .ok 3
  | .NoData _ => .ok 4
  | .Want _ => .ok 5
  | .Unwant _ => .ok 6
  | .Bitfield _ => .ok 7
  | .Range _ => .ok 8
  | .Extension _ => .ok 9
  | value => .error (.panic (.unimplemented (value.name ++ " does not have a type")))

def encoded_size (self : Message X) : Res EncodingError ℕ := do
  let typ_size ← if self.is_open_or_close then pure 0
    else do X.u64.encoded_size (← self.typ)
  let msg_size ← match self with
    | .LocalSignal _ _ => pure 0
    | .Open x => (Open.codec X).encoded_size x
    | .Close x => (Close.codec X).encoded_size x
    | .Synchronize x => (Synchronize.codec X).encoded_size x
    | .Request x => (Request.codec X).encoded_size x
    | .Cancel x => (Cancel.codec X).encoded_size x
    | .Data x => (Data.codec X).encoded_size x
    | .NoData x => (NoData.codec X).encoded_size x
    | .Want x => (Want.codec X).encoded_size x
    | .Unwant x => (Unwant.codec X).encoded_size x
    | .Bitfield x => (Bitfield.codec X).encoded_size x
    | .Range x => (Range.codec X).encoded_size x
    | .Extension x => (Extension.codec X).encoded_size x
  return typ_size + msg_size

def encode (self : Message X) : Encoder EncodingError Unit := do
  if self.is_open_or_close then pure ()
  else do X.u64.encode (← Method.lift self.typ)
  match self with
  | .Open x => (Open.codec X).encode x
  | .Close x => (Close.codec X).encode x
  | .Synchronize x => (Synchronize.codec X).encode x
  | .Request x => (Request.codec X).encode x
  | .Cancel x => (Cancel.codec X).encode x
  | .Data x => (Data.codec X).encode x
  | .NoData x => (NoData.codec X).encode x
  | .Want x => (Want.codec X).encode x
  | .Unwant x => (Unwant.codec X).encode x
  | .Bitfield x => (Bitfield.codec X).encode x
  | .Range x => (Range.codec X).encode x
  | .Extension x => (Extension.codec X).encode x
  | .LocalSignal _ _ => throw (.panic (.unimplemented "do not encode LocalSignal"))

/-- One arm of `decode`: the macro `decode_message!`, which decodes the body and wraps it in its
constructor. -/
def decode_message {α : Type} (c : Codec EncodingError α) (mk : α → Message X) (rest : Bytes) :
    Res EncodingError (Message X × Bytes) := do
  let (x, rest) ← c.decode rest
  return (mk x, rest)

def decode (X : Deps) (buffer : Bytes) : Res EncodingError (Message X × Bytes) := do
  let (typ, rest) ← X.u64.decode buffer
  match typ.toNat with
  | 0 => decode_message (Synchronize.codec X) .Synchronize rest
  | 1 => decode_message (Request.codec X) .Request rest
  | 2 => decode_message (Cancel.codec X) .Cancel rest
  | 3 => decode_message (Data.codec X) .Data rest
  | 4 => decode_message (NoData.codec X) .NoData rest
  | 5 => decode_message (Want.codec X) .Want rest
  | 6 => decode_message (Unwant.codec X) .Unwant rest
  | 7 => decode_message (Bitfield.codec X) .Bitfield rest
  | 8 => decode_message (Range.codec X) .Range rest
  | 9 => decode_message (Extension.codec X) .Extension rest
  | _ => throw (.err ⟨.InvalidData, s!"Invalid message type to decode: {typ}"⟩)

def codec (X : Deps) : Codec EncodingError (Message X) := ⟨encoded_size, encode, decode X⟩

end Message

/-- A message on a channel. The number is the local id of whoever sends it, and the remote id for
whoever receives it. -/
structure ChannelMessage (X : Deps) where
  channel : UInt64
  message : Message X

namespace ChannelMessage

variable {X : Deps}

def encoded_size (self : ChannelMessage X) : Res EncodingError ℕ := do
  let channel_size ← if self.message.is_open_or_close then pure 0
    else X.u64.encoded_size self.channel
  return channel_size + (← self.message.encoded_size)

def encode (self : ChannelMessage X) : Encoder EncodingError Unit := do
  if self.message.is_open_or_close then pure ()
  else X.u64.encode self.channel
  self.message.encode

/-- Decodes what follows the prefix of an `Open` frame, and how much of it. The length is the
difference of the buffers, so that the prefix is not counted. -/
def decode_open_message (X : Deps) (buf : Bytes) : Res IoError (ChannelMessage X × ℕ) := do
  let og_len := buf.length
  if og_len ≤ 5 then
    throw (.err ⟨.UnexpectedEof, "received too short Open message"⟩)
  let (open_msg, buf) ← map_err X.into_io_error (Open.decode X buf)
  return (⟨open_msg.channel, .Open open_msg⟩, og_len - buf.length)

/-- Decodes what follows the prefix of a `Close` frame, and how much of it. The body is nothing
but the channel number, which the message repeats. -/
def decode_close_message (X : Deps) (buf : Bytes) : Res IoError (ChannelMessage X × ℕ) := do
  let og_len := buf.length
  if buf.isEmpty then
    throw (.err ⟨.UnexpectedEof, "received too short Close message"⟩)
  let (close, buf) ← map_err X.into_io_error ((Close.codec X).decode buf)
  return (⟨close.channel, .Close close⟩, og_len - buf.length)

def decode_from_channel_and_message (X : Deps) (buf : Bytes) :
    Res EncodingError (ChannelMessage X × Bytes) := do
  let (channel, buf) ← X.u64.decode buf
  let (message, buf) ← Message.decode X buf
  return (⟨channel, message⟩, buf)

/-- The codec of a channel message on its own. A frame of a single data message is encoded
by it. -/
def codec (X : Deps) : Codec EncodingError (ChannelMessage X) :=
  ⟨encoded_size, encode, decode_from_channel_and_message X⟩

/-- Decode a normal channel message from a buffer, the channel being known: its type and its
body. How long the message is said to be is not looked at here. -/
def decode_with_channel (X : Deps) (buf : Bytes) (channel : UInt64) :
    Res IoError (ChannelMessage X × Bytes) := do
  if buf.length ≤ 1 then
    throw (.err ⟨.UnexpectedEof, s!"received empty message [{buf}]"⟩)
  let (message, buf) ← map_err X.into_io_error (Message.decode X buf)
  return (⟨channel, message⟩, buf)

end ChannelMessage

variable {X : Deps}

/-- The loop over a batch. The third argument is what is left of the buffer, the
last one the messages decoded so far. -/
def decode_batch_loop (X : Deps) (og_len fuel : ℕ) (current_channel : UInt64) (buf : Bytes)
    (messages : List (ChannelMessage X)) : Res IoError (List (ChannelMessage X) × Bytes) :=
  if buf.isEmpty then .ok (messages, buf)
  else match fuel with
    | 0 => .error .out_of_fuel
    | fuel + 1 => do
      let (channel_message_length, buf) ← map_err X.into_io_error (X.decode_usize buf)
      let remaining := buf.length
      if channel_message_length > remaining then
        throw (.err ⟨.InvalidData, s!"received invalid message length: [{channel_message_length}]
\tbut we have [{remaining}] remaining bytes.
\tInitial buffer size [{og_len}]"⟩)
      let (channel_message, buf) ← ChannelMessage.decode_with_channel X buf current_channel
      let messages := messages ++ [channel_message]
      -- an extra 0x00 after a message means that the channel changed
      if buf.head? = some 0 then
        let (current_channel, buf) ← map_err X.into_io_error (X.u64.decode buf)
        decode_batch_loop X og_len fuel current_channel buf messages
      else
        decode_batch_loop X og_len fuel current_channel buf messages

/-- Decodes one frame from the front of `buf`, and says how long it was. A first byte `0x00`
marks a batch, an `Open` or a `Close`, which the second byte tells apart; otherwise the frame is
a single message with its channel in front. -/
def decode_unframed_channel_messages (X : Deps) (buf : Bytes) :
    Res IoError (List (ChannelMessage X) × ℕ) := do
  let og_len := buf.length
  if og_len ≥ 3 ∧ buf.head? = some 0 then
    let kind ← index buf 1
    if kind == 0 then
      let (_, buf) ← map_err X.into_io_error (X.take_array 2 buf)
      let (current_channel, buf) ← map_err X.into_io_error (X.u64.decode buf)
      let (messages, buf) ← decode_batch_loop X og_len buf.length current_channel buf []
      return (messages, og_len - buf.length)
    else if kind == 1 then
      let (channel_message, length) ← ChannelMessage.decode_open_message X (← slice_from buf 2)
      return ([channel_message], length + 2)
    else if kind == 3 then
      let (channel_message, length) ← ChannelMessage.decode_close_message X (← slice_from buf 2)
      return ([channel_message], length + 2)
    else
      throw (.err ⟨.InvalidData, "received invalid special message"⟩)
  else if buf.length ≥ 2 then
    let og_len := buf.length
    let (channel_message, buf) ←
      map_err X.into_io_error (ChannelMessage.decode_from_channel_and_message X buf)
    return ([channel_message], og_len - buf.length)
  else
    throw (.err ⟨.InvalidData, s!"received too short message, {buf}"⟩)

/-- The sizes of the messages of a batch, after its first channel number: for each its length,
that length itself, and a separator with the number when the channel changes. -/
def batch_encoded_size (current_channel : UInt64) :
    List (ChannelMessage X) → Res EncodingError ℕ
  | [] => .ok 0
  | message :: messages => do
    let change ← if message.channel ≠ current_channel then do
        let n ← X.u64.encoded_size message.channel
        pure (CHANNEL_CHANGE_SEPERATOR.length + n)
      else pure 0
    let message_length ← message.message.encoded_size
    let n ← X.u64.encoded_size (UInt64.ofNat message_length)
    let out ← batch_encoded_size message.channel messages
    return change + (message_length + n) + out

def vec_channel_messages_encoded_size (messages : List (ChannelMessage X)) :
    Res EncodingError ℕ :=
  match messages with
  | [] => .ok 0
  | [msg] => do
    let size ← msg.encoded_size
    if msg.message.is_open_or_close then return 2 + size
    else return size
  | msg :: msgs => do
    let n ← X.u64.encoded_size msg.channel
    let out ← batch_encoded_size msg.channel (msg :: msgs)
    return MULTI_MESSAGE_PREFIX.length + n + out

/-- The messages of a batch, after its first channel number. Where the channel changes, a
separator and the new number go in front; that is what the decoder above does not read back. -/
def encode_batch (current_channel : UInt64) :
    List (ChannelMessage X) → Encoder EncodingError Unit
  | [] => pure ()
  | msg :: msgs => do
    if msg.channel ≠ current_channel then do
      X.write_array CHANNEL_CHANGE_SEPERATOR
      X.u64.encode msg.channel
    else pure ()
    let msg_len ← Method.lift msg.message.encoded_size
    X.u64.encode (UInt64.ofNat msg_len)
    msg.message.encode
    encode_batch msg.channel msgs

def vec_encode (vec : List (ChannelMessage X)) : Encoder EncodingError Unit :=
  match vec with
  | [] => pure ()
  | [msg] => do
    match msg.message with
    | .Open _ => X.write_array OPEN_MESSAGE_PREFIX
    | .Close _ => X.write_array CLOSE_MESSAGE_PREFIX
    | _ => X.u64.encode msg.channel
    msg.message.encode
  | msg :: msgs => do
    X.write_array MULTI_MESSAGE_PREFIX
    X.u64.encode msg.channel
    encode_batch msg.channel (msg :: msgs)

/-- The loop over the frames of a buffer. What a frame has reported as its length is sliced off,
and that slice is where a wrong length would panic. -/
def vec_decode_loop (X : Deps) (fuel : ℕ) (rest : Bytes)
    (combined_messages : List (ChannelMessage X)) :
    Res EncodingError (List (ChannelMessage X) × Bytes) :=
  if rest.isEmpty then .ok (combined_messages, rest)
  else match fuel with
    | 0 => .error .out_of_fuel
    | fuel + 1 => do
      let (msgs, length) ← map_err (fun e : IoError => EncodingError.external e.message)
        (decode_unframed_channel_messages X rest)
      let rest ← slice_from rest length
      vec_decode_loop X fuel rest (combined_messages ++ msgs)

def vec_decode (X : Deps) (buffer : Bytes) :
    Res EncodingError (List (ChannelMessage X) × Bytes) :=
  vec_decode_loop X buffer.length buffer []

/-- `Vec<ChannelMessage>` as a wire type: what `VecEncodable` makes of it, with the size of its
buffer, how it is written and how it is read. -/
def vec_codec (X : Deps) : Codec EncodingError (List (ChannelMessage X)) :=
  ⟨vec_channel_messages_encoded_size, vec_encode, vec_decode X⟩

/-- `Vec<ChannelMessage>::to_encoded_bytes`, by which `poll_outbound` makes the bytes of a
frame. -/
def to_encoded_bytes (messages : List (ChannelMessage X)) : Res EncodingError Bytes :=
  X.to_encoded_bytes (vec_codec X) messages

end hypercore_protocol.message
