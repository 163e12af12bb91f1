/-
`src/mqueue.rs`: the message layer over an encrypted connection.

The connection is a trait object of another crate, so its type is a parameter
`σ` with the operations of `CipherTrait`. Each operation may change the state of
the connection; what happens on the network in between is not part of it.

A Rust result `Poll<Result<T>>` is a method that returns a `Poll T` and throws
the error of `Ready(Err(_))`. The loop of `poll_outbound` takes at least one
message off the queue in every round, so its fuel is the length of the queue and
one round more. The loop of `poll_inbound` ends when the connection runs dry;
its fuel is an argument.
-/
import HypercoreProtocol.Message

set_option autoImplicit false

namespace hypercore_protocol.mqueue

open Rust Wire message

/-- `hypercore_handshake::CipherEvent`: what a connection gives when it is polled, which is a
frame, a part of the handshake or an error. -/
inductive CipherEvent where
  | HandshakePayload (payload : Bytes)
  | Message (msg : Bytes)
  | ErrStuff (e : IoError)

/-- **`hypercore_handshake::CipherTrait`**: what an encrypted connection can do, as a stream of
events and a sink of frames. Each operation gives the connection after it, so that a connection
is any type with these functions and nothing is assumed of its answers. -/
class CipherTrait (σ : Type) where
  is_initiator : σ → Bool
  local_public_key : σ → Array32
  remote_public_key : σ → Option Array32
  handshake_hash : σ → Option (Vec UInt8)
  poll_next : σ → Poll (Option CipherEvent) × σ
  poll_ready : σ → Poll (Except IoError Unit) × σ
  start_send : σ → Bytes → Except IoError Unit × σ
  poll_flush : σ → Poll (Except IoError Unit) × σ

/-- Message IO layer that encodes and decodes channel messages over a connection. What is to be
written waits in `write_queue` until the sink is ready for it. -/
structure MessageIo (X : Deps) (σ : Type) where
  stream : σ
  write_queue : List (ChannelMessage X)

variable {X : Deps} {σ α : Type}

/-- A method of the message layer: it changes the queue and the connection, and fails with an
`io::Error` or by a panic. -/
abbrev IoMethod (X : Deps) (σ α : Type) := Method IoError (MessageIo X σ) α

/-- The next frame off the front of the queue, behind the messages taken so far,
and what stays. An `Open` or a `Close` is never put together with anything. -/
def next_frame (messages : List (ChannelMessage X)) :
    List (ChannelMessage X) → List (ChannelMessage X) × List (ChannelMessage X)
  | [] => (messages, [])
  | front :: write_queue =>
    if front.message.is_open_or_close && !messages.isEmpty then (messages, front :: write_queue)
    else if front.message.is_open_or_close then (messages ++ [front], write_queue)
    else next_frame (messages ++ [front]) write_queue

namespace MessageIo

def new (stream : σ) : MessageIo X σ := ⟨stream, []⟩

/-- Enqueue an outgoing message. Nothing is written before the next `poll_outbound`. -/
def enqueue (msg : ChannelMessage X) : IoMethod X σ Unit :=
  modify fun self => { self with write_queue := self.write_queue ++ [msg] }

variable [CipherTrait σ]

def remote_public_key (self : MessageIo X σ) : Option Array32 :=
  CipherTrait.remote_public_key self.stream

def local_public_key (self : MessageIo X σ) : Array32 :=
  CipherTrait.local_public_key self.stream

def handshake_hash (self : MessageIo X σ) : Option (Vec UInt8) :=
  CipherTrait.handshake_hash self.stream

/-- Call an operation of the connection, and keep the connection it leaves behind. -/
def on_stream (op : σ → α × σ) : IoMethod X σ α := do
  let self ← get
  let (a, stream) := op self.stream
  set { self with stream := stream }
  return a

/-- The rounds of `poll_outbound`. Each one asks the sink whether it is ready, takes the next
frame from the queue, and sends and flushes it. A sink that is not ready, or that answers with an
error here, ends the loop, with `Ready` if a round has been through. -/
def poll_outbound_loop (pending : Bool) : ℕ → IoMethod X σ (Poll Unit)
  | 0 => throw .out_of_fuel
  | fuel + 1 => do
    match ← on_stream CipherTrait.poll_ready with
    | .ready (.ok ()) => do
      let self ← get
      if self.write_queue.isEmpty then return .ready ()
      let (messages, write_queue) := next_frame [] self.write_queue
      set { self with write_queue := write_queue }
      let buf ← Method.lift (map_err X.into_io_error (to_encoded_bytes messages))
      match ← on_stream (CipherTrait.start_send · buf) with
      | .error e => throw (.err e)
      | .ok () => do
        match ← on_stream CipherTrait.poll_flush with
        | .ready (.error e) => throw (.err e)
        | .pending => return .pending
        | .ready (.ok ()) => poll_outbound_loop false fuel
    -- an error of `poll_ready` ends the loop like a sink that is not ready
    | _ => return if pending then .pending else .ready ()

/-- Drive outgoing messages. Every round takes a message out of the queue, so the length of the
queue is fuel enough. -/
def poll_outbound : IoMethod X σ (Poll Unit) := do
  poll_outbound_loop true ((← get).write_queue.length + 1)

/-- Poll for incoming messages. Handshake payloads are passed over. The loop has fuel of its own,
since a connection may have any number of them. -/
def poll_inbound : ℕ → IoMethod X σ (Poll (Option (List (ChannelMessage X))))
  | 0 => throw .out_of_fuel
  | fuel + 1 => do
    match ← on_stream CipherTrait.poll_next with
    | .ready (some (.HandshakePayload _)) => poll_inbound fuel
    | .ready (some (.Message msg)) => do
      let (messages, _) ← Method.lift (map_err X.into_io_error (vec_decode X msg))
      return .ready (some messages)
    | .ready (some (.ErrStuff e)) => throw (.err e)
    | .ready none => return .ready none
    | .pending => return .pending

end MessageIo

end hypercore_protocol.mqueue
