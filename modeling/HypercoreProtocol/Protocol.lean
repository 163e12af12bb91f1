/-
`src/protocol.rs`: the protocol over one connection.

The command queue and the outbound queue are the lists of what is in them; their
senders are held by the application, and the protocol itself keeps one of each,
so neither queue is ever seen closed. The handlers are written as the source has
them. `poll_next` drives them in the source's order; its loops over the two
queues take one element in every round, and the loop over inbound frames, which
goes on as long as the connection has any, runs on the fuel it is given.
-/
import HypercoreProtocol.Channels
import HypercoreProtocol.Mqueue

set_option autoImplicit false
-- the source has a field `channels` in its crate's module `channels`
set_option linter.dupNamespace false

namespace hypercore_protocol.protocol

open Rust Wire schema message channels mqueue crypto

/-- How many commands and how many batches may wait. Events and what is to be written have no
bound. -/
def CHANNEL_CAP : ℕ := 1000

/-- A protocol event, which the application gets by polling. `Channel` hands over a channel that
is open, and is the only way to get one. -/
inductive Event where
  | Handshake (remote_pubkey : Array32)
  | DiscoveryKey (discovery_key : DiscoveryKey)
  | Channel (channel : Channel)
  | Close (discovery_key : DiscoveryKey)
  | LocalSignal (name : Str) (data : Vec UInt8)
deriving DecidableEq

/-- A protocol command. The application sends them through `CommandTx`, and a poll handles
them. -/
inductive Command where
  | Open (key : Key)
  | Close (discovery_key : DiscoveryKey)
  | SignalLocal (name : Str) (data : Vec UInt8)
deriving DecidableEq

/-- **A protocol** for replicating hypercores over an encrypted connection. The two queues that
the application fills are lists here; the senders of the source are ends of these same queues and
are not kept. -/
structure Protocol (X : Deps) (σ : Type) where
  io : MessageIo X σ
  is_initiator : Bool
  channels : ChannelMap X
  command_rx : List Command
  outbound_rx : List (List (ChannelMessage X))
  queued_events : List Event
  handshake_emitted : Bool

variable {X : Deps} {σ α : Type}

/-- A method of the protocol: it changes the protocol, and fails with an `io::Error` or by a
panic. What it has changed before it failed stays changed, as in the source. -/
abbrev ProtocolMethod (X : Deps) (σ α : Type) := Method IoError (Protocol X σ) α

/-- `fn parse_key`: the discovery key of an `Open` comes from the remote and may have any
length. -/
def parse_key (key : Vec UInt8) : Res IoError DiscoveryKey :=
  match try_into_array32 key with
  | some key => .ok key
  | none => .error (.err ⟨.InvalidInput, "Key must be 32 bytes long"⟩)

namespace Protocol

/-- Call a method of `self.channels`, the rest of the protocol staying as it is. -/
def on_channels (m : MapMethod X α) : ProtocolMethod X σ α :=
  Method.on channels (fun self channels => { self with channels := channels }) m

/-- Call a method of `self.io`, the rest of the protocol staying as it is. -/
def on_io (m : IoMethod X σ α) : ProtocolMethod X σ α :=
  Method.on io (fun self io => { self with io := io }) m

def queue_event (event : Event) : ProtocolMethod X σ Unit :=
  modify fun self => { self with queued_events := self.queued_events ++ [event] }

variable [CipherTrait σ]

def new (stream : σ) : Protocol X σ where
  io := MessageIo.new stream
  is_initiator := CipherTrait.is_initiator stream
  channels := ChannelMap.new
  command_rx := []
  outbound_rx := []
  queued_events := []
  handshake_emitted := false

/-- The handshake, once its hash and the remote's key are there. Both `capability` and
`verify_remote_capability` of the source begin by building it. -/
def handshake_result (self : Protocol X σ) : Option HandshakeResult := do
  let remote_pubkey ← self.io.remote_public_key
  let handshake_hash ← self.io.handshake_hash
  return .from_pre_encrypted self.is_initiator self.io.local_public_key remote_pubkey
    handshake_hash

def capability (key : Bytes) : ProtocolMethod X σ (Option (Vec UInt8)) := do
  match (← get).handshake_result with
  | some handshake => Method.lift (handshake.capability X key)
  | none => return none

/-- Check the capability that the remote has shown. The outer `Option` of the source is the one
that `accept_channel` expects, so that a check before the handshake is over is the panic of that
`expect`. -/
def verify_remote_capability (capability : Option (Vec UInt8)) (key : Bytes) :
    ProtocolMethod X σ Unit := do
  match (← get).handshake_result with
  | some handshake => Method.lift (handshake.verify_remote_capability X capability key)
  | none => throw (.panic (.expect "TODO channel can only be accepted after first message"))

/-- A channel that both sides have attached is checked, opened and given to the application. If
the check fails, the entry stays in the map as it is. -/
def accept_channel (local_id : ℕ) : ProtocolMethod X σ Unit := do
  let (key, remote_capability) ← on_channels (ChannelMap.prepare_to_verify local_id)
  verify_remote_capability remote_capability key.val
  let channel ← on_channels (ChannelMap.accept local_id)
  queue_event (.Channel channel)

/-! ## Commands -/

/-- Open a channel with the given key, adding it to our channel map. The remote may have opened
it before; then it is accepted first, and our `Open` is only queued if that succeeds. -/
def command_open (key : Key) : ProtocolMethod X σ Unit := do
  let channel_handle ← on_channels (ChannelMap.attach_local key)
  let local_id ← Method.unwrap channel_handle.local_id
  let discovery_key := channel_handle.discovery_key
  -- already opened from the remote end
  if channel_handle.is_connected then accept_channel local_id
  let capability ← capability key.val
  let channel := UInt64.ofNat local_id
  let message := Message.Open ⟨channel, PROTOCOL_NAME, to_vec discovery_key, capability⟩
  on_io (MessageIo.enqueue ⟨channel, message⟩)

/-- Close the channel of a discovery key. The remote is not told: no `Close` is queued for it. -/
def command_close (discovery_key : DiscoveryKey) : ProtocolMethod X σ Unit := do
  if (← get).channels.has_channel discovery_key then
    on_channels (ChannelMap.remove discovery_key)
    queue_event (.Close discovery_key)

def command_signal_local (name : Str) (data : Vec UInt8) : ProtocolMethod X σ Unit :=
  queue_event (.LocalSignal name data)

/-- Handle one command, by its kind. -/
def on_command (command : Command) : ProtocolMethod X σ Unit :=
  match command with
  | .Open key => command_open key
  | .Close discovery_key => command_close discovery_key
  | .SignalLocal name data => command_signal_local name data

/-! ## Inbound messages -/

/-- The remote opens a channel: it is attached under the id that the remote has chosen, and
accepted if it was opened here too. Otherwise the application is told of the key. -/
def on_open (ch : UInt64) (msg : Open) : ProtocolMethod X σ Unit := do
  let discovery_key ← Method.lift (parse_key msg.discovery_key)
  let channel_handle ←
    on_channels (ChannelMap.attach_remote discovery_key ch.toNat msg.capability)
  if channel_handle.is_connected then
    let local_id ← Method.unwrap channel_handle.local_id
    accept_channel local_id
  else
    queue_event (.DiscoveryKey discovery_key)

/-- The remote closes a channel. The message is passed on to whoever receives from the channel,
and then the entry is removed. An id that leads nowhere is no error. -/
def on_close (remote_id : UInt64) (msg : Close) : ProtocolMethod X σ Unit := do
  match (← get).channels.get_remote remote_id.toNat with
  | some channel_handle => do
    let discovery_key := channel_handle.discovery_key
    -- both sides may close at the same time, so the channel may be closed already
    on_channels
      (ChannelMap.forward_inbound_message_tolerate_closed remote_id.toNat (.Close msg))
    on_channels (ChannelMap.remove discovery_key)
    queue_event (.Close discovery_key)
  | none => return ()

/-- Handle one message from the remote. Data goes to the channel that its id leads to. -/
def on_inbound_message (channel_message : ChannelMessage X) : ProtocolMethod X σ Unit :=
  match channel_message.message with
  | .Open msg => on_open channel_message.channel msg
  | .Close msg => on_close channel_message.channel msg
  | message =>
    on_channels (ChannelMap.forward_inbound_message channel_message.channel.toNat message)

/-- The messages of one frame in order. The first one that fails ends it, and those behind it are
lost. -/
def on_inbound_channel_messages : List (ChannelMessage X) → ProtocolMethod X σ Unit
  | [] => return ()
  | channel_message :: channel_messages => do
    on_inbound_message channel_message
    on_inbound_channel_messages channel_messages

/-! ## Outbound messages -/

/-- The effect here of a `Close` that is about to be written: the entry goes, and the application
gets an event. -/
def close_local (local_id : UInt64) : ProtocolMethod X σ Unit := do
  match (← get).channels.get_local local_id.toNat with
  | some channel => do
    let discovery_key := channel.discovery_key
    on_channels (ChannelMap.remove discovery_key)
    queue_event (.Close discovery_key)
  | none => return ()

/-- Handles `Close` and `LocalSignal`, and answers whether the message is to be written. A local
signal is not: it becomes an event. -/
def on_outbound_message (message : ChannelMessage X) : ProtocolMethod X σ Bool := do
  match message.message with
  | .Close _ => do
    close_local message.channel
    return true
  | .LocalSignal name data => do
    queue_event (.LocalSignal name data)
    return false
  | _ => return true

/-- The call `messages.retain(|message| self.on_outbound_message(message))`. All messages are
handled before the first is enqueued. -/
def retain_outbound : List (ChannelMessage X) → ProtocolMethod X σ (List (ChannelMessage X))
  | [] => return []
  | message :: messages => do
    let keep ← on_outbound_message message
    let messages ← retain_outbound messages
    return if keep then message :: messages else messages

/-- The loop `for msg in messages` over `self.io.enqueue(msg)`, for the messages that were
retained. -/
def enqueue_all : List (ChannelMessage X) → ProtocolMethod X σ Unit
  | [] => return ()
  | msg :: messages => do
    on_io (MessageIo.enqueue msg)
    enqueue_all messages

/-- One batch taken from the outbound queue: the part of `poll_outbound_write` that does not
touch the connection. -/
def on_outbound_batch (messages : List (ChannelMessage X)) : ProtocolMethod X σ Unit := do
  if !messages.isEmpty then
    let messages ← retain_outbound messages
    enqueue_all messages

/-! ## Polling -/

/-- Take the front of the outbound queue. `poll_next` on it is pending when it is empty, and
never ends, since the protocol has a sender itself. -/
def pop_outbound : ProtocolMethod X σ (Option (List (ChannelMessage X))) := do
  let self ← get
  match self.outbound_rx with
  | [] => return none
  | messages :: outbound_rx => do
    set { self with outbound_rx := outbound_rx }
    return some messages

omit [CipherTrait σ] in
theorem run_pop_outbound (p : Protocol X σ) :
    pop_outbound.run p = match p.outbound_rx with
      | [] => .ok none p
      | messages :: rest => .ok (some messages) { p with outbound_rx := rest } := by
  rw [pop_outbound, EStateM.run_bind, EStateM.run_get]
  dsimp only
  cases p.outbound_rx <;> rfl

/-- Take the front of the command queue, which never ends for the same reason. -/
def pop_command : ProtocolMethod X σ (Option Command) := do
  let self ← get
  match self.command_rx with
  | [] => return none
  | command :: command_rx => do
    set { self with command_rx := command_rx }
    return some command

omit [CipherTrait σ] in
theorem run_pop_command (p : Protocol X σ) :
    pop_command.run p = match p.command_rx with
      | [] => .ok none p
      | command :: rest => .ok (some command) { p with command_rx := rest } := by
  rw [pop_command, EStateM.run_bind, EStateM.run_get]
  dsimp only
  cases p.command_rx <;> rfl

/-- Take the front of the event queue, the `pop_front` of the source. -/
def pop_event : ProtocolMethod X σ (Option Event) := do
  let self ← get
  match self.queued_events with
  | [] => return none
  | event :: queued_events => do
    set { self with queued_events := queued_events }
    return some event

omit [CipherTrait σ] in
theorem run_pop_event (p : Protocol X σ) :
    pop_event.run p = match p.queued_events with
      | [] => .ok none p
      | event :: rest => .ok (some event) { p with queued_events := rest } := by
  rw [pop_event, EStateM.run_bind, EStateM.run_get]
  dsimp only
  cases p.queued_events <;> rfl

/-- The loop of `poll_commands`, which ends when the queue is empty or a command fails. -/
def poll_commands_loop : ℕ → ProtocolMethod X σ Unit
  | 0 => throw .out_of_fuel
  | fuel + 1 => do
    match ← pop_command with
    | some command => do
      on_command command
      poll_commands_loop fuel
    | none => return ()

/-- Poll commands. Handling one queues no other, so that as many rounds as there are commands are
enough. -/
def poll_commands : ProtocolMethod X σ Unit := do
  poll_commands_loop ((← get).command_rx.length + 1)

/-- The loop of `poll_outbound_write`. Each round first drives what is to be written already, and
then takes one more batch. -/
def poll_outbound_write_loop : ℕ → ProtocolMethod X σ Unit
  | 0 => throw .out_of_fuel
  | fuel + 1 => do
    let _ ← on_io MessageIo.poll_outbound
    match ← pop_outbound with
    | some messages => do
      on_outbound_batch messages
      poll_outbound_write_loop fuel
    | none => return ()

/-- Poll for outbound messages and write them. Nothing is added to the outbound queue meanwhile,
and its length is fuel enough. -/
def poll_outbound_write : ProtocolMethod X σ Unit := do
  poll_outbound_write_loop ((← get).outbound_rx.length + 1)

/-- Poll for inbound messages and process them, until the connection is pending or has ended. Its
fuel is a parameter: no number of frames is enough for every connection. -/
def poll_inbound_read : ℕ → ProtocolMethod X σ Unit
  | 0 => throw .out_of_fuel
  | fuel + 1 => do
    match ← on_io (MessageIo.poll_inbound (fuel + 1)) with
    | .ready (some messages) => do
      on_inbound_channel_messages messages
      poll_inbound_read fuel
    | .ready none => return ()
    | .pending => return ()

/-- An initiator has to send and receive a message before anything else; whether
that is still to be waited for. -/
def poll_handshake (fuel : ℕ) : ProtocolMethod X σ Bool := do
  let self ← get
  if self.is_initiator && self.io.handshake_hash.isNone then
    poll_outbound_write
    poll_inbound_read fuel
    return (← get).io.handshake_hash.isNone
  else return false

/-- The handshake event, on the first poll that knows the remote's key, and on no other. -/
def emit_handshake : ProtocolMethod X σ (Option Event) := do
  let self ← get
  if !self.handshake_emitted then
    match self.io.remote_public_key with
    | some remote_pubkey => do
      set { self with handshake_emitted := true }
      return some (.Handshake remote_pubkey)
    | none => return none
  else return none

/-- The part of `poll_next` after the handshake. An event that waits is returned at once; only
otherwise anything is read, handled or written, in this order. -/
def poll_main (fuel : ℕ) : ProtocolMethod X σ (Poll Event) := do
  match ← pop_event with
  | some event => return .ready event
  | none => do
    poll_inbound_read fuel
    poll_commands
    poll_outbound_write
    match ← pop_event with
    | some event => return .ready event
    | none => return .pending

/-- **One poll** of a protocol. An initiator that is still in its handshake does nothing else;
then comes the handshake event, and then the work. -/
def poll_next (fuel : ℕ) : ProtocolMethod X σ (Poll Event) := do
  if ← poll_handshake fuel then return .pending
  match ← emit_handshake with
  | some event => return .ready event
  | none => poll_main fuel

end Protocol

end hypercore_protocol.protocol
