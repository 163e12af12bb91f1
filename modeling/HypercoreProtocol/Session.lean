/-
A protocol and its application, step by step.

`poll_next` does many things in one call. Here they are taken apart: a `Move` is
one indivisible thing a poll does, such as handling one command or one message,
and `poll_next_moves` says that whatever a poll leaves behind is reached by
moves. A `Session` adds the application, which queues commands, holds the
channels it was given, and sends on them. A send first checks the flag of its
channel and then waits for room in the outbound queue, so it is two steps with
anything in between; a close stores the flag in a third.

Properties of every run of a session therefore hold however calls, polls and
messages are interleaved, also by several threads.
-/
import HypercoreProtocol.ProtocolSpec

set_option autoImplicit false

namespace hypercore_protocol.session

open Rust Wire Runs schema message channels mqueue protocol

variable {X : Deps} {σ : Type} [CipherTrait σ]

/-! ## Moves of the protocol -/

/-- A connection only gains: a hash or a remote key that is known stays. This is all that a step
of the connection is held to, so that it may answer in any way otherwise. -/
def KeepsHandshake (stream stream' : σ) : Prop :=
  (∀ hash, CipherTrait.handshake_hash stream = some hash →
    CipherTrait.handshake_hash stream' = some hash) ∧
  ∀ key, CipherTrait.remote_public_key stream = some key →
    CipherTrait.remote_public_key stream' = some key

theorem KeepsHandshake.refl (stream : σ) : KeepsHandshake stream stream :=
  ⟨fun _ h => h, fun _ h => h⟩

theorem KeepsHandshake.trans {s₁ s₂ s₃ : σ} (h₁ : KeepsHandshake s₁ s₂)
    (h₂ : KeepsHandshake s₂ s₃) : KeepsHandshake s₁ s₃ :=
  ⟨fun hash h => h₂.1 hash (h₁.1 hash h), fun key h => h₂.2 key (h₁.2 key h)⟩

/-- **One thing a protocol does.** A poll is a sequence of these. They are steps of their own, so
that what the application does may come in between, and an invariant of the steps holds during a
poll as well. -/
inductive Move (X : Deps) where
  /-- A command is taken from its queue and handled. -/
  | command (c : Command)
  /-- A message from the remote is handled. -/
  | inbound (msg : ChannelMessage X)
  /-- A batch is taken from the outbound queue, handled and written. -/
  | outbound (batch : List (ChannelMessage X))
  /-- The message layer sends frames, or the connection changes. -/
  | io
  /-- The handshake event is returned. -/
  | handshake (remote_pubkey : Array32)
  /-- A queued event is returned. -/
  | event (e : Event)

/-- What each move does. The handlers are the functions of the model themselves, run to an end
with or without an error (`Leaves`); a move that panics is none. Which messages come in is not
restricted: the remote may send anything. -/
inductive protocol_step : Protocol X σ → Move X → Protocol X σ → Prop where
  | command {p p' : Protocol X σ} {c : Command} {rest : List Command}
      (hq : p.command_rx = c :: rest)
      (h : Method.Leaves (Protocol.on_command c) { p with command_rx := rest } p') :
      protocol_step p (.command c) p'
  | inbound {p p' : Protocol X σ} {msg : ChannelMessage X}
      (h : Method.Leaves (Protocol.on_inbound_message msg) p p') :
      protocol_step p (.inbound msg) p'
  | outbound {p p' : Protocol X σ} {batch : List (ChannelMessage X)}
      {rest : List (List (ChannelMessage X))} (hq : p.outbound_rx = batch :: rest)
      (h : Method.Leaves (Protocol.on_outbound_batch batch) { p with outbound_rx := rest } p') :
      protocol_step p (.outbound batch) p'
  | io {p : Protocol X σ} {io : MessageIo X σ} (hs : KeepsHandshake p.io.stream io.stream)
      (hq : io.write_queue <:+ p.io.write_queue) : protocol_step p .io { p with io := io }
  | handshake {p : Protocol X σ} {key : Array32} (he : p.handshake_emitted = false)
      (hk : p.io.remote_public_key = some key) :
      protocol_step p (.handshake key) { p with handshake_emitted := true }
  | event {p : Protocol X σ} {e : Event} {rest : List Event} (hq : p.queued_events = e :: rest) :
      protocol_step p (.event e) { p with queued_events := rest }

/-! ## The application -/

/-- A `send`, `send_batch` or `close` that has passed its check and waits for room
in the outbound queue. -/
structure Sending (X : Deps) where
  channel : Channel
  batch : List (ChannelMessage X)
  closing : Bool

/-- **A session**: a protocol with the application that uses it. Besides the protocol it has the
channels that were handed out and the calls on them that are under way. -/
structure Session (X : Deps) (σ : Type) where
  protocol : Protocol X σ
  /-- The channels the application was given. -/
  held : List Channel
  sending : List (Sending X)
  /-- Channels whose `close` has queued its message and is about to store the flag. -/
  closing : List Channel
  /-- Which channel sent each batch of the outbound queue, in the same order. -/
  senders : List Channel

namespace Session

/-- `Channel::closed`: the flag that the channel shares with its handle. The default is never
used, since the flag of a channel exists. -/
def is_closed (s : Session X σ) (c : Channel) : Bool :=
  (s.protocol.channels.shared.flags.read c.closed).getD true

/-- `Protocol::new`, before the application has done anything. -/
def new (stream : σ) : Session X σ := ⟨Protocol.new stream, [], [], [], []⟩

/-- The session with other shared cells, for the steps that store a flag or change a queue. -/
def with_shared (s : Session X σ) (shared : Shared X) : Session X σ :=
  { s with protocol := { s.protocol with channels := { s.protocol.channels with
      shared := shared } } }

/-- The session after a move of its protocol. A batch that is taken leaves `senders` too, and a
channel event hands its channel over. -/
def after (s : Session X σ) (move : Move X) (p : Protocol X σ) : Session X σ :=
  match move with
  | .outbound _ => { s with protocol := p, senders := s.senders.tail }
  | .event (.Channel c) => { s with protocol := p, held := s.held ++ [c] }
  | _ => { s with protocol := p }

end Session

/-- The batch `Channel::send` and `Channel::send_batch` queue: the messages, all under the local
id the channel had when it was made. -/
def batch_of (c : Channel) (messages : List (Message X)) : List (ChannelMessage X) :=
  messages.map (ChannelMessage.mk (UInt64.ofNat c.local_id))

/-- The message `Channel::close` sends. It names the local id once more, which no handler reads. -/
def close_of (c : Channel) : Message X := .Close ⟨UInt64.ofNat c.local_id⟩

/-- What can happen in a session: a move of its protocol, or a part of a call that the
application makes. -/
inductive Action (X : Deps) where
  | protocol (move : Move X)
  /-- `CommandTx::send`. -/
  | queue_command (c : Command)
  /-- `Channel::send` and `Channel::send_batch`, up to the wait for room. -/
  | send (c : Channel) (messages : List (Message X))
  /-- `Channel::close`, up to the wait for room. -/
  | close (c : Channel)
  /-- A waiting batch enters the outbound queue. -/
  | enqueue (sending : Sending X)
  /-- The future of a waiting batch is dropped. -/
  | abandon (sending : Sending X)
  /-- `Channel::close` stores the flag. -/
  | store_closed (c : Channel)
  /-- A message is received from a channel. -/
  | receive (c : Channel) (msg : Message X)
  /-- The last receiver of a channel is dropped. -/
  | drop_receiver (c : Channel)
  /-- A message is put into a channel's own queue by its `local_sender`. -/
  | local_send (c : Channel) (msg : Message X)

/-- **A step of a session.** Calls of the application are cut where they wait: a send first looks
at the flag, and its batch enters the queue when there is room, or never; a close has a third
part that stores the flag. So any interleaving with the protocol is a run. -/
inductive Step : Session X σ → Action X → Session X σ → Prop where
  | protocol {s : Session X σ} {move : Move X} {p : Protocol X σ}
      (h : protocol_step s.protocol move p) : Step s (.protocol move) (s.after move p)
  | queue_command {s : Session X σ} (c : Command)
      (hroom : s.protocol.command_rx.length < CHANNEL_CAP) :
      Step s (.queue_command c)
        { s with protocol := { s.protocol with command_rx := s.protocol.command_rx ++ [c] } }
  | send {s : Session X σ} {c : Channel} (messages : List (Message X)) (hc : c ∈ s.held)
      (hopen : s.is_closed c = false) :
      Step s (.send c messages)
        { s with sending := s.sending ++ [⟨c, batch_of c messages, false⟩] }
  | close {s : Session X σ} {c : Channel} (hc : c ∈ s.held) (hopen : s.is_closed c = false) :
      Step s (.close c) { s with sending := s.sending ++ [⟨c, batch_of c [close_of c], true⟩] }
  | enqueue {s : Session X σ} {l r : List (Sending X)} {x : Sending X}
      (hs : s.sending = l ++ x :: r) (hroom : s.protocol.outbound_rx.length < CHANNEL_CAP) :
      Step s (.enqueue x)
        { s with
          sending := l ++ r
          closing := if x.closing then s.closing ++ [x.channel] else s.closing
          senders := s.senders ++ [x.channel]
          protocol := { s.protocol with outbound_rx := s.protocol.outbound_rx ++ [x.batch] } }
  | abandon {s : Session X σ} {l r : List (Sending X)} {x : Sending X}
      (hs : s.sending = l ++ x :: r) : Step s (.abandon x) { s with sending := l ++ r }
  | store_closed {s : Session X σ} {l r : List Channel} {c : Channel}
      (hs : s.closing = l ++ c :: r) :
      Step s (.store_closed c)
        (({ s with closing := l ++ r } : Session X σ).with_shared
          (s.protocol.channels.shared.store_true c.closed))
  | receive {s : Session X σ} {c : Channel} {n : ℕ} {msg : Message X} {rest : List (Message X)}
      {alive : Bool} (hc : c ∈ s.held) (hn : c.inbound_rx = some n)
      (hread : s.protocol.channels.shared.inboxes.read n = some ⟨msg :: rest, alive⟩) :
      Step s (.receive c msg) (s.with_shared
        { s.protocol.channels.shared with
          inboxes := s.protocol.channels.shared.inboxes.update n fun _ => ⟨rest, alive⟩ })
  | drop_receiver {s : Session X σ} {c : Channel} {n : ℕ} (hc : c ∈ s.held)
      (hn : c.inbound_rx = some n) :
      Step s (.drop_receiver c) (s.with_shared
        { s.protocol.channels.shared with
          inboxes := s.protocol.channels.shared.inboxes.update n fun b => ⟨b.queue, false⟩ })
  | local_send {s : Session X σ} {c : Channel} (msg : Message X) (hc : c ∈ s.held) :
      Step s (.local_send c msg)
        (s.with_shared (s.protocol.channels.shared.push c.direct_inbound_tx msg))

end hypercore_protocol.session
