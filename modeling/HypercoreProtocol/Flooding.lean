/-
A poll does not come back while there is something to read.

`Protocol::poll_next` reads the connection in a loop that is left when nothing is there, the
connection has ended or something fails. Nothing bounds the frames that one call handles, the
queues of the channels are unbounded, and commands and outbound messages come after the loop.
So the remote decides how long a poll takes: as long as it has another frame ready, with
messages that are not refused, the poll goes on, keeps what it reads and does nothing else
(`flood_starves`). That polls return when the connection has only finitely much to give is
`poll_returns`; this is why it has to.
-/
import HypercoreProtocol.Reading
import HypercoreProtocol.Calls

set_option autoImplicit false

namespace hypercore_protocol.protocol.Protocol

open Rust Method Wire message channels mqueue

variable {X : Deps} {σ : Type} {p p' p'' : Protocol X σ} {msg : ChannelMessage X}
  {messages messages' : List (ChannelMessage X)}

/-! ## What a flood leaves -/

/-- The messages are in their queues, and nothing else has changed but the connection. -/
structure Stored (p : Protocol X σ) (messages : List (ChannelMessage X)) (p' : Protocol X σ) :
    Prop where
  delivered : p.Delivered messages p'
  target : p'.target = p.target
  refuses : ∀ msg, p'.Refuses msg ↔ p.Refuses msg
  write_queue : p'.io.write_queue = p.io.write_queue
  command_rx : p'.command_rx = p.command_rx
  outbound_rx : p'.outbound_rx = p.outbound_rx
  queued_events : p'.queued_events = p.queued_events

theorem stored_nil (p : Protocol X σ) : p.Stored [] p := by
  refine ⟨fun n => ?_, rfl, fun _ => Iff.rfl, rfl, rfl, rfl, rfl⟩
  cases p.inbound_queue n with
  | none => rfl
  | some queue => exact congrArg some (List.append_nil queue).symm

/-- The connection has gone on. -/
theorem stored_stream (p : Protocol X σ) (stream : σ) :
    p.Stored [] { p with io := { p.io with stream := stream } } :=
  ⟨(stored_nil p).delivered, rfl, fun _ => Iff.rfl, rfl, rfl, rfl, rfl⟩

theorem Stored.trans (h : p.Stored messages p') (h' : p'.Stored messages' p'') :
    p.Stored (messages ++ messages') p'' := by
  refine ⟨fun n => ?_, h'.target.trans h.target, fun msg => (h'.refuses msg).trans (h.refuses msg),
    h'.write_queue.trans h.write_queue, h'.command_rx.trans h.command_rx,
    h'.outbound_rx.trans h.outbound_rx, h'.queued_events.trans h.queued_events⟩
  rw [h'.delivered n, h.delivered n, Option.map_map, addressed, addressed, addressed, h.target,
    List.filter_append, List.map_append]
  simp only [Function.comp_def, List.append_assoc]

theorem stored_pushed {n : ℕ} (h : p.target msg = some n) :
    p.Stored [msg] (p.pushed n msg.message) := by
  refine ⟨fun k => ?_, target_pushed n _, refuses_pushed n _, rfl, rfl, rfl, rfl⟩
  rw [inbound_queue_pushed, addressed_cons_some h]
  exact congrArg (fun new => (p.inbound_queue k).map (· ++ new)) (List.append_nil _).symm

/-- A message on an unknown id is dropped. -/
theorem stored_dropped (h : p.target msg = none) : p.Stored [msg] p := by
  refine ⟨fun k => ?_, rfl, fun _ => Iff.rfl, rfl, rfl, rfl, rfl⟩
  rw [addressed_cons_none h]
  exact (stored_nil p).delivered k

/-! ## The loop -/

variable [CipherTrait σ]

/-- A frame of messages that are not refused is handled to its end. -/
theorem on_taken_messages (htaken : ∀ msg ∈ messages,
      msg.message.is_open_or_close = false ∧ ¬ p.Refuses msg) :
    ∃ p', (on_inbound_channel_messages messages).run p = .ok () p' ∧ p.Stored messages p' ∧
      p'.io = p.io := by
  induction messages generalizing p with
  | nil => exact ⟨p, rfl, stored_nil p, rfl⟩
  | cons msg messages ih =>
    obtain ⟨hdata, hno⟩ := htaken msg List.mem_cons_self
    have hfirst : ∃ p₁, (on_inbound_message msg).run p = .ok () p₁ ∧ p.Stored [msg] p₁ ∧
        p₁.io = p.io := by
      rcases on_data_message p hdata with ⟨n, htarget, -, hrun⟩ | ⟨htarget, -, hrun⟩ | ⟨-, hr, -⟩
      · exact ⟨_, hrun, stored_pushed htarget, rfl⟩
      · exact ⟨p, hrun, stored_dropped htarget, rfl⟩
      · exact absurd hr hno
    obtain ⟨p₁, hrun₁, hstored₁, hio₁⟩ := hfirst
    obtain ⟨p', hrun, hstored, hio⟩ := ih fun m hm =>
      ⟨(htaken m (List.mem_cons_of_mem msg hm)).1,
        fun hr => (htaken m (List.mem_cons_of_mem msg hm)).2 ((hstored₁.refuses m).mp hr)⟩
    refine ⟨p', ?_, hstored₁.trans hstored, hio.trans hio₁⟩
    rw [on_inbound_channel_messages, EStateM.run_bind, hrun₁]
    exact hrun

/-- One frame is read. -/
theorem run_poll_inbound_frame {bs rest : Bytes} (fuel : ℕ)
    (hnext : (CipherTrait.poll_next p.io.stream).1 = .ready (some (.Message bs)))
    (hdec : vec_decode X bs = .ok (messages, rest)) :
    (on_io (MessageIo.poll_inbound (fuel + 1))).run p = .ok (.ready (some messages))
      { p with io := { p.io with stream := (CipherTrait.poll_next p.io.stream).2 } } := by
  have hread : (MessageIo.poll_inbound (fuel + 1)).run p.io = .ok (.ready (some messages))
      { p.io with stream := (CipherTrait.poll_next p.io.stream).2 } := by
    simp [MessageIo.poll_inbound, MessageIo.on_stream, hnext, hdec]
  rw [on_io, run_on, hread]

/-- The connection always has another frame, and `P` holds of its messages. -/
def Floods (S : σ → Prop) (P : List (ChannelMessage X) → Prop) : Prop :=
  ∀ stream, S stream → S (CipherTrait.poll_next stream).2 ∧ ∃ bs messages rest,
    (CipherTrait.poll_next stream).1 = .ready (some (.Message bs)) ∧
    vec_decode X bs = .ok (messages, rest) ∧ P messages

variable {S : σ → Prop} {P : List (ChannelMessage X) → Prop}

theorem flooded_read (hflood : Floods S P) (fuel : ℕ) (hS : S p.io.stream)
    (htaken : ∀ messages, P messages → ∀ msg ∈ messages,
      msg.message.is_open_or_close = false ∧ ¬ p.Refuses msg) :
    ∃ (frames : List (List (ChannelMessage X))) (p' : Protocol X σ), frames.length = fuel ∧
      (∀ messages ∈ frames, P messages) ∧
      (poll_inbound_read fuel).run p = .error .out_of_fuel p' ∧ p.Stored frames.flatten p' := by
  induction fuel generalizing p with
  | zero => exact ⟨[], p, rfl, fun _ h => absurd h List.not_mem_nil, rfl, stored_nil p⟩
  | succ fuel ih =>
    obtain ⟨hS', bs, messages, rest, hnext, hdec, hP⟩ := hflood _ hS
    have hstream := stored_stream p (CipherTrait.poll_next p.io.stream).2
    obtain ⟨p₁, hrun₁, hstored₁, hio₁⟩ := on_taken_messages fun msg hmsg =>
      ⟨(htaken messages hP msg hmsg).1,
        fun hr => (htaken messages hP msg hmsg).2 ((hstream.refuses msg).mp hr)⟩
    have hread := hstream.trans hstored₁
    obtain ⟨frames, p', hlen, hall, hrun, hstored⟩ := ih (p := p₁) (hio₁.symm ▸ hS')
      fun messages hP msg hmsg => ⟨(htaken messages hP msg hmsg).1,
        fun hr => (htaken messages hP msg hmsg).2 ((hread.refuses msg).mp hr)⟩
    refine ⟨messages :: frames, p', congrArg (· + 1) hlen,
      List.forall_mem_cons.mpr ⟨hP, hall⟩, ?_, hread.trans hstored⟩
    rw [poll_inbound_read, EStateM.run_bind, run_poll_inbound_frame fuel hnext hdec]
    show (on_inbound_channel_messages messages >>= fun _ => poll_inbound_read fuel).run _ = _
    rw [EStateM.run_bind, hrun₁]
    exact hrun

/-- A poll does not come back while frames arrive. In any state after the handshake without
events to return, when the connection always has another frame, of messages that are neither
`Open` nor `Close` and that are not refused: for every number of frames, the poll reads and
handles so many and is still reading. What it has read is in the queues of the channels or
dropped; no command has been handled, nothing was taken from the outbound queue, nothing was
written, and there is no event. -/
theorem flood_starves (hemitted : p.handshake_emitted = true) (hevents : p.queued_events = [])
    (hwait : (p.is_initiator && p.io.handshake_hash.isNone) = false) (hflood : Floods S P)
    (hS : S p.io.stream) (htaken : ∀ messages, P messages → ∀ msg ∈ messages,
      msg.message.is_open_or_close = false ∧ ¬ p.Refuses msg) (fuel : ℕ) :
    ∃ (frames : List (List (ChannelMessage X))) (p' : Protocol X σ), frames.length = fuel ∧
      (∀ messages ∈ frames, P messages) ∧
      (poll_next fuel).run p = .error .out_of_fuel p' ∧ p.Stored frames.flatten p' := by
  obtain ⟨frames, p', hlen, hall, hrun, hstored⟩ := flooded_read hflood fuel hS htaken
  refine ⟨frames, p', hlen, hall, ?_, hstored⟩
  have hhandshake : (poll_handshake fuel).run p = .ok false p := by
    rw [poll_handshake, EStateM.run_bind, EStateM.run_get]
    dsimp only
    rw [hwait]
    rfl
  have hemit : (emit_handshake : ProtocolMethod X σ _).run p = .ok none p := by
    rw [emit_handshake, EStateM.run_bind, EStateM.run_get]
    dsimp only
    rw [hemitted]
    rfl
  have hpop : (pop_event : ProtocolMethod X σ _).run p = .ok none p := by
    rw [run_pop_event, hevents]
  rw [poll_next, EStateM.run_bind, hhandshake]
  show (emit_handshake >>= fun event => _).run p = _
  rw [EStateM.run_bind, hemit]
  show (poll_main fuel).run p = _
  rw [poll_main, EStateM.run_bind, hpop]
  show (poll_inbound_read fuel >>= fun _ => _).run p = _
  rw [EStateM.run_bind, hrun]

end hypercore_protocol.protocol.Protocol

namespace hypercore_protocol.session

open Rust Method Wire schema message channels mqueue protocol compact_encoding

/-- A connection that gives the same frame for ever. -/
structure Endless where
  frame : Bytes

instance : CipherTrait Endless where
  is_initiator _ := false
  local_public_key _ := sample 2
  remote_public_key _ := some (sample 1)
  handshake_hash _ := some (to_vec (sample 0))
  poll_next self := (.ready (some (.Message self.frame)), self)
  poll_ready self := (.ready (.ok ()), self)
  start_send self _ := (.ok (), self)
  poll_flush self := (.ready (.ok ()), self)

/-- The application has asked for a key; after the handshake there is nothing but a message
on an id that nobody has opened, again and again. -/
theorem flood_starves_command : ∃ p p' : Protocol deps Endless,
    p.command_rx = [.Open (sample 1)] ∧
    (Protocol.poll_next 1000).run p = .error .out_of_fuel p' ∧
    p'.command_rx = [.Open (sample 1)] := by
  let p : Protocol deps Endless := { Protocol.new ⟨[7, 2, 5]⟩ with
    command_rx := [.Open (sample 1)], handshake_emitted := true }
  have hflood : Protocol.Floods (X := deps) (fun stream : Endless => stream.frame = [7, 2, 5])
      (· = [⟨7, .Cancel ⟨5⟩⟩]) := by
    rintro ⟨frame⟩ rfl
    exact ⟨rfl, [7, 2, 5], _, [], rfl, rfl, rfl⟩
  have htaken : ∀ messages : List (ChannelMessage deps), messages = [⟨7, .Cancel ⟨5⟩⟩] →
      ∀ msg ∈ messages, msg.message.is_open_or_close = false ∧ ¬ p.Refuses msg := by
    rintro _ rfl msg hmsg
    obtain rfl := List.mem_singleton.mp hmsg
    refine ⟨rfl, ?_⟩
    rintro ⟨h, hh, -⟩
    cases hh
  obtain ⟨frames, p', -, -, hrun, hstored⟩ :=
    Protocol.flood_starves (p := p) rfl rfl rfl hflood rfl htaken 1000
  exact ⟨p, p', rfl, hrun, hstored.command_rx⟩

end hypercore_protocol.session
