/-
Polling until nothing is left.

An executor polls a task again only when something that returned `Pending` to it has
changed. So `Pending` is a promise: whatever the task could go on with has been asked and
had nothing. The protocol asks five things, its connection for frames and for room, the
queue of commands, the queue of batches and its own events, in an order that is not the
same before and after the handshake, and it leaves its loops for other reasons than
`Pending`. `pending_drained` is the promise, as far as it is kept: the frames are read to
the end and all queues are empty, and what is not written is held up by the sink. The one
place where it is not kept is seen in the statement, a sink that is not ready because it
failed (`WrittenOut`).

The other half is that the promise is reached. Each poll that returns an event has used
up something: an event of the connection, a command, a batch, the handshake or an event
of the queue. `polling_settles` is the result for the application that polls in a loop: it
gets finitely many events, and then `Pending`, with everything drained.
-/
import HypercoreProtocol.Returning

set_option autoImplicit false

namespace hypercore_protocol.session

open Rust Method Wire Runs schema message channels mqueue protocol crypto compact_encoding

variable {X : Deps} {σ : Type} [CipherTrait σ] {s s' : Session X σ} {p p' : Protocol X σ}

/-! ## A connection at rest -/

/-- Calls on the sink of a connection, any number of them and in any order. -/
inductive Sinks : σ → σ → Prop where
  | refl (stream : σ) : Sinks stream stream
  | poll_ready {a b : σ} (h : Sinks a b) : Sinks a (CipherTrait.poll_ready b).2
  | start_send {a b : σ} (buf : Bytes) (h : Sinks a b) : Sinks a (CipherTrait.start_send b buf).2
  | poll_flush {a b : σ} (h : Sinks a b) : Sinks a (CipherTrait.poll_flush b).2

theorem Sinks.trans {a b c : σ} (h : Sinks a b) (h' : Sinks b c) : Sinks a c := by
  induction h' with
  | refl => exact h
  | poll_ready _ ih => exact ih.poll_ready
  | start_send buf _ ih => exact ih.start_send buf
  | poll_flush _ ih => exact ih.poll_flush

/-- The connection was read until it had nothing to give, and after that only its sink was
used. -/
def ReadOut (stream : σ) : Prop :=
  ∃ before : σ, ((CipherTrait.poll_next before).1 = .pending ∨
    (CipherTrait.poll_next before).1 = .ready none) ∧ Sinks (CipherTrait.poll_next before).2 stream

/-- Calls that read, any number of them. -/
inductive Pulls : σ → σ → Prop where
  | refl (stream : σ) : Pulls stream stream
  | poll_next {a b : σ} (h : Pulls a b) : Pulls a (CipherTrait.poll_next b).2

/-- Everything is written, or the sink was not ready, or it has still to flush; and after
that the connection was only read. -/
def WrittenOut (io : MessageIo X σ) : Prop :=
  io.write_queue = [] ∨ ∃ before : σ,
    ((CipherTrait.poll_ready before).1 ≠ .ready (.ok ()) ∧
      Pulls (CipherTrait.poll_ready before).2 io.stream) ∨
    ((CipherTrait.poll_flush before).1 = .pending ∧
      Pulls (CipherTrait.poll_flush before).2 io.stream)

theorem WrittenOut.pull {io : MessageIo X σ} (h : WrittenOut io) :
    WrittenOut { io with stream := (CipherTrait.poll_next io.stream).2 } :=
  h.imp id fun ⟨before, h⟩ =>
    ⟨before, h.imp (fun h => ⟨h.1, h.2.poll_next⟩) fun h => ⟨h.1, h.2.poll_next⟩⟩

/-- What a call of `poll_outbound` leaves of the connection, and of the queue when it returns:
nothing that the sink would have taken. -/
theorem drives_out {pending : Bool} {io io' : MessageIo X σ} {calls : List SinkCall}
    {r : Res IoError (Poll Unit)} (h : MessageIo.Drives pending io calls r io') :
    Sinks io.stream io'.stream ∧ ∀ a, r = .ok a → WrittenOut io' := by
  have hready : ∀ io : MessageIo X σ, Sinks io.stream io.readied := fun io =>
    (Sinks.refl _).poll_ready
  induction h with
  | not_ready h =>
    exact ⟨hready _, fun _ _ => Or.inr ⟨_, Or.inl ⟨h, .refl _⟩⟩⟩
  | done h hq => exact ⟨hready _, fun _ _ => Or.inl hq⟩
  | unencoded h hq hf => exact ⟨hready _, fun _ h => nomatch h⟩
  | unsent h hsend => exact ⟨(hready _).start_send _, fun _ h => nomatch h⟩
  | unflushed h hsend hflush =>
    exact ⟨((hready _).start_send _).poll_flush, fun _ h => nomatch h⟩
  | flushing h hsend hflush =>
    exact ⟨((hready _).start_send _).poll_flush,
      fun _ _ => Or.inr ⟨_, Or.inr ⟨hflush, .refl _⟩⟩⟩
  | round h hsend hflush hrest ih =>
    exact ⟨((hready _).start_send _).poll_flush.trans ih.1, ih.2⟩

/-! ## The loops -/

variable {I J W E : Protocol X σ → Prop}

theorem triple_io_out (hJ : ∀ p io, J p → Sinks p.io.stream io.stream → J { p with io := io }) :
    Triple J (Protocol.on_io MessageIo.poll_outbound : ProtocolMethod X σ (Poll Unit))
      (fun _ p => J p ∧ WrittenOut p.io) J := by
  refine triple_on fun p hp io hio => ?_
  rw [hio]
  constructor
  · intro a io' hrun
    obtain ⟨calls, hdrives⟩ := MessageIo.drives_of_run (r := .ok a) hrun
    exact ⟨hJ p io' hp (drives_out hdrives).1, (drives_out hdrives).2 a rfl⟩
  · intro e io' hrun
    obtain ⟨calls, hdrives⟩ := MessageIo.drives_of_run (r := .error (.err e)) hrun
    exact hJ p io' hp (drives_out hdrives).1

/-- Writing, with what it keeps. It ends with the outbound queue empty, and with nothing to write
but what the sink holds up. -/
theorem triple_write_out
    (hJ : ∀ p io, J p → Sinks p.io.stream io.stream → J { p with io := io })
    (hbatch : ∀ p p' batch, p.channels.Wf → J p → protocol_step p (.outbound batch) p' → J p') :
    Triple (fun p => p.channels.Wf ∧ J p) (Protocol.poll_outbound_write : ProtocolMethod X σ Unit)
      (fun _ p => ((p.channels.Wf ∧ J p) ∧ WrittenOut p.io) ∧ p.outbound_rx = [])
      fun _ => True := by
  refine Protocol.triple_poll_outbound_write_last (I := fun p => p.channels.Wf ∧ J p)
    ((triple_io_out fun p io hp hs => ⟨hp.1, hJ p io hp.2 hs⟩).conseq (fun _ h => h)
      (fun _ _ h => h) fun _ _ => trivial)
    fun p batch rest hp hq => ?_
  refine (keeps_of_leaves (E := fun p => p.channels.Wf ∧ J p) fun q p' hq' hl => ?_).conseq
    (fun _ h => h) (fun _ _ h => h) fun _ _ => trivial
  rw [hq'] at hl
  have hstep : protocol_step p (.outbound batch) p' := .outbound hq hl
  exact ⟨protocol_step_wf hp.1.1 hstep, hbatch p p' batch hp.1.1 hp.1.2 hstep⟩

/-- Reading, with what it keeps. It ends when the connection is pending or has ended. -/
theorem triple_read_out
    (hJ : ∀ p, J p →
      J { p with io := { p.io with stream := (CipherTrait.poll_next p.io.stream).2 } })
    (hmsg : ∀ p p' msg, p.channels.Wf → J p → protocol_step p (.inbound msg) p' → J p') (fuel : ℕ) :
    Triple (fun p => p.channels.Wf ∧ J p)
      (Protocol.poll_inbound_read fuel : ProtocolMethod X σ Unit)
      (fun _ p => (p.channels.Wf ∧ J p) ∧ ReadOut p.io.stream) fun _ => True := by
  have hnext : ∀ (p : Protocol X σ) io, p.channels.Wf ∧ J { p with io := io } →
      p.channels.Wf ∧
        J { p with io := { io with stream := (CipherTrait.poll_next io.stream).2 } } :=
    fun p io hio => ⟨hio.1, hJ { p with io := io } hio.2⟩
  refine Protocol.triple_poll_inbound_read_round (D := fun _ p => p.channels.Wf ∧ J p) (fun p => ?_)
    (fun messages => ?_) fuel
  · exact ⟨fun io _ hio _ => hnext p io hio, fun _ _ _ _ => trivial,
      fun io hio hans => ⟨hnext p io hio, io.stream, hans, .refl _⟩,
      fun io _ hio _ => ⟨fun _ _ _ => hnext p io hio, fun _ _ => trivial⟩⟩
  · refine Protocol.triple_channel_messages (D := fun _ p => p.channels.Wf ∧ J p)
      (fun msg _ => (keeps_of_leaves (E := fun p => p.channels.Wf ∧ J p)
        fun p p' hp hl => ?_).conseq (fun _ h => h) (fun _ _ h => h) fun _ _ => trivial) messages
    have hstep : protocol_step p (.inbound msg) p' := .inbound hl
    exact ⟨protocol_step_wf hp.1 hstep, hmsg p p' msg hp.1 hp.2 hstep⟩

/-! ## Pending -/

/-- Nothing is left to go on with: the connection is read out, what is not written is held
up by the sink, and the queues are empty; but an initiator that waits for its handshake
leaves the commands and the events for later. -/
structure Drained (p : Protocol X σ) : Prop where
  read : ReadOut p.io.stream
  written : WrittenOut p.io
  outbound_rx : p.outbound_rx = []
  rest : (p.is_initiator = true ∧ p.io.handshake_hash = none) ∨
    (p.command_rx = [] ∧ p.queued_events = [])

/-- The handlers of messages leave what is to be written and sent, so that reading after writing
spoils nothing. -/
theorem inbound_frame {msg : ChannelMessage X} (hm : p.channels.Wf)
    (h : protocol_step p (.inbound msg) p') :
    p'.io = p.io ∧ p'.outbound_rx = p.outbound_rx ∧ p'.is_initiator = p.is_initiator := by
  obtain ⟨result, heff⟩ := inbound_effect hm h
  exact ⟨heff.io, heff.frame.outbound_rx, heff.frame.is_initiator⟩

theorem outbound_frame {batch : List (ChannelMessage X)} (hm : p.channels.Wf)
    (h : protocol_step p (.outbound batch) p') :
    p'.io.stream = p.io.stream ∧ p'.command_rx = p.command_rx ∧
      p'.is_initiator = p.is_initiator := by
  obtain ⟨rest, kept, q, -, heff, rfl⟩ := outbound_effect hm h
  exact ⟨heff.frame.stream, heff.frame.command_rx, heff.frame.is_initiator⟩

/-- An initiator that waits has written and read all it could, in this order, and has looked at
nothing else. -/
theorem triple_wait_drained (fuel : ℕ) :
    Triple (fun p : Protocol X σ => p.channels.Wf) (Protocol.poll_handshake fuel)
      (fun wait p => if wait = true then Drained p else p.channels.Wf) fun _ => True := by
  refine triple_bind triple_get fun self => ?_
  by_cases hcond : (self.is_initiator && self.io.handshake_hash.isNone) = true
  · simp only [hcond, if_true]
    have hinit := (Bool.and_eq_true_iff.mp hcond).1
    have hwrite := triple_write_out (J := fun p : Protocol X σ => p.is_initiator = true)
      (fun _ _ hp _ => hp) fun p p' batch hm hp h => (outbound_frame hm h).2.2.trans hp
    have hread := triple_read_out
      (J := fun p : Protocol X σ => (p.is_initiator = true ∧ p.outbound_rx = []) ∧ WrittenOut p.io)
      (fun _ hp => ⟨hp.1, hp.2.pull⟩) (fun p p' msg hm hp h => by
        obtain ⟨hio, hrx, hrole⟩ := inbound_frame hm h
        rw [hio, hrx, hrole]
        exact hp) fuel
    refine triple_bind (hwrite.conseq (fun p hp => ?_) (fun _ _ h => h) fun _ h => h) fun _ =>
      triple_bind (hread.conseq (fun p hp => ?_) (fun _ _ h => h) fun _ h => h) fun _ =>
      triple_bind triple_get fun q => triple_pure fun p hp => ?_
    · exact ⟨hp.2, hp.1 ▸ hinit⟩
    · exact ⟨hp.1.1.1, ⟨hp.1.1.2, hp.2⟩, hp.1.2⟩
    · obtain ⟨rfl, ⟨hm, ⟨hrole, hrx⟩, hwritten⟩, hout⟩ := hp
      split
      · rename_i hnone
        exact ⟨hout, hwritten, hrx, Or.inl ⟨hrole, Option.isNone_iff_eq_none.mp hnone⟩⟩
      · exact hm
  · rw [Bool.not_eq_true] at hcond
    simp only [hcond, Bool.false_eq_true, if_false]
    exact triple_pure fun p hp => hp.2

/-- What a poll leaves when it returns `Pending`, put together from its parts in their order. -/
theorem triple_pending_drained (fuel : ℕ) :
    Triple (fun p : Protocol X σ => p.channels.Wf) (Protocol.poll_next fuel)
      (fun result p => result = .pending → Drained p) fun _ => True := by
  have hread := triple_read_out (X := X) (J := fun _ : Protocol X σ => True) (fun _ _ => trivial)
    (fun _ _ _ _ _ _ => trivial) fuel
  have hcommands : Triple (fun p : Protocol X σ => p.channels.Wf ∧ ReadOut p.io.stream)
      Protocol.poll_commands
      (fun _ p => (p.channels.Wf ∧ ReadOut p.io.stream) ∧ p.command_rx = []) fun _ => True := by
    refine (Protocol.triple_poll_commands fun p c rest hp hq =>
      keeps_of_leaves fun q p' hq' hl => ?_).conseq (fun _ h => h) (fun _ _ h => h)
      fun _ _ => trivial
    rw [hq'] at hl
    have hstep : protocol_step p (.command c) p' := .command hq hl
    exact ⟨protocol_step_wf hp.1 hstep,
      by rw [protocol_step_stream hp.1 hstep fun h => nomatch h]; exact hp.2⟩
  have hsinks : ∀ a b : σ, ReadOut a → Sinks a b → ReadOut b := by
    rintro a b ⟨before, hans, hs⟩ hs'
    exact ⟨before, hans, hs.trans hs'⟩
  have hwrite := triple_write_out
    (J := fun p : Protocol X σ => ReadOut p.io.stream ∧ p.command_rx = [])
    (fun p io hp hs => ⟨hsinks _ _ hp.1 hs, hp.2⟩) fun p p' batch hm hp h => by
      obtain ⟨hstream, hrx, -⟩ := outbound_frame hm h
      rw [hstream, hrx]
      exact hp
  refine Protocol.triple_poll_next (J := fun p => p.channels.Wf) (L := fun p => p.channels.Wf)
    (M := fun p => ((p.channels.Wf ∧ ReadOut p.io.stream ∧ p.command_rx = []) ∧
      WrittenOut p.io) ∧ p.outbound_rx = [])
    ((triple_wait_drained fuel).conseq (fun _ h => h) (fun wait p hp => ?_) fun _ h => h)
    (fun _ _ _ _ _ h => nomatch h) (fun _ hp _ => hp) (fun _ _ _ _ _ h => nomatch h)
    (hread.conseq (fun _ hp => ⟨hp.1, trivial⟩) (fun _ _ h => ⟨h.1.1, h.2⟩) fun _ h => h)
    hcommands (hwrite.conseq (fun _ hp => ⟨hp.1.1, hp.1.2, hp.2⟩) (fun _ _ h => h) fun _ h => h)
    (fun _ _ _ _ _ h => nomatch h) fun p hp hq _ => ?_
  · cases wait with
    | true => exact fun _ => hp
    | false => exact hp
  · obtain ⟨⟨⟨-, hread, hcommands⟩, hwritten⟩, hrx⟩ := hp
    exact ⟨hread, hwritten, hrx, Or.inr ⟨hcommands, hq⟩⟩

/-- `Pending` says that nothing is left to go on with. In every session that is reached by
polls, when a poll returns `Pending`: the connection was asked for frames until it answered
`Pending` or that it has ended; the outbound queue is empty, and what is not written is held
up by the sink, which was not ready or has still to flush; and there is no command and no
event left, but in an initiator that waits for its handshake. -/
theorem pending_drained (hcipher : LawfulCipher σ) {stream : σ}
    {polls : List (Transition (Session X σ) (PollAction X))}
    (run : Run PollStep (Session.new stream) polls s) {fuel : ℕ}
    (h : (Protocol.poll_next fuel).run s.protocol = .ok .pending p) : Drained p := by
  obtain ⟨tr, run'⟩ := poll_reachable hcipher run
  exact (triple_pending_drained fuel s.protocol (reachable_inv run').wf).1 _ p h rfl

/-- The poll returns `Pending`. -/
def comes_back_pending (fuel : ℕ) (p : Protocol X σ) : Bool :=
  match (Protocol.poll_next fuel).run p with
  | .ok .pending _ => true
  | _ => false

theorem pending_of_comes_back {fuel : ℕ} (h : comes_back_pending fuel p = true) :
    ∃ p', (Protocol.poll_next fuel).run p = .ok .pending p' := by
  rw [comes_back_pending] at h
  split at h
  · rename_i p' hrun
    exact ⟨p', hrun⟩
  · cases h

/-- The application asks for a key and gets the handshake; the next poll writes the `Open`. -/
theorem pending_drained_opened : ∃ polls, ∃ s : Session deps Memory, ∃ p,
    Run PollStep (Session.new (Memory.connected true)) polls s ∧
    s.protocol.command_rx = [.Open (sample 1)] ∧
    (Protocol.poll_next 2).run s.protocol = .ok .pending p ∧ Drained p := by
  have hcomputed : ((calls (X := deps) (Session.new (Memory.connected true))
      [.command (.Open (sample 1)), .poll 2]).any fun r =>
        decide (r.2.protocol.command_rx = [.Open (sample 1)]) &&
        comes_back_pending 2 r.2.protocol) = true := by
    decide +kernel
  obtain ⟨⟨polls, s⟩, hcalls, hfinal⟩ := (Option.any_eq_true _ _).mp hcomputed
  rw [Bool.and_eq_true, decide_eq_true_eq] at hfinal
  obtain ⟨p, hpoll⟩ := pending_of_comes_back hfinal.2
  exact ⟨polls, s, p, calls_run hcalls, hfinal.1, hpoll,
    pending_drained memory_lawful (calls_run hcalls) hpoll⟩

/-! ## What an event costs -/

variable {B : Backlog σ} {n : ℕ}

/-- What there is for polls to use up, besides the queue of events: the backlog of the
connection, the commands and batches that wait, and the handshake event. -/
def work (B : Backlog σ) (p : Protocol X σ) : ℕ :=
  B.size p.io.stream + p.command_rx.length + p.outbound_rx.length +
    if p.handshake_emitted then 0 else 1

/-- Less than the work of `p₀` is left, or as much, and then the queue of events is the same
too. -/
def Worked (B : Backlog σ) (p₀ p : Protocol X σ) : Prop :=
  p.channels.Wf ∧
    (work B p < work B p₀ ∨ work B p = work B p₀ ∧ p.queued_events = p₀.queued_events)

theorem Worked.le {p₀ : Protocol X σ} (h : Worked B p₀ p) : work B p ≤ work B p₀ := by
  rcases h.2 with h | h
  · exact Nat.le_of_lt h
  · exact Nat.le_of_eq h.1

theorem work_command (hm : p.channels.Wf) {c : Command} (h : protocol_step p (.command c) p') :
    work B p' < work B p := by
  obtain ⟨rest, result, hq, heff⟩ := command_effect hm h
  have hrx : p'.command_rx = rest := heff.frame.command_rx
  have hout : p'.outbound_rx = p.outbound_rx := heff.frame.outbound_rx
  have hstream : p'.io.stream = p.io.stream := heff.frame.stream
  have hemitted : p'.handshake_emitted = p.handshake_emitted := heff.frame.handshake_emitted
  rw [work, work, hrx, hout, hstream, hemitted, hq, List.length_cons]
  omega

theorem work_outbound (hm : p.channels.Wf) {batch : List (ChannelMessage X)}
    (h : protocol_step p (.outbound batch) p') : work B p' < work B p := by
  obtain ⟨rest, kept, q, hq, heff, rfl⟩ := outbound_effect hm h
  have hrx : q.command_rx = p.command_rx := heff.frame.command_rx
  have hout : q.outbound_rx = rest := heff.frame.outbound_rx
  have hstream : q.io.stream = p.io.stream := heff.frame.stream
  have hemitted : q.handshake_emitted = p.handshake_emitted := heff.frame.handshake_emitted
  rw [work, work, hq, List.length_cons]
  dsimp only
  rw [hrx, hout, hstream, hemitted]
  omega

theorem work_inbound (hm : p.channels.Wf) {msg : ChannelMessage X}
    (h : protocol_step p (.inbound msg) p') : work B p' = work B p := by
  obtain ⟨result, heff⟩ := inbound_effect hm h
  rw [work, work, heff.frame.command_rx, heff.frame.outbound_rx, heff.frame.stream,
    heff.frame.handshake_emitted]

/-- A connection that has no more to give than before. -/
theorem work_stream {io : MessageIo X σ} (h : B.size io.stream ≤ B.size p.io.stream) :
    work B { p with io := io } ≤ work B p := by
  rw [work, work]
  dsimp only
  omega

theorem Worked.stream {p₀ : Protocol X σ} {io : MessageIo X σ} (hp : Worked B p₀ p)
    (h : B.size io.stream ≤ B.size p.io.stream) : Worked B p₀ { p with io := io } := by
  refine ⟨hp.1, ?_⟩
  have hle := work_stream (p := p) h
  rcases hp.2 with hless | ⟨heq, hq⟩
  · exact Or.inl (by omega)
  · by_cases hw : work B { p with io := io } < work B p₀
    · exact Or.inl hw
    · exact Or.inr ⟨by omega, hq⟩

/-- What is done with the things that a poll finds is work: each handler takes something from its
queue. -/
theorem Worked.done {p₀ : Protocol X σ} {move : Move X} (hp : Worked B p₀ p)
    (h : protocol_step p move p') (hless : work B p' < work B p) : Worked B p₀ p' :=
  ⟨protocol_step_wf hp.1 h, Or.inl (Nat.lt_of_lt_of_le hless hp.le)⟩

theorem keeps_worked_write (p₀ : Protocol X σ) :
    Keeps (Worked B p₀) (Protocol.poll_outbound_write : ProtocolMethod X σ Unit) := by
  refine (Protocol.triple_poll_outbound_write (Protocol.keeps_on_io fun p =>
    MessageIo.keeps_poll_outbound ⟨?_, ?_, ?_⟩) fun p batch rest hp hq =>
      keeps_of_leaves fun q p' hq' hl => ?_).conseq (fun _ h => h) (fun _ _ h => h.1) fun _ h => h
  · exact fun io hio => hio.stream (p := { p with io := io }) (B.poll_ready io.stream)
  · exact fun io hio => hio.stream (p := { p with io := io }) (B.poll_flush io.stream)
  · exact fun io _ write_queue hio _ _ =>
      ⟨fun buf _ => hio.stream (p := { p with io := io }) (B.start_send io.stream buf),
        fun _ _ => (hio.stream (p := { p with io := io }) (Nat.le_refl _) :
          Worked B p₀ { p with io := ⟨io.stream, write_queue⟩ })⟩
  · rw [hq'] at hl
    have hstep : protocol_step p (.outbound batch) p' := .outbound hq hl
    exact hp.done hstep (work_outbound hp.1 hstep)

theorem keeps_worked_commands (p₀ : Protocol X σ) :
    Keeps (Worked B p₀) (Protocol.poll_commands : ProtocolMethod X σ Unit) := by
  refine (Protocol.triple_poll_commands fun p c rest hp hq =>
    keeps_of_leaves fun q p' hq' hl => ?_).conseq (fun _ h => h) (fun _ _ h => h.1) fun _ h => h
  rw [hq'] at hl
  have hstep : protocol_step p (.command c) p' := .command hq hl
  exact hp.done hstep (work_command hp.1 hstep)

/-- With a message in hand, the connection has less to give than before. -/
theorem keeps_worked_read (p₀ : Protocol X σ) (fuel : ℕ) :
    Keeps (Worked B p₀) (Protocol.poll_inbound_read fuel : ProtocolMethod X σ Unit) := by
  refine Protocol.keeps_poll_inbound_read
    (D := fun _ p => p.channels.Wf ∧ work B p < work B p₀) (fun p => ⟨?_, ?_⟩)
    (Protocol.triple_on_inbound_channel_messages (fun msg _ => ?_)
      fun _ hp => ⟨hp.1, Or.inl hp.2⟩) fuel
  · exact fun io hio _ => hio.stream (p := { p with io := io }) (B.poll_next io.stream)
  · intro io bs hio hbs
    have hless := B.event io.stream _ hbs
    refine ⟨fun _ _ _ => ⟨hio.1, ?_⟩,
      fun _ _ => hio.stream (p := { p with io := io }) (B.poll_next io.stream)⟩
    have hle := hio.le
    rw [work] at hle ⊢
    dsimp only at hle ⊢
    omega
  · refine (keeps_of_leaves (E := fun p => p.channels.Wf ∧ work B p < work B p₀)
      fun p p' hp hl => ?_).conseq (fun _ h => h) (fun _ _ h => h) fun _ h => ⟨h.1, Or.inl h.2⟩
    have hstep : protocol_step p (.inbound msg) p' := .inbound hl
    exact ⟨protocol_step_wf hp.1 hstep, by rw [work_inbound hp.1 hstep]; exact hp.2⟩

/-- Less work, or as much and fewer events. In this order polls cannot go on for ever. -/
def Fewer (B : Backlog σ) (p₀ p : Protocol X σ) : Prop :=
  work B p < work B p₀ ∨
    work B p = work B p₀ ∧ p.queued_events.length < p₀.queued_events.length

/-- A poll that returns an event has used something up: the event itself, or what led to it. -/
theorem triple_fewer (p₀ : Protocol X σ) (fuel : ℕ) :
    Triple (Worked B p₀) (Protocol.poll_next fuel)
      (fun result p => result ≠ .pending → Fewer B p₀ p) fun _ => True := by
  have hread := keeps_worked_read (B := B) p₀ fuel
  have hwrite := keeps_worked_write (B := B) p₀
  have hevent : ∀ p e rest, Worked B p₀ p → p.queued_events = e :: rest →
      (Poll.ready e ≠ .pending → Fewer B p₀ { p with queued_events := rest }) := by
    intro p e rest hp hq _
    rcases hp.2 with hless | ⟨heq, hsame⟩
    · exact Or.inl hless
    · refine Or.inr ⟨heq, ?_⟩
      rw [← hsame, hq]
      exact Nat.lt_succ_self _
  have hwait : Triple (Worked B p₀) (Protocol.poll_handshake fuel : ProtocolMethod X σ Bool)
      (fun wait p => if wait = true then ((.pending : Poll Event) ≠ .pending → Fewer B p₀ p)
        else Worked B p₀ p) fun _ => True := by
    refine (Protocol.keeps_handshake_wait hwrite hread).conseq (fun _ hp => hp)
      (fun wait p hp => ?_) fun _ _ => trivial
    cases wait with
    | true => exact fun h => absurd rfl h
    | false => exact hp
  refine Protocol.triple_poll_next hwait (fun p key hp hemitted _ _ => ?_) (fun _ hp _ => hp)
    hevent (hread.conseq (fun _ hp => hp.1) (fun _ _ h => h) fun _ _ => trivial)
    ((keeps_worked_commands p₀).conseq (fun _ h => h) (fun _ _ h => h) fun _ _ => trivial)
    (hwrite.conseq (fun _ h => h) (fun _ _ h => h) fun _ _ => trivial) hevent
    fun _ _ _ h => absurd rfl h
  have hle := hp.le
  left
  rw [work, hemitted] at hle
  rw [work]
  dsimp only at hle ⊢
  simp only [Bool.false_eq_true, if_false, if_true] at hle ⊢
  omega

/-! ## An application that polls -/

theorem keeps_within_poll (hcipher : MessageCipher σ) (p₀ : Protocol X σ) (fuel : ℕ) :
    Keeps (Within p₀ B (n + 1)) (Protocol.poll_next fuel) := by
  have hread : Keeps (Within p₀ B (n + 1)) (Protocol.poll_inbound_read fuel) :=
    keeps_within_read (X := X) hcipher fuel
  have hwrite : Keeps (Within p₀ B (n + 1)) Protocol.poll_outbound_write :=
    keeps_within_write (X := X) hcipher
  refine Protocol.keeps_poll_next (Protocol.keeps_handshake_wait hwrite hread)
    (fun p key hp hemitted hkey => ?_) (fun p e rest hp hq => ?_) hread keeps_within_commands hwrite
  · exact hp.step (.handshake hemitted hkey) (fun h => nomatch h) (fun _ h => nomatch h)
  · exact hp.step (.event hq) (fun h => nomatch h) (fun _ h => nomatch h)

/-- What the last poll does: it returns `Pending` with nothing left, or an error, or it does
not come back, for one of the causes that there are. -/
def Settles (fuel : ℕ) (p : Protocol X σ) : Prop :=
  (∃ p', (Protocol.poll_next fuel).run p = .ok .pending p' ∧ Drained p') ∨
  (∃ e p', (Protocol.poll_next fuel).run p = .error (.err e) p') ∨
  ∃ (a : Abort) (p' : Protocol X σ), (Protocol.poll_next fuel).run p = .error a.fault p' ∧ Halts p a

/-- Every poll of the run returned an event, so that the application has reason to poll again. -/
def AllEvents (polls : List (Transition (Session X σ) (PollAction X))) : Prop :=
  ∀ t ∈ polls, ∃ e, t.act = .poll (.ok (.ready e))

theorem settles_of_sound (hX : X.Lawful) (halloc : X.AllocatesOrPanics) (hshortens : X.Shortens)
    (hcipher : MessageCipher σ) (hshort : ShortHash σ) (k : ℕ) (hs : Sound s.protocol)
    (hsize : B.size s.protocol.io.stream < k + 1) :
    ∃ polls s', Run PollStep s polls s' ∧ AllEvents polls ∧ Settles (k + 1) s'.protocol := by
  -- the induction is on the work that is left, and on the events when no work is done
  induction hw : work B s.protocol using Nat.strong_induction_on generalizing s with
  | _ w ihw =>
    induction hl : s.protocol.queued_events.length using Nat.strong_induction_on
      generalizing s with
    | _ l ihl =>
      have hstart : Within s.protocol B (k + 1) s.protocol := within_self hs hsize
      rcases (poll_next_ends hX halloc hshortens hcipher hshort k).cases hstart with
        ⟨result, p, hrun⟩ | herr | hhalts
      · cases result with
        | pending =>
          exact ⟨[], s, .nil, fun _ h => absurd h List.not_mem_nil, Or.inl ⟨p, hrun,
            (triple_pending_drained _ _ hs.wf).1 _ p hrun rfl⟩⟩
        | ready e =>
          have hp := (keeps_within_poll hcipher s.protocol _ _ hstart).1 _ p hrun
          have hrest : ∃ polls s', Run PollStep (s.polled p (given (.ready e))) polls s' ∧
              AllEvents polls ∧ Settles (k + 1) s'.protocol := by
            rcases (triple_fewer s.protocol (k + 1) s.protocol
              ⟨hs.wf, Or.inr ⟨rfl, rfl⟩⟩).1 _ p hrun (fun h => nomatch h) with hless | ⟨heq, hless⟩
            · exact ihw _ (hw ▸ hless) hp.sound hp.size rfl
            · exact ihl _ (hl ▸ hless) hp.sound hp.size (heq.trans hw) rfl
          obtain ⟨polls, s', run, hall, hsettles⟩ := hrest
          refine ⟨_, s', (Run.nil.snoc (.poll hrun)).append run, ?_, hsettles⟩
          exact List.forall_mem_append.mpr ⟨List.forall_mem_singleton.mpr ⟨e, rfl⟩, hall⟩
      · exact ⟨[], s, .nil, fun _ h => absurd h List.not_mem_nil, Or.inr (Or.inl herr)⟩
      · exact ⟨[], s, .nil, fun _ h => absurd h List.not_mem_nil, Or.inr (Or.inr hhalts)⟩

end hypercore_protocol.session
