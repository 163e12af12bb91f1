/-
What `poll_outbound` does with the sink of its connection.

A call of `poll_outbound` is a sequence of calls on the sink, each with an answer, and
`Drives` is what such a call can be: one constructor for every way a round of the loop
ends. The loop is this relation (`poll_outbound_drives`), and since every round but the
last takes a frame off the write queue, it ends.

To speak about what the sink was asked and what it answered, over any number of calls,
a connection is wrapped into one that writes its calls down, `Logged`. It behaves as the
connection does (`Drives.erase`), and the answers are the connection's own, so that
statements about every logged connection are statements about every behaviour of a sink.
-/
import HypercoreProtocol.Mqueue
import HypercoreProtocol.FrameSpec

set_option autoImplicit false

namespace hypercore_protocol.mqueue

open Rust Wire message

variable {X : Deps} {σ : Type}

/-! ## Frames off the queue -/

/-- A frame and what stays are the queue: `next_frame` only cuts it in two. -/
theorem next_frame_append (messages write_queue : List (ChannelMessage X)) :
    (next_frame messages write_queue).1 ++ (next_frame messages write_queue).2
      = messages ++ write_queue := by
  induction write_queue generalizing messages with
  | nil => rfl
  | cons front write_queue ih =>
    rw [next_frame]
    split
    · rfl
    · split
      · rw [List.append_assoc, List.singleton_append]
      · rw [ih, List.append_assoc, List.singleton_append]

/-- What is left of the queue is a suffix of it, so that nothing behind a frame is touched. -/
theorem next_frame_suffix {write_queue messages rest : List (ChannelMessage X)}
    (h : next_frame [] write_queue = (messages, rest)) : rest <:+ write_queue := by
  have happend := next_frame_append [] write_queue
  rw [h] at happend
  exact ⟨messages, happend⟩

/-- A frame is a single message, or it has no `Open` and no `Close`. This is the condition under
which the encoder writes what the decoder can tell apart. -/
theorem next_frame_shape (messages write_queue : List (ChannelMessage X))
    (hmessages : ∀ msg ∈ messages, msg.message.is_open_or_close = false) :
    (∃ msg, (next_frame messages write_queue).1 = [msg]) ∨
      ∀ msg ∈ (next_frame messages write_queue).1, msg.message.is_open_or_close = false := by
  induction write_queue generalizing messages with
  | nil => exact Or.inr hmessages
  | cons front write_queue ih =>
    rw [next_frame]
    split
    · exact Or.inr hmessages
    · rename_i hmore
      split
      · rename_i hfront
        rw [hfront, Bool.true_and, Bool.not_eq_true, Bool.not_eq_false', List.isEmpty_iff] at hmore
        subst hmore
        exact Or.inl ⟨front, rfl⟩
      · rename_i hfront
        refine ih _ fun msg hmsg => ?_
        rcases List.mem_append.mp hmsg with hmsg | hmsg
        · exact hmessages msg hmsg
        · rw [List.mem_singleton.mp hmsg]
          exact Bool.eq_false_iff.mpr hfront

/-- A queue that is not empty gives a frame that is not empty, so that every round makes
progress. -/
theorem next_frame_ne_nil {write_queue : List (ChannelMessage X)} (hne : write_queue ≠ []) :
    (next_frame [] write_queue).1 ≠ [] := by
  have hgrows : ∀ messages : List (ChannelMessage X), messages ≠ [] → ∀ write_queue,
      (next_frame messages write_queue).1 ≠ [] := by
    intro messages hmessages write_queue
    induction write_queue generalizing messages with
    | nil => exact hmessages
    | cons front write_queue ih =>
      rw [next_frame]
      split
      · exact hmessages
      · split
        · exact List.append_ne_nil_of_left_ne_nil hmessages _
        · exact ih _ (List.append_ne_nil_of_left_ne_nil hmessages _)
  obtain ⟨front, rest, rfl⟩ := List.exists_cons_of_ne_nil hne
  rw [next_frame]
  split
  · rename_i hmore
    exact absurd hmore (by simp)
  · split
    · exact List.cons_ne_nil _ _
    · exact hgrows _ (List.cons_ne_nil _ _) rest

/-- What `poll_outbound` puts into one frame: something, and an `Open` or a `Close` alone. Frames
of data may be of any length and any mix of channels. -/
def IsFrame (messages : List (ChannelMessage X)) : Prop :=
  messages ≠ [] ∧
    ∀ msg ∈ messages, msg.message.is_open_or_close = true → messages = [msg]

theorem next_frame_is_frame {write_queue : List (ChannelMessage X)} (hne : write_queue ≠ []) :
    IsFrame (next_frame [] write_queue).1 := by
  refine ⟨next_frame_ne_nil hne, fun msg hmsg hopen => ?_⟩
  rcases next_frame_shape [] write_queue fun _ hm => absurd hm List.not_mem_nil with
    ⟨msg', heq⟩ | hall
  · rw [heq] at hmsg ⊢
    rw [List.mem_singleton.mp hmsg]
  · exact absurd hopen (by rw [hall msg hmsg]; exact Bool.false_ne_true)

theorem next_frame_shorter {write_queue : List (ChannelMessage X)} (hne : write_queue ≠ []) :
    (next_frame [] write_queue).2.length < write_queue.length := by
  have hpos := List.length_pos_iff.mpr (next_frame_ne_nil hne)
  have hlen := congrArg List.length (next_frame_append [] write_queue)
  rw [List.length_append, List.nil_append] at hlen
  omega

/-! ## Calls on a sink -/

/-- A call on the sink of a connection, and what it answered. Claims about the sink are about
sequences of these. -/
inductive SinkCall where
  | poll_ready (answer : Poll (Except IoError Unit))
  | start_send (frame : Bytes) (answer : Except IoError Unit)
  | poll_flush (answer : Poll (Except IoError Unit))

/-- The error a call answered with, if it did. Each of the three operations has its own shape of
failing. -/
def SinkCall.error : SinkCall → Option IoError
  | .poll_ready (.ready (.error e)) => some e
  | .start_send _ (.error e) => some e
  | .poll_flush (.ready (.error e)) => some e
  | _ => none

/-- The frames that were passed to `start_send`, whether they were accepted or not. -/
def sent (calls : List SinkCall) : List Bytes :=
  calls.filterMap fun call =>
    match call with
    | .start_send frame _ => some frame
    | _ => none

@[simp] theorem sent_append (l r : List SinkCall) : sent (l ++ r) = sent l ++ sent r :=
  List.filterMap_append

/-- A connection whose sink writes its calls down. It behaves as the connection in it, so that
histories of the sink can be spoken of without a change to the model. -/
structure Logged (σ : Type) where
  stream : σ
  calls : List SinkCall

variable [CipherTrait σ]

instance : CipherTrait (Logged σ) where
  is_initiator self := CipherTrait.is_initiator self.stream
  local_public_key self := CipherTrait.local_public_key self.stream
  remote_public_key self := CipherTrait.remote_public_key self.stream
  handshake_hash self := CipherTrait.handshake_hash self.stream
  poll_next self :=
    ((CipherTrait.poll_next self.stream).1,
      { self with stream := (CipherTrait.poll_next self.stream).2 })
  poll_ready self :=
    ((CipherTrait.poll_ready self.stream).1, ⟨(CipherTrait.poll_ready self.stream).2,
      self.calls ++ [.poll_ready (CipherTrait.poll_ready self.stream).1]⟩)
  start_send self frame :=
    ((CipherTrait.start_send self.stream frame).1, ⟨(CipherTrait.start_send self.stream frame).2,
      self.calls ++ [.start_send frame (CipherTrait.start_send self.stream frame).1]⟩)
  poll_flush self :=
    ((CipherTrait.poll_flush self.stream).1, ⟨(CipherTrait.poll_flush self.stream).2,
      self.calls ++ [.poll_flush (CipherTrait.poll_flush self.stream).1]⟩)

namespace MessageIo

/-! ## One call of `poll_outbound` -/

/-- The connection after `poll_ready`, the first call of every round. -/
def readied (io : MessageIo X σ) : σ := (CipherTrait.poll_ready io.stream).2

/-- The frame a round takes off the queue, if it gets that far. -/
def frame (io : MessageIo X σ) : List (ChannelMessage X) := (next_frame [] io.write_queue).1

/-- What the round leaves in the queue. It stays so even if the frame is not encoded or not
sent. -/
def behind (io : MessageIo X σ) : List (ChannelMessage X) := (next_frame [] io.write_queue).2

/-- The connection after the frame was passed on as `buf`, whatever `start_send` has answered. -/
def passed (io : MessageIo X σ) (buf : Bytes) : σ := (CipherTrait.start_send io.readied buf).2

/-- The message layer after that was flushed, whatever the flush has answered. -/
def flushed (io : MessageIo X σ) (buf : Bytes) : MessageIo X σ :=
  ⟨(CipherTrait.poll_flush (io.passed buf)).2, io.behind⟩

/-- The round got as far as passing on a frame: the sink was ready, and the frame at the
front of the queue was encoded as `buf`. -/
structure Passes (io : MessageIo X σ) (buf : Bytes) : Prop where
  ready : (CipherTrait.poll_ready io.stream).1 = .ready (.ok ())
  queue : io.write_queue ≠ []
  encoded : to_encoded_bytes io.frame = .ok buf

/-- Started with the flag `pending`, the rounds of `poll_outbound` make these calls on the
sink, answer with the result, and leave the last state. -/
inductive Drives : Bool → MessageIo X σ → List SinkCall → Res IoError (Poll Unit) →
    MessageIo X σ → Prop where
  | not_ready {pending : Bool} {io : MessageIo X σ}
      (h : (CipherTrait.poll_ready io.stream).1 ≠ .ready (.ok ())) :
      Drives pending io [.poll_ready (CipherTrait.poll_ready io.stream).1]
        (.ok (if pending then .pending else .ready ())) { io with stream := io.readied }
  | done {pending : Bool} {io : MessageIo X σ}
      (h : (CipherTrait.poll_ready io.stream).1 = .ready (.ok ())) (hq : io.write_queue = []) :
      Drives pending io [.poll_ready (.ready (.ok ()))] (.ok (.ready ()))
        { io with stream := io.readied }
  | unencoded {pending : Bool} {io : MessageIo X σ} {f : Fault IoError}
      (h : (CipherTrait.poll_ready io.stream).1 = .ready (.ok ())) (hq : io.write_queue ≠ [])
      (hf : map_err X.into_io_error (to_encoded_bytes io.frame) = .error f) :
      Drives pending io [.poll_ready (.ready (.ok ()))] (.error f) ⟨io.readied, io.behind⟩
  | unsent {pending : Bool} {io : MessageIo X σ} {buf : Bytes} {e : IoError}
      (h : io.Passes buf) (hsend : (CipherTrait.start_send io.readied buf).1 = .error e) :
      Drives pending io [.poll_ready (.ready (.ok ())), .start_send buf (.error e)]
        (.error (.err e)) ⟨io.passed buf, io.behind⟩
  | unflushed {pending : Bool} {io : MessageIo X σ} {buf : Bytes} {e : IoError}
      (h : io.Passes buf) (hsend : (CipherTrait.start_send io.readied buf).1 = .ok ())
      (hflush : (CipherTrait.poll_flush (io.passed buf)).1 = .ready (.error e)) :
      Drives pending io [.poll_ready (.ready (.ok ())), .start_send buf (.ok ()),
        .poll_flush (.ready (.error e))] (.error (.err e)) (io.flushed buf)
  | flushing {pending : Bool} {io : MessageIo X σ} {buf : Bytes}
      (h : io.Passes buf) (hsend : (CipherTrait.start_send io.readied buf).1 = .ok ())
      (hflush : (CipherTrait.poll_flush (io.passed buf)).1 = .pending) :
      Drives pending io [.poll_ready (.ready (.ok ())), .start_send buf (.ok ()),
        .poll_flush .pending] (.ok .pending) (io.flushed buf)
  | round {pending : Bool} {io io' : MessageIo X σ} {buf : Bytes} {calls : List SinkCall}
      {r : Res IoError (Poll Unit)} (h : io.Passes buf)
      (hsend : (CipherTrait.start_send io.readied buf).1 = .ok ())
      (hflush : (CipherTrait.poll_flush (io.passed buf)).1 = .ready (.ok ()))
      (hrest : Drives false (io.flushed buf) calls r io') :
      Drives pending io ([.poll_ready (.ready (.ok ())), .start_send buf (.ok ()),
        .poll_flush (.ready (.ok ()))] ++ calls) r io'

/-- The result of a method, from what it answered and the state it left. A state is left in
either case. -/
def ends {τ α : Type} (r : Res IoError α) (t : τ) : EStateM.Result (Fault IoError) τ α :=
  match r with
  | .ok a => .ok a t
  | .error f => .error f t

/-- From every state the rounds are of one of these kinds, for as long as it takes. The
induction is on the length of the queue: a round that goes on has taken a frame off. -/
theorem exists_drives (pending : Bool) (io : MessageIo X σ) :
    ∃ calls r io', Drives pending io calls r io' := by
  induction hn : io.write_queue.length using Nat.strong_induction_on generalizing pending io with
  | _ n ih =>
    by_cases hready : (CipherTrait.poll_ready io.stream).1 = .ready (.ok ())
    · by_cases hq : io.write_queue = []
      · exact ⟨_, _, _, .done hready hq⟩
      cases henc : map_err X.into_io_error (to_encoded_bytes io.frame) with
      | error f => exact ⟨_, _, _, .unencoded hready hq henc⟩
      | ok buf =>
        have hp : io.Passes buf := ⟨hready, hq, map_err_eq_ok henc⟩
        cases hsend : (CipherTrait.start_send io.readied buf).1 with
        | error e => exact ⟨_, _, _, .unsent hp hsend⟩
        | ok _ =>
          match hflush : (CipherTrait.poll_flush (io.passed buf)).1 with
          | .pending => exact ⟨_, _, _, .flushing hp hsend hflush⟩
          | .ready (.error e) => exact ⟨_, _, _, .unflushed hp hsend hflush⟩
          | .ready (.ok _) =>
            have hshort : (io.flushed buf).write_queue.length < n := hn ▸ next_frame_shorter hq
            obtain ⟨calls, r, io', h⟩ := ih _ hshort false (io.flushed buf) rfl
            exact ⟨_, r, io', .round hp hsend hflush h⟩
    · exact ⟨_, _, _, .not_ready hready⟩

omit [CipherTrait σ] in
theorem run_on_stream {α : Type} (op : σ → α × σ) (io : MessageIo X σ) :
    (on_stream op : IoMethod X σ α).run io
      = .ok (op io.stream).1 { io with stream := (op io.stream).2 } := rfl

/-- A round whose sink is ready, up to the encoded frame. What follows depends on the answers of
the sink and is left as it stands in the loop. -/
theorem run_ready {pending : Bool} {io : MessageIo X σ} {fuel : ℕ}
    (h : (CipherTrait.poll_ready io.stream).1 = .ready (.ok ())) (hq : io.write_queue ≠ []) :
    (poll_outbound_loop pending (fuel + 1)).run io =
      (do
        let buf ← Method.lift (map_err X.into_io_error (to_encoded_bytes io.frame))
        match ← on_stream (CipherTrait.start_send · buf) with
        | .error e => throw (.err e)
        | .ok () => do
          match ← on_stream CipherTrait.poll_flush with
          | .ready (.error e) => throw (.err e)
          | .pending => return .pending
          | .ready (.ok ()) => poll_outbound_loop false fuel :
        IoMethod X σ (Poll Unit)).run ⟨io.readied, io.behind⟩ := by
  have hne : ¬ io.write_queue.isEmpty = true := fun h => hq (List.isEmpty_iff.mp h)
  rw [poll_outbound_loop, EStateM.run_bind, run_on_stream]
  dsimp only
  rw [h]
  dsimp only
  rw [EStateM.run_bind, EStateM.run_get]
  dsimp only
  rw [if_neg hne]
  rfl

/-- A round that passed a frame on, up to the answer of the flush, on which alone the rest
depends. -/
theorem run_sent {pending : Bool} {io : MessageIo X σ} {buf : Bytes} {fuel : ℕ}
    (h : io.Passes buf) (hsend : (CipherTrait.start_send io.readied buf).1 = .ok ()) :
    (poll_outbound_loop pending (fuel + 1)).run io =
      (match (CipherTrait.poll_flush (io.passed buf)).1 with
        | .ready (.error e) => throw (.err e)
        | .pending => pure .pending
        | .ready (.ok ()) => poll_outbound_loop false fuel :
        IoMethod X σ (Poll Unit)).run (io.flushed buf) := by
  rw [run_ready h.ready h.queue, h.encoded, map_err_ok, EStateM.run_bind, Method.run_lift_ok]
  dsimp only
  rw [EStateM.run_bind, run_on_stream]
  dsimp only
  rw [hsend]
  rfl

/-- The loop does what its rounds say, when its fuel is more than the queue is long. The
induction is on the rounds. -/
theorem Drives.run {pending : Bool} {io io' : MessageIo X σ} {calls : List SinkCall}
    {r : Res IoError (Poll Unit)} (h : Drives pending io calls r io') {fuel : ℕ}
    (hfuel : io.write_queue.length < fuel) :
    (poll_outbound_loop pending fuel).run io = ends r io' := by
  induction h generalizing fuel with
  -- the source leaves the loop alike when the sink is not ready and when it fails
  | @not_ready pending io h =>
    obtain ⟨fuel, rfl⟩ : ∃ k, fuel = k + 1 := ⟨fuel - 1, by omega⟩
    rw [poll_outbound_loop, EStateM.run_bind, run_on_stream]
    dsimp only
    match hans : (CipherTrait.poll_ready io.stream).1 with
    | .pending => rfl
    | .ready (.error e) => rfl
    | .ready (.ok ()) => exact absurd hans h
  | @done pending io h hq =>
    obtain ⟨fuel, rfl⟩ : ∃ k, fuel = k + 1 := ⟨fuel - 1, by omega⟩
    rw [poll_outbound_loop, EStateM.run_bind, run_on_stream]
    dsimp only
    rw [h]
    dsimp only
    rw [EStateM.run_bind, EStateM.run_get]
    dsimp only
    rw [hq]
    rfl
  | unencoded h hq hf =>
    obtain ⟨fuel, rfl⟩ : ∃ k, fuel = k + 1 := ⟨fuel - 1, by omega⟩
    rw [run_ready h hq, hf]
    rfl
  | unsent h hsend =>
    obtain ⟨fuel, rfl⟩ : ∃ k, fuel = k + 1 := ⟨fuel - 1, by omega⟩
    rw [run_ready h.ready h.queue, h.encoded, map_err_ok, EStateM.run_bind, Method.run_lift_ok]
    dsimp only
    rw [EStateM.run_bind, run_on_stream]
    dsimp only
    rw [hsend]
    rfl
  | unflushed h hsend hflush =>
    obtain ⟨fuel, rfl⟩ : ∃ k, fuel = k + 1 := ⟨fuel - 1, by omega⟩
    rw [run_sent h hsend, hflush]
    rfl
  | flushing h hsend hflush =>
    obtain ⟨fuel, rfl⟩ : ∃ k, fuel = k + 1 := ⟨fuel - 1, by omega⟩
    rw [run_sent h hsend, hflush]
    rfl
  | @round pending io io' buf calls r h hsend hflush hrest ih =>
    obtain ⟨fuel, rfl⟩ : ∃ k, fuel = k + 1 := ⟨fuel - 1, by omega⟩
    -- a frame takes at least one message, so a unit of fuel a round is enough
    have hshort : (io.flushed buf).write_queue.length < io.write_queue.length :=
      next_frame_shorter h.queue
    rw [run_sent h hsend, hflush]
    exact ih (by omega)

/-- Every call of `poll_outbound` is a sequence of calls on the sink, with a result. So what is
shown of `Drives` by induction holds of every call. -/
theorem poll_outbound_drives (io : MessageIo X σ) :
    ∃ calls r io', Drives true io calls r io' ∧
      (poll_outbound : IoMethod X σ (Poll Unit)).run io = ends r io' := by
  obtain ⟨calls, r, io', h⟩ := exists_drives true io
  exact ⟨calls, r, io', h, h.run (Nat.lt_succ_self _)⟩

theorem drives_of_run {io io' : MessageIo X σ} {r : Res IoError (Poll Unit)}
    (h : (poll_outbound : IoMethod X σ (Poll Unit)).run io = ends r io') :
    ∃ calls, Drives true io calls r io' := by
  obtain ⟨calls, r', io'', hdrives, hrun⟩ := poll_outbound_drives io
  rw [hrun] at h
  cases r with
  | ok a =>
    cases r' with
    | ok a' =>
      injection h with ha hio
      exact ⟨calls, ha ▸ hio ▸ hdrives⟩
    | error f => cases h
  | error f =>
    cases r' with
    | ok a' => cases h
    | error f' =>
      injection h with hf hio
      exact ⟨calls, hf ▸ hio ▸ hdrives⟩

/-! ## The log -/

/-- The message layer over the connection itself, the log being forgotten. -/
def erase (io : MessageIo X (Logged σ)) : MessageIo X σ := ⟨io.stream.stream, io.write_queue⟩

theorem readied_calls {io : MessageIo X (Logged σ)} {answer : Poll (Except IoError Unit)}
    (h : (CipherTrait.poll_ready io.stream).1 = answer) :
    io.readied.calls = io.stream.calls ++ [.poll_ready answer] := by
  rw [← h]
  rfl

theorem passed_calls {io : MessageIo X (Logged σ)} {buf : Bytes} {answer : Except IoError Unit}
    (h : (CipherTrait.start_send io.readied buf).1 = answer) :
    (io.passed buf).calls = io.readied.calls ++ [.start_send buf answer] := by
  rw [← h]
  rfl

theorem flushed_calls {io : MessageIo X (Logged σ)} {buf : Bytes}
    {answer : Poll (Except IoError Unit)}
    (h : (CipherTrait.poll_flush (io.passed buf)).1 = answer) :
    (io.flushed buf).stream.calls = (io.passed buf).calls ++ [.poll_flush answer] := by
  rw [← h]
  rfl

/-- A logged connection behaves as the connection does, and has the calls in its log. Each kind
of round is the same kind of round without the log. -/
theorem Drives.erase {pending : Bool} {io io' : MessageIo X (Logged σ)} {calls : List SinkCall}
    {r : Res IoError (Poll Unit)} (h : Drives pending io calls r io') :
    Drives pending io.erase calls r io'.erase ∧
      io'.stream.calls = io.stream.calls ++ calls := by
  -- the log is not read, so the answers are the same without it
  have hpasses : ∀ {io : MessageIo X (Logged σ)} {buf : Bytes}, io.Passes buf →
      io.erase.Passes buf := fun h => ⟨h.ready, h.queue, h.encoded⟩
  induction h with
  | not_ready h => exact ⟨.not_ready h, readied_calls rfl⟩
  | done h hq => exact ⟨.done h hq, readied_calls h⟩
  | unencoded h hq hf => exact ⟨.unencoded h hq hf, readied_calls h⟩
  | unsent h hsend =>
    refine ⟨.unsent (hpasses h) hsend, (passed_calls hsend).trans ?_⟩
    rw [readied_calls h.ready, List.append_assoc]
    rfl
  | unflushed h hsend hflush =>
    refine ⟨.unflushed (hpasses h) hsend hflush, (flushed_calls hflush).trans ?_⟩
    rw [passed_calls hsend, readied_calls h.ready, List.append_assoc, List.append_assoc]
    rfl
  | flushing h hsend hflush =>
    refine ⟨.flushing (hpasses h) hsend hflush, (flushed_calls hflush).trans ?_⟩
    rw [passed_calls hsend, readied_calls h.ready, List.append_assoc, List.append_assoc]
    rfl
  | round h hsend hflush hrest ih =>
    refine ⟨.round (hpasses h) hsend hflush ih.1, ih.2.trans ?_⟩
    rw [flushed_calls hflush, passed_calls hsend, readied_calls h.ready]
    simp only [List.append_assoc]
    rfl

/-- So a call over a logged connection is the call over the connection, written down. What is
proved over `Logged` is about every connection. -/
theorem poll_outbound_logged (io : MessageIo X (Logged σ)) :
    ∃ calls r io', Drives true io calls r io' ∧
      (poll_outbound : IoMethod X (Logged σ) (Poll Unit)).run io = ends r io' ∧
      (poll_outbound : IoMethod X σ (Poll Unit)).run io.erase = ends r io'.erase ∧
      io'.stream.calls = io.stream.calls ++ calls := by
  obtain ⟨calls, r, io', h, hrun⟩ := poll_outbound_drives io
  obtain ⟨herase, hcalls⟩ := h.erase
  exact ⟨calls, r, io', h, hrun, herase.run (Nat.lt_succ_self _), hcalls⟩

/-! ## What the rounds amount to -/

variable {pending : Bool} {io io' : MessageIo X σ} {calls : List SinkCall}
  {r : Res IoError (Poll Unit)}

omit [CipherTrait σ] in
theorem frame_append_behind (io : MessageIo X σ) : io.frame ++ io.behind = io.write_queue :=
  next_frame_append [] io.write_queue

/-- What every call on the sink keeps of the connection, a call of `poll_outbound` keeps, however
it ends. -/
theorem Drives.keeps {P : σ → Prop}
    (hready : ∀ stream, P stream → P (CipherTrait.poll_ready stream).2)
    (hsend : ∀ stream buf, P stream → P (CipherTrait.start_send stream buf).2)
    (hflush : ∀ stream, P stream → P (CipherTrait.poll_flush stream).2)
    (h : Drives pending io calls r io') (hP : P io.stream) : P io'.stream := by
  have hpassed : ∀ (io : MessageIo X σ) buf, P io.stream → P (io.passed buf) :=
    fun io buf hP => hsend io.readied buf (hready io.stream hP)
  have hflushed : ∀ (io : MessageIo X σ) buf, P io.stream → P (io.flushed buf).stream :=
    fun io buf hP => hflush (io.passed buf) (hpassed io buf hP)
  induction h with
  | not_ready h => exact hready _ hP
  | done h hq => exact hready _ hP
  | unencoded h hq hf => exact hready _ hP
  | unsent h hsend => exact hpassed _ _ hP
  | unflushed h hsend hflush => exact hflushed _ _ hP
  | flushing h hsend hflush => exact hflushed _ _ hP
  | round h hsend hflush hrest ih => exact ih (hflushed _ _ hP)

/-- What was passed on, and what is left, is what the queue held. Only a frame that could
not be encoded is gone: it was taken off the queue and not put back. All other faults are
errors of the sink. -/
theorem Drives.conserves (h : Drives pending io calls r io') :
    ∃ frames lost, List.Forall₂ (fun L buf => to_encoded_bytes L = .ok buf) frames (sent calls) ∧
      frames.flatten ++ (lost ++ io'.write_queue) = io.write_queue ∧ (∀ L ∈ frames, IsFrame L) ∧
      ((lost = [] ∧ ∀ f, r = .error f → ∃ call ∈ calls, ∃ e, call.error = some e ∧ f = .err e) ∨
        ∃ f, r = .error f ∧ IsFrame lost ∧
          map_err X.into_io_error (to_encoded_bytes lost) = .error f) := by
  -- a call that passed one frame on and ended
  have hone : ∀ {io : MessageIo X σ} {buf : Bytes}, io.Passes buf →
      ∃ frames : List _, List.Forall₂ (fun L b => to_encoded_bytes L = .ok b) frames [buf] ∧
        List.flatten frames ++ ([] ++ io.behind) = io.write_queue ∧ ∀ L ∈ frames, IsFrame L := by
    intro io buf h
    refine ⟨[io.frame], .cons h.encoded .nil, ?_, ?_⟩
    · rw [List.flatten_singleton, List.nil_append]
      exact io.frame_append_behind
    · intro L hL
      rw [List.mem_singleton.mp hL]
      exact next_frame_is_frame h.queue
  induction h with
  | not_ready h =>
    exact ⟨[], [], .nil, rfl, fun _ hL => absurd hL List.not_mem_nil, Or.inl ⟨rfl, by rintro _ ⟨⟩⟩⟩
  | done h hq =>
    exact ⟨[], [], .nil, rfl, fun _ hL => absurd hL List.not_mem_nil, Or.inl ⟨rfl, by rintro _ ⟨⟩⟩⟩
  | @unencoded pending io f h hq hf =>
    exact ⟨[], io.frame, .nil, io.frame_append_behind, fun _ hL => absurd hL List.not_mem_nil,
      Or.inr ⟨f, rfl, next_frame_is_frame hq, hf⟩⟩
  | unsent h hsend =>
    obtain ⟨frames, h₁, h₂, h₃⟩ := hone h
    refine ⟨frames, [], h₁, h₂, h₃, Or.inl ⟨rfl, fun f hf => ?_⟩⟩
    exact ⟨_, List.mem_cons_of_mem _ List.mem_cons_self, _, rfl, (Except.error.inj hf).symm⟩
  | unflushed h hsend hflush =>
    obtain ⟨frames, h₁, h₂, h₃⟩ := hone h
    refine ⟨frames, [], h₁, h₂, h₃, Or.inl ⟨rfl, fun f hf => ?_⟩⟩
    exact ⟨_, List.mem_cons_of_mem _ (List.mem_cons_of_mem _ List.mem_cons_self), _, rfl,
      (Except.error.inj hf).symm⟩
  | flushing h hsend hflush =>
    obtain ⟨frames, h₁, h₂, h₃⟩ := hone h
    exact ⟨frames, [], h₁, h₂, h₃, Or.inl ⟨rfl, by rintro _ ⟨⟩⟩⟩
  | @round pending io io' buf calls r h hsend hflush hrest ih =>
    obtain ⟨frames, lost, h₁, h₂, h₃, h₄⟩ := ih
    refine ⟨io.frame :: frames, lost, .cons h.encoded h₁, ?_, ?_, h₄.imp_left fun hl => ?_⟩
    · rw [List.flatten_cons, List.append_assoc, h₂]
      exact io.frame_append_behind
    · intro L hL
      rcases List.mem_cons.mp hL with rfl | hL
      · exact next_frame_is_frame h.queue
      · exact h₃ L hL
    · refine ⟨hl.1, fun f hf => ?_⟩
      obtain ⟨call, hcall, he⟩ := hl.2 f hf
      exact ⟨call, List.mem_append_right _ hcall, he⟩

/-- A call that failed in `start_send` or `poll_flush` ended the rounds with its error. One
that failed in `poll_ready` ended them as well, but not with an error. -/
theorem Drives.failed (h : Drives pending io calls r io') {call : SinkCall} {e : IoError}
    (hcall : call ∈ calls) (he : call.error = some e) :
    (r = .error (.err e) ∧ ∀ answer, call ≠ .poll_ready answer) ∨
      ((∃ a, r = .ok a) ∧ call = .poll_ready (.ready (.error e))) := by
  -- a call that was answered `Ready(Ok)` is not one that failed
  have hready : ∀ {call : SinkCall}, call = .poll_ready (.ready (.ok ())) →
      call.error ≠ some e := by
    rintro _ rfl h
    cases h
  induction h with
  | @not_ready pending io h =>
    right
    obtain rfl := List.mem_singleton.mp hcall
    refine ⟨⟨_, rfl⟩, ?_⟩
    match hans : (CipherTrait.poll_ready io.stream).1 with
    | .pending => rw [hans] at he; cases he
    | .ready (.ok ()) => rw [hans] at he; cases he
    | .ready (.error e') =>
      rw [hans] at he
      rw [Option.some.inj he]
  | done h hq => exact absurd he (hready (List.mem_singleton.mp hcall))
  | unencoded h hq hf => exact absurd he (hready (List.mem_singleton.mp hcall))
  | unsent h hsend =>
    rcases List.mem_cons.mp hcall with hcall | hcall
    · exact absurd he (hready hcall)
    · obtain rfl := List.mem_singleton.mp hcall
      obtain rfl := Option.some.inj he
      exact Or.inl ⟨rfl, by rintro _ ⟨⟩⟩
  | unflushed h hsend hflush =>
    rcases List.mem_cons.mp hcall with hcall | hcall
    · exact absurd he (hready hcall)
    rcases List.mem_cons.mp hcall with rfl | hcall
    · cases he
    · obtain rfl := List.mem_singleton.mp hcall
      obtain rfl := Option.some.inj he
      exact Or.inl ⟨rfl, by rintro _ ⟨⟩⟩
  | flushing h hsend hflush =>
    rcases List.mem_cons.mp hcall with hcall | hcall
    · exact absurd he (hready hcall)
    rcases List.mem_cons.mp hcall with rfl | hcall
    · cases he
    · obtain rfl := List.mem_singleton.mp hcall
      cases he
  | round h hsend hflush hrest ih =>
    rcases List.mem_cons.mp hcall with hcall | hcall
    · exact absurd he (hready hcall)
    rcases List.mem_cons.mp hcall with rfl | hcall
    · cases he
    rcases List.mem_cons.mp hcall with rfl | hcall
    · cases he
    · exact ih hcall

/-- A fault is the error of a call on the sink, or of encoding a frame of the queue. -/
theorem Drives.fault {f : Fault IoError} (h : Drives pending io calls (.error f) io') :
    (∃ call ∈ calls, ∃ e, call.error = some e ∧ f = .err e) ∨
      ∃ L, IsFrame L ∧ (∀ msg ∈ L, msg ∈ io.write_queue) ∧
        map_err X.into_io_error (to_encoded_bytes L) = .error f := by
  obtain ⟨frames, lost, -, hqueue, -, ⟨-, hfault⟩ | ⟨f', hf', hframe, henc⟩⟩ := h.conserves
  · exact Or.inl (hfault f rfl)
  · obtain rfl := Except.error.inj hf'
    refine Or.inr ⟨lost, hframe, fun msg hmsg => ?_, henc⟩
    rw [← hqueue]
    exact List.mem_append_right _ (List.mem_append_left _ hmsg)

/-- When the answer is `Ready`, either the queue was empty, or the flag was already down,
and all that was asked is whether the sink is ready; or the queue held something, and the
last thing before the loop ended was a flush that succeeded. -/
theorem Drives.answered_ready (h : Drives pending io calls r io') (hr : r = .ok (.ready ())) :
    ((io.write_queue = [] ∨ pending = false) ∧ ∃ answer, calls = [.poll_ready answer]) ∨
      (io.write_queue ≠ [] ∧
        ∃ front answer, calls = front ++ [.poll_flush (.ready (.ok ())), .poll_ready answer]) := by
  induction h with
  | @not_ready pending io h =>
    refine Or.inl ⟨Or.inr ?_, _, rfl⟩
    cases pending with
    | false => rfl
    | true => cases hr
  | done h hq => exact Or.inl ⟨Or.inl hq, _, rfl⟩
  | unencoded h hq hf => cases hr
  | unsent h hsend => cases hr
  | unflushed h hsend hflush => cases hr
  | flushing h hsend hflush => cases hr
  | round h hsend hflush hrest ih =>
    refine Or.inr ⟨h.queue, ?_⟩
    rcases ih hr with ⟨-, answer, rfl⟩ | ⟨-, front, answer, rfl⟩
    · exact ⟨[_, _], answer, rfl⟩
    · exact ⟨_ ++ front, answer, (List.append_assoc _ _ _).symm⟩

/-- With an empty queue, a call asks the sink whether it is ready, and answers as it does. -/
theorem Drives.of_empty (h : Drives true io calls r io') (hq : io.write_queue = []) :
    calls = [.poll_ready (CipherTrait.poll_ready io.stream).1] ∧
      (r = .ok (.ready ()) ↔ (CipherTrait.poll_ready io.stream).1 = .ready (.ok ())) := by
  cases h with
  | not_ready h => exact ⟨rfl, iff_of_false (by rintro ⟨⟩) h⟩
  | done h _ => exact ⟨by rw [h], iff_of_true rfl h⟩
  | unencoded h hne hf => exact absurd hq hne
  | unsent h hsend => exact absurd hq h.queue
  | unflushed h hsend hflush => exact absurd hq h.queue
  | flushing h hsend hflush => exact absurd hq h.queue
  | round h hsend hflush hrest => exact absurd hq h.queue

end MessageIo

end hypercore_protocol.mqueue
