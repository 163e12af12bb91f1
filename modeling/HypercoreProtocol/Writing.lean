/-
Writing to the sink, over any number of calls.

A message layer is used by enqueuing messages and by polling, in any order, while the
connection underneath makes progress of its own. Over such histories three things are
said about `poll_outbound`. The frames it passes on are the enqueued messages in order,
cut into frames that may be sent, with nothing lost or repeated as long as the sink does
not fail. An error of `start_send` or of `poll_flush` is what the call returns; an error
of `poll_ready` is not, because the loop takes it for a sink that is not ready. And the
answer `Ready` means that everything was flushed as long as the sink has not stalled when a
call finds the queue empty: a flush that is pending is not taken up again by such a call.
-/
import HypercoreProtocol.Sink
import HypercoreProtocol.Sizes
import HypercoreProtocol.ProtocolSpec
import HypercoreProtocol.Memory
import HypercoreProtocol.Lib.Trace

set_option autoImplicit false

namespace hypercore_protocol

open Rust Wire Runs schema message channels mqueue protocol

/-- A buffer that is too large for the address space is not allocated: the call panics. Nothing
is asked of smaller ones. -/
def Deps.AllocatesOrPanics (X : Deps) : Prop :=
  ∀ {α : Type} (c : Codec EncodingError α) (x : α) (n : ℕ), c.encoded_size x = .ok n →
    ISIZE_MAX < n → X.to_encoded_bytes c x = .error (.panic .capacity_overflow)

theorem compact_encoding.deps_allocates : compact_encoding.deps.AllocatesOrPanics := by
  intro α c x n hsize hlarge
  show compact_encoding.to_encoded_bytes c x = _
  rw [compact_encoding.to_encoded_bytes, hsize, ok_bind, if_neg (Nat.not_le_of_lt hlarge)]

namespace mqueue

variable {X : Deps} {σ : Type} [CipherTrait σ]

/-! ## Histories -/

/-- What happens to a message layer: a message is enqueued, a call of `poll_outbound`
answers or fails, or the connection changes by itself. -/
inductive IoAction (X : Deps) where
  | enqueue (msg : ChannelMessage X)
  | polled (result : Poll Unit)
  | failed (e : IoError)
  | moves

inductive IoStep : MessageIo X (Logged σ) → IoAction X → MessageIo X (Logged σ) → Prop where
  | enqueue {io io' : MessageIo X (Logged σ)} (msg : ChannelMessage X)
      (h : (MessageIo.enqueue msg).run io = .ok () io') : IoStep io (.enqueue msg) io'
  | polled {io io' : MessageIo X (Logged σ)} {result : Poll Unit}
      (h : MessageIo.poll_outbound.run io = .ok result io') : IoStep io (.polled result) io'
  | failed {io io' : MessageIo X (Logged σ)} {e : IoError}
      (h : MessageIo.poll_outbound.run io = .error (.err e) io') : IoStep io (.failed e) io'
  | moves {io : MessageIo X (Logged σ)} (stream : σ) :
      IoStep io .moves { io with stream := ⟨stream, io.stream.calls⟩ }

/-- One thing that happened to the message layer, with the states before and after it. -/
abbrev IoHappening (X : Deps) (σ : Type) := Transition (MessageIo X (Logged σ)) (IoAction X)

/-- The messages that were enqueued, in order, over a history. -/
def enqueued (tr : List (IoHappening X σ)) : List (ChannelMessage X) :=
  tr.filterMap fun t =>
    match t.act with
    | .enqueue msg => some msg
    | _ => none

omit [CipherTrait σ] in
theorem enqueued_snoc (tr : List (IoHappening X σ)) (t : IoHappening X σ) :
    enqueued (tr ++ [t]) = enqueued tr ++ enqueued [t] := List.filterMap_append

variable {tr : List (IoHappening X σ)} {io io' : MessageIo X (Logged σ)} {stream : σ}

/-- The log only grows, by the calls of `poll_outbound`, which are those of its rounds. -/
theorem IoStep.calls {a : IoAction X} (h : IoStep io a io') :
    ∃ calls, io'.stream.calls = io.stream.calls ++ calls ∧
      (calls = [] ∨ ∃ r, MessageIo.Drives true io calls r io') := by
  cases h with
  | enqueue msg h =>
    injection h with _ hio
    exact ⟨[], by rw [← hio, List.append_nil], Or.inl rfl⟩
  | polled h =>
    obtain ⟨calls, hdrives⟩ := MessageIo.drives_of_run (r := .ok _) h
    exact ⟨calls, hdrives.erase.2, Or.inr ⟨_, hdrives⟩⟩
  | failed h =>
    obtain ⟨calls, hdrives⟩ := MessageIo.drives_of_run (r := .error _) h
    exact ⟨calls, hdrives.erase.2, Or.inr ⟨_, hdrives⟩⟩
  | moves stream => exact ⟨[], (List.append_nil _).symm, Or.inl rfl⟩

/-! ## Nothing is lost -/

/-- What waits in the queue was enqueued, whatever failed in between. Nothing else puts messages
there. -/
theorem queue_enqueued (run : Run IoStep (MessageIo.new ⟨stream, []⟩) tr io) :
    ∀ m ∈ io.write_queue, m ∈ enqueued tr := by
  -- a call of `poll_outbound` only takes messages off the queue
  have hpoll : ∀ {io io' : MessageIo X (Logged σ)} {calls : List SinkCall}
      {r : Res IoError (Poll Unit)}, MessageIo.Drives true io calls r io' →
      ∀ m ∈ io'.write_queue, m ∈ io.write_queue := by
    intro io io' calls r h m hm
    obtain ⟨frames, lost, -, hqueue, -⟩ := h.conserves
    rw [← hqueue]
    exact List.mem_append_right _ (List.mem_append_right _ hm)
  induction run with
  | nil => exact fun m hm => absurd hm List.not_mem_nil
  | @snoc tr io io' a run h ih =>
    intro m hm
    rw [enqueued_snoc]
    cases h with
    | enqueue msg h =>
      injection h with _ hio
      rw [← hio] at hm
      exact (List.mem_append.mp hm).elim (fun hm => List.mem_append_left _ (ih m hm))
        fun hm => List.mem_append_right _ hm
    | polled h =>
      obtain ⟨calls, hdrives⟩ := MessageIo.drives_of_run (r := .ok _) h
      exact List.mem_append_left _ (ih m (hpoll hdrives m hm))
    | failed h =>
      obtain ⟨calls, hdrives⟩ := MessageIo.drives_of_run (r := .error _) h
      exact List.mem_append_left _ (ih m (hpoll hdrives m hm))
    | moves stream => exact List.mem_append_left _ (ih m hm)

/-- Our own `Open`s can be written: their capability is a hash, if they have one, and a hash has
32 bytes. -/
theorem offers_encodable {p : Protocol X σ} {key : Key} {cap : Option (Vec UInt8)}
    (h : p.Offers key cap) (i : ℕ) (d : DiscoveryKey) :
    (open_message (X := X) i d cap).message.Encodable := by
  intro c hc
  rw [Protocol.Offers] at h
  split at h
  · cases h.symm.trans hc
  · obtain ⟨c', hc', rfl⟩ := h
    rw [← Option.some.inj hc]
    exact crypto.replicate_capability_length hc'

/-- The messages have an encoding, but it is longer than a buffer can be. -/
def TooLong (L : List (ChannelMessage X)) : Prop :=
  ∃ n, (vec_codec X).encoded_size L = .ok n ∧ ISIZE_MAX < n

section Conserved

variable (hX : X.Lawful) (halloc : X.AllocatesOrPanics)
include hX halloc

/-- Messages that may be written are encoded, or there is no room for them, and then it is a
panic and not an error. -/
theorem to_encoded_bytes_encodable {L : List (ChannelMessage X)}
    (hL : ∀ m ∈ L, m.message.Encodable) :
    (∃ b, to_encoded_bytes L = .ok b) ∨
      (TooLong L ∧ to_encoded_bytes L = .error (.panic .capacity_overflow)) := by
  obtain ⟨bs, hwire, -⟩ := frame_emits hX.sized L hL
  by_cases hle : bs.length ≤ ISIZE_MAX
  · exact Or.inl
      ⟨_, hX.to_encoded_bytes (vec_codec X) L bs.length bs [] hwire.size hle hwire.writes.fill⟩
  · have hlong := Nat.not_le.mp hle
    exact Or.inr ⟨⟨_, hwire.size, hlong⟩, halloc (vec_codec X) L bs.length hwire.size hlong⟩

/-- Over a queue of such messages a call faults because the sink failed, or because a frame
does not fit into memory. -/
theorem fault_cases {calls : List SinkCall} {f : Fault IoError}
    (h : MessageIo.Drives true io calls (.error f) io')
    (hqueue : ∀ m ∈ io.write_queue, m.message.Encodable) :
    (∃ call ∈ calls, ∃ e, call.error = some e ∧ f = .err e) ∨ f = .panic .capacity_overflow := by
  rcases h.fault with hcall | ⟨L, -, hL, hf⟩
  · exact Or.inl hcall
  · rcases to_encoded_bytes_encodable hX halloc (fun m hm => hqueue m (hL m hm)) with
      ⟨b, hb⟩ | ⟨-, hb⟩
    · rw [hb] at hf
      cases hf
    · rw [hb] at hf
      exact Or.inr (Except.error.inj hf).symm

/-- The frames that were passed on so far, as lists of messages, and how they stand to
what was enqueued. -/
def Framed (enqueued : List (ChannelMessage X)) (io : MessageIo X (Logged σ)) : Prop :=
  ∃ frames, List.Forall₂ (fun L buf => to_encoded_bytes L = .ok buf) frames
      (sent io.stream.calls) ∧
    frames.flatten ++ io.write_queue = enqueued ∧ ∀ L ∈ frames, IsFrame L

omit hX halloc in
omit [CipherTrait σ] in
theorem Framed.queue {enqueued : List (ChannelMessage X)} (h : Framed enqueued io) :
    ∀ m ∈ io.write_queue, m ∈ enqueued := by
  obtain ⟨frames, -, hqueue, -⟩ := h
  intro m hm
  rw [← hqueue]
  exact List.mem_append_right _ hm

omit hX halloc in
/-- A call that took nothing off the queue but the frames it passed on keeps the account of what
was enqueued. -/
theorem Framed.polled {enqueued : List (ChannelMessage X)} {calls : List SinkCall}
    {result : Poll Unit} (hframed : Framed enqueued io)
    (h : MessageIo.Drives true io calls (.ok result) io') : Framed enqueued io' := by
  obtain ⟨frames, hbytes, hqueue, hshape⟩ := hframed
  obtain ⟨frames', lost, hbytes', hqueue', hshape', hlost⟩ := h.conserves
  obtain rfl : lost = [] := (hlost.resolve_right (by rintro ⟨f, ⟨⟩, -⟩)).1
  refine ⟨frames ++ frames', ?_, ?_, ?_⟩
  · rw [h.erase.2, sent_append]
    exact List.rel_append hbytes hbytes'
  · rw [List.flatten_append, List.append_assoc]
    rw [List.nil_append] at hqueue'
    rw [hqueue', hqueue]
  · intro L hL
    exact (List.mem_append.mp hL).elim (hshape L) (hshape' L)

/-- One step. The messages enqueued so far may be written, and no call of the log failed. -/
theorem Framed.step {before : List (ChannelMessage X)} {a : IoAction X}
    (hframed : Framed before io) (h : IoStep io a io')
    (hall : ∀ m ∈ before ++ enqueued [⟨io, a, io'⟩], m.message.Encodable)
    (hok : ∀ call ∈ io'.stream.calls, call.error = none) :
    Framed (before ++ enqueued [⟨io, a, io'⟩]) io' := by
  have hqueue : ∀ m ∈ io.write_queue, m.message.Encodable := fun m hm =>
    hall m (List.mem_append_left _ (hframed.queue m hm))
  cases h with
  | enqueue msg h =>
    injection h with _ hio
    obtain ⟨frames, hbytes, hqueue, hshape⟩ := hframed
    refine ⟨frames, hio ▸ hbytes, ?_, hshape⟩
    show frames.flatten ++ io'.write_queue = before ++ [msg]
    rw [← hio, ← hqueue]
    exact (List.append_assoc _ _ _).symm
  | polled h =>
    obtain ⟨calls, hdrives⟩ := MessageIo.drives_of_run (r := .ok _) h
    show Framed (before ++ []) io'
    rw [List.append_nil]
    exact hframed.polled hdrives
  | failed h =>
    obtain ⟨calls, hdrives⟩ := MessageIo.drives_of_run (r := .error _) h
    -- a failed call would be in the log, and a frame that does not fit is a panic
    rcases fault_cases hX halloc hdrives hqueue with ⟨call, hcall, e, he, -⟩ | hf
    · have hnone := hok call (by rw [hdrives.erase.2]; exact List.mem_append_right _ hcall)
      rw [he] at hnone
      cases hnone
    · cases hf
  | moves stream =>
    show Framed (before ++ []) _
    rw [List.append_nil]
    exact hframed

/-- The write queue is framed without loss, repetition or reordering. After any history of
enqueuing and polling, over any connection, in which no call on the sink failed: the lists
of messages that were encoded and passed to `start_send`, one after the other, and then the
write queue are the messages that were enqueued; each list is a frame, so it is not empty,
and an `Open` or a `Close` is in it alone. And a call of `poll_outbound` comes to an end,
whatever the sink answers: it returns, it fails, or a frame does not fit into memory. -/
theorem frames_conserve_queue (run : Run IoStep (MessageIo.new ⟨stream, []⟩) tr io)
    (hall : ∀ m ∈ enqueued tr, m.message.Encodable) :
    ((∀ call ∈ io.stream.calls, call.error = none) →
      ∃ frames, List.Forall₂ (fun L buf => to_encoded_bytes L = .ok buf) frames
          (sent io.stream.calls) ∧
        frames.flatten ++ io.write_queue = enqueued tr ∧ ∀ L ∈ frames, IsFrame L) ∧
    ((∃ result io', MessageIo.poll_outbound.run io = .ok result io') ∨
      (∃ e io', MessageIo.poll_outbound.run io = .error (.err e) io') ∨
      ∃ io', MessageIo.poll_outbound.run io = .error (.panic .capacity_overflow) io') := by
  constructor
  · intro hok
    show Framed (enqueued tr) io
    induction run with
    | nil => exact ⟨[], .nil, rfl, fun L hL => absurd hL List.not_mem_nil⟩
    | @snoc tr io io' a run h ih =>
      rw [enqueued_snoc] at hall ⊢
      obtain ⟨calls, hcalls, -⟩ := h.calls
      -- the log only grows, so no call of the past failed either
      have hpast : ∀ call ∈ io.stream.calls, call.error = none := by
        intro call hcall
        refine hok call ?_
        rw [hcalls]
        exact List.mem_append_left _ hcall
      exact (ih (fun m hm => hall m (List.mem_append_left _ hm)) hpast).step hX halloc h hall hok
  · obtain ⟨calls, r, io', hdrives, hrun⟩ := MessageIo.poll_outbound_drives io
    rw [hrun]
    cases r with
    | ok result => exact Or.inl ⟨result, io', rfl⟩
    | error f =>
      have hqueue : ∀ m ∈ io.write_queue, m.message.Encodable := fun m hm =>
        hall m (queue_enqueued run m hm)
      rcases fault_cases hX halloc hdrives hqueue with ⟨call, -, e, -, rfl⟩ | rfl
      · exact Or.inr (Or.inl ⟨e, io', rfl⟩)
      · exact Or.inr (Or.inr ⟨io', rfl⟩)

end Conserved

/-- A `Close` and two cancellations, enqueued in this order and written by one poll. -/
theorem frames_conserve_queue_close :
    ∃ tr, ∃ io : MessageIo compact_encoding.deps (Logged Memory),
      Run IoStep (MessageIo.new ⟨Memory.connected true, []⟩) tr io ∧ io.write_queue = [] ∧
      sent io.stream.calls = [[0, 3, 1], [0, 0, 2, 2, 2, 5, 2, 2, 6]] ∧
      ∃ frames, List.Forall₂ (fun L buf => to_encoded_bytes L = .ok buf) frames
          (sent io.stream.calls) ∧
        frames.flatten ++ io.write_queue
          = [⟨1, .Close ⟨1⟩⟩, ⟨2, .Cancel ⟨5⟩⟩, ⟨2, .Cancel ⟨6⟩⟩] ∧
        ∀ L ∈ frames, IsFrame L := by
  have run : Run IoStep (MessageIo.new ⟨Memory.connected true, []⟩ :
      MessageIo compact_encoding.deps (Logged Memory)) _ _ :=
    ((((Run.nil.snoc (.enqueue ⟨1, .Close ⟨1⟩⟩ rfl)).snoc (.enqueue ⟨2, .Cancel ⟨5⟩⟩ rfl)).snoc
      (.enqueue ⟨2, .Cancel ⟨6⟩⟩ rfl)).snoc (.polled rfl))
  refine ⟨_, _, run, rfl, rfl, ?_⟩
  refine (frames_conserve_queue compact_encoding.deps_lawful compact_encoding.deps_allocates run
    ?_).1 ?_
  · intro m hm
    have hm : m ∈ ([⟨1, .Close ⟨1⟩⟩, ⟨2, .Cancel ⟨5⟩⟩, ⟨2, .Cancel ⟨6⟩⟩] :
        List (ChannelMessage compact_encoding.deps)) := hm
    simp only [List.mem_cons, List.not_mem_nil, or_false] at hm
    rcases hm with rfl | rfl | rfl <;> exact trivial
  · have hnone : ∀ call ∈ [SinkCall.poll_ready (.ready (.ok ())), .start_send [0, 3, 1] (.ok ()),
        .poll_flush (.ready (.ok ())), .poll_ready (.ready (.ok ())),
        .start_send [0, 0, 2, 2, 2, 5, 2, 2, 6] (.ok ()), .poll_flush (.ready (.ok ())),
        .poll_ready (.ready (.ok ()))], call.error = none := by
      simp [SinkCall.error]
    exact hnone

/-! ## What was flushed -/

/-- A frame was passed on, whether or not the sink accepted it. -/
def SinkCall.sends : SinkCall → Prop
  | .start_send _ _ => True
  | _ => False

/-- A flush succeeded. Pending ones and failures are not counted. -/
def SinkCall.flushes : SinkCall → Prop
  | .poll_flush (.ready (.ok ())) => True
  | _ => False

/-- Every frame that was passed on was flushed after that: the claim that an answer `Ready`
should carry. -/
def Flushed (calls : List SinkCall) : Prop :=
  ∀ before call after, calls = before ++ call :: after → call.sends → ∃ u ∈ after, u.flushes

/-- That is, it is not so that a frame was passed on and nothing flushed since. In this form it
can be followed along a history. -/
theorem flushed_iff (calls : List SinkCall) :
    Flushed calls ↔ ¬ Since SinkCall.sends SinkCall.flushes calls := by
  constructor
  · rintro h ⟨before, call, after, hcalls, hsends, hno⟩
    obtain ⟨u, hu, hflushes⟩ := h before call after hcalls hsends
    exact hno u hu hflushes
  · intro h before call after hcalls hsends
    by_contra hno
    exact h ⟨before, call, after, hcalls, hsends, fun u hu hflushes => hno ⟨u, hu, hflushes⟩⟩

theorem flushed_nil : Flushed [] := (flushed_iff _).mpr not_since_nil

theorem flushed_snoc_ready {calls : List SinkCall} (answer : Poll (Except IoError Unit)) :
    Flushed (calls ++ [.poll_ready answer]) ↔ Flushed calls := by
  rw [flushed_iff, flushed_iff, since_snoc]
  exact not_congr ⟨fun h => h.elim False.elim And.left, fun h => Or.inr ⟨h, id⟩⟩

theorem flushed_ready (answer : Poll (Except IoError Unit)) : Flushed [.poll_ready answer] :=
  (flushed_snoc_ready answer).mpr flushed_nil

theorem flushed_snoc_flush (calls : List SinkCall) :
    Flushed (calls ++ [.poll_flush (.ready (.ok ()))]) := by
  rw [flushed_iff, since_snoc]
  rintro (h | ⟨-, h⟩)
  · exact h
  · exact h trivial

theorem Flushed.append {l r : List SinkCall} (hl : Flushed l) (hr : Flushed r) :
    Flushed (l ++ r) := by
  rw [flushed_iff] at hl hr ⊢
  exact fun h => h.append_cases.elim hr hl

/-- What an answer of the sink leaves behind. A frame that was refused, and a flush that
failed or is pending, leave something to be taken up again; a flush that succeeded leaves
nothing. The other answers change nothing about it. -/
def SinkCall.stalls (stalled : Bool) : SinkCall → Bool
  | .poll_ready _ => stalled
  | .start_send _ (.ok _) => stalled
  | .start_send _ (.error _) => true
  | .poll_flush (.ready (.ok _)) => false
  | .poll_flush _ => true

/-- **The sink has stalled.** Since the last flush that it completed it has refused a frame, or
answered a flush with an error or with `Pending`. This speaks of its answers only, and not of
the frames that went with them. -/
def stalled (calls : List SinkCall) : Bool := calls.foldl SinkCall.stalls false

theorem stalled_append (front calls : List SinkCall) :
    stalled (front ++ calls) = calls.foldl SinkCall.stalls (stalled front) := List.foldl_append

theorem not_flushed_of_sends {calls after : List SinkCall} {call : SinkCall} (hsends : call.sends)
    (hafter : ∀ u ∈ after, ¬ u.flushes) : ¬ Flushed (calls ++ call :: after) := by
  intro h
  obtain ⟨u, hu, hflushes⟩ := h calls call after rfl hsends
  exact hafter u hu hflushes

/-- **What the last answers mean.** The loop asks for a flush after every frame that was
taken and ends at the first answer that is not a success, so that what was passed on is
flushed just if the sink did not stall. -/
theorem stalled_iff {pending : Bool} {calls : List SinkCall} {r : Res IoError (Poll Unit)}
    (h : MessageIo.Drives pending io calls r io') (front : List SinkCall)
    (hfront : stalled front = false ↔ Flushed front) :
    stalled (front ++ calls) = false ↔ Flushed (front ++ calls) := by
  have hready : ∀ answer, stalled (front ++ [.poll_ready answer]) = false ↔
      Flushed (front ++ [.poll_ready answer]) := by
    intro answer
    rw [flushed_snoc_ready, stalled_append]
    exact hfront
  induction h generalizing front with
  | not_ready h => exact hready _
  | done h hq => exact hready _
  | unencoded h hq hf => exact hready _
  | @unsent pending io buf e h hsend =>
    refine iff_of_false (by rw [stalled_append]; exact Bool.true_eq_false_eq_False) ?_
    rw [List.append_cons]
    refine not_flushed_of_sends trivial fun u hu => ?_
    cases hu
  | @unflushed pending io buf e h hsend hflush =>
    refine iff_of_false (by rw [stalled_append]; exact Bool.true_eq_false_eq_False) ?_
    rw [List.append_cons]
    refine not_flushed_of_sends trivial fun u hu => ?_
    rw [List.mem_singleton.mp hu]
    exact id
  | @flushing pending io buf h hsend hflush =>
    refine iff_of_false (by rw [stalled_append]; exact Bool.true_eq_false_eq_False) ?_
    rw [List.append_cons]
    refine not_flushed_of_sends trivial fun u hu => ?_
    rw [List.mem_singleton.mp hu]
    exact id
  | @round pending io io' buf calls r h hsend hflush hrest ih =>
    -- behind a flush that succeeded both sides hold, whatever was in front
    have hround : Flushed (front ++ [.poll_ready (.ready (.ok ())), .start_send buf (.ok ()),
        .poll_flush (.ready (.ok ()))]) := by
      rw [List.append_cons, List.append_cons]
      exact flushed_snoc_flush _
    have hfront' : stalled (front ++ [.poll_ready (.ready (.ok ())), .start_send buf (.ok ()),
        .poll_flush (.ready (.ok ()))]) = false ↔ _ := iff_of_true (stalled_append _ _) hround
    rw [← List.append_assoc]
    refine ih _ hfront' fun answer => ?_
    rw [flushed_snoc_ready, stalled_append]
    exact hfront'

/-- The same over a history: the sink has not stalled exactly if everything is flushed. This
holds between calls, when each of them has run to its end. -/
theorem stalled_iff_flushed (run : Run IoStep (MessageIo.new ⟨stream, []⟩) tr io) :
    stalled io.stream.calls = false ↔ Flushed io.stream.calls := by
  induction run with
  | nil => exact iff_of_true rfl flushed_nil
  | @snoc tr io io' a run h ih =>
    obtain ⟨calls, hcalls, hdrives⟩ := h.calls
    rw [hcalls]
    rcases hdrives with rfl | ⟨r, hdrives⟩
    · rw [List.append_nil]
      exact ih
    · exact stalled_iff hdrives _ ih

/-- A call that answers `Ready` leaves everything flushed just if it found something in the
queue, or everything was flushed before. -/
theorem flushed_after_ready {calls : List SinkCall}
    (h : MessageIo.Drives true io calls (.ok (.ready ())) io') :
    Flushed io'.stream.calls ↔ (io.write_queue = [] → Flushed io.stream.calls) := by
  rw [h.erase.2]
  rcases h.answered_ready rfl with ⟨hq, answer, rfl⟩ | ⟨hq, front, answer, rfl⟩
  · have hempty : io.write_queue = [] := hq.resolve_right Bool.true_eq_false_eq_False
    rw [flushed_snoc_ready]
    exact ⟨fun h _ => h, fun h => h hempty⟩
  · refine iff_of_true ?_ fun h => absurd h hq
    have hsplit : io.stream.calls ++ (front ++ [.poll_flush (.ready (.ok ())), .poll_ready answer])
        = ((io.stream.calls ++ front) ++ [.poll_flush (.ready (.ok ()))]) ++
          [.poll_ready answer] := by
      simp only [List.append_assoc, List.cons_append, List.nil_append]
    rw [hsplit, flushed_snoc_ready]
    exact flushed_snoc_flush _

/-- The sink took a frame, or flushed, at once and without an error. Whether it is ready does not
matter here. -/
def SinkCall.Prompt : SinkCall → Prop
  | .poll_ready _ => True
  | .start_send _ answer => answer = .ok ()
  | .poll_flush answer => answer = .ready (.ok ())

/-- When the sink is prompt, a call flushes what it passes on, round by round. -/
theorem flushed_of_prompt {pending : Bool} {calls : List SinkCall} {r : Res IoError (Poll Unit)}
    (h : MessageIo.Drives pending io calls r io') (hprompt : ∀ call ∈ calls, call.Prompt) :
    Flushed calls := by
  induction h with
  | not_ready h => exact flushed_ready _
  | done h hq => exact flushed_ready _
  | unencoded h hq hf => exact flushed_ready _
  | unsent h hsend => cases hprompt _ (List.mem_cons_of_mem _ List.mem_cons_self)
  | unflushed h hsend hflush =>
    cases hprompt _ (List.mem_cons_of_mem _ (List.mem_cons_of_mem _ List.mem_cons_self))
  | flushing h hsend hflush =>
    cases hprompt _ (List.mem_cons_of_mem _ (List.mem_cons_of_mem _ List.mem_cons_self))
  | @round pending io io' buf calls r h hsend hflush hrest ih =>
    refine Flushed.append ?_ (ih fun call hcall => hprompt call (List.mem_append_right _ hcall))
    exact flushed_snoc_flush [.poll_ready (.ready (.ok ())), .start_send buf (.ok ())]

/-- `poll_outbound` is called while its queue is empty and its sink is ready. Such a call answers
`Ready` without asking for a flush. -/
def CalledIdle (t : IoHappening X σ) : Prop :=
  (∃ result, t.act = .polled result) ∧ t.pre.write_queue = [] ∧
    (CipherTrait.poll_ready t.pre.stream).1 = .ready (.ok ())

/-- `Ready` means flushed just as far as this. In every history, every answer `Ready` comes
with all frames flushed if and only if the sink has not stalled whenever `poll_outbound` is
called with an empty queue and a sink that is ready: the loop only asks for a flush behind a
frame, so that one that is pending is not taken up again by a call that has nothing to
write. A sink that takes every frame and flushes at once never stalls, and then everything
is flushed at all times. -/
theorem ready_flushed_iff (run : Run IoStep (MessageIo.new ⟨stream, []⟩) tr io) :
    ((∀ t ∈ tr, t.act = .polled (.ready ()) → Flushed t.post.stream.calls) ↔
      ∀ t ∈ tr, CalledIdle t → stalled t.pre.stream.calls = false) ∧
    ((∀ call ∈ io.stream.calls, call.Prompt) → ∀ t ∈ tr, Flushed t.post.stream.calls) := by
  constructor
  · refine Run.forall_iff (fun tr io a io' run h => ?_) run
    rw [stalled_iff_flushed run]
    cases h with
    | enqueue => exact iff_of_true (by rintro ⟨⟩) (by rintro ⟨⟨_, ⟨⟩⟩, -⟩)
    | failed => exact iff_of_true (by rintro ⟨⟩) (by rintro ⟨⟨_, ⟨⟩⟩, -⟩)
    | moves => exact iff_of_true (by rintro ⟨⟩) (by rintro ⟨⟨_, ⟨⟩⟩, -⟩)
    | polled h =>
      obtain ⟨calls, hdrives⟩ := MessageIo.drives_of_run (r := .ok _) h
      constructor
      · rintro hflushed ⟨-, hq, hready⟩
        have hresult := Except.ok.inj ((hdrives.of_empty hq).2.mpr hready)
        rw [hresult] at hdrives
        exact (flushed_after_ready hdrives).mp (hflushed (by rw [hresult])) hq
      · intro hidle ha
        cases ha
        refine (flushed_after_ready hdrives).mpr fun hq => ?_
        exact hidle ⟨⟨_, rfl⟩, hq, (hdrives.of_empty hq).2.mp rfl⟩
  · intro hprompt
    -- the log at the end is needed for the induction
    refine (?_ : Flushed io.stream.calls ∧ ∀ t ∈ tr, Flushed t.post.stream.calls).2
    induction run with
    | nil => exact ⟨flushed_nil, fun t ht => absurd ht List.not_mem_nil⟩
    | @snoc tr io io' a run h ih =>
      obtain ⟨calls, hcalls, hdrives⟩ := h.calls
      rw [hcalls] at hprompt
      obtain ⟨hflushed, hpast⟩ := ih fun call hcall => hprompt call (List.mem_append_left _ hcall)
      have hnew : Flushed calls := by
        rcases hdrives with rfl | ⟨r, hdrives⟩
        · exact flushed_nil
        · exact flushed_of_prompt hdrives fun call hcall =>
            hprompt call (List.mem_append_right _ hcall)
      have hpost : Flushed io'.stream.calls := hcalls ▸ hflushed.append hnew
      refine ⟨hpost, fun t ht => ?_⟩
      rcases List.mem_append.mp ht with ht | ht
      · exact hpast t ht
      · rw [List.mem_singleton.mp ht]
        exact hpost

/-- A connection whose sink is ready, does not flush at once, and is ready from then on. -/
def stalling : Memory := { Memory.connected true with schedule := [true, false] }

/-- Over a connection that flushes at once, an answer `Ready` means flushed. -/
theorem ready_flushed_iff_connected :
    ∃ tr, ∃ io : MessageIo compact_encoding.deps (Logged Memory),
      Run IoStep (MessageIo.new ⟨Memory.connected true, []⟩) tr io ∧
      sent io.stream.calls = [[0, 3, 1]] ∧ ∀ t ∈ tr, Flushed t.post.stream.calls := by
  have run : Run IoStep (MessageIo.new ⟨Memory.connected true, []⟩ :
      MessageIo compact_encoding.deps (Logged Memory)) _ _ :=
    (Run.nil.snoc (.enqueue ⟨1, .Close ⟨1⟩⟩ rfl)).snoc (.polled rfl)
  refine ⟨_, _, run, rfl, (ready_flushed_iff run).2 fun call hcall => ?_⟩
  have hcalls : call ∈ [SinkCall.poll_ready (.ready (.ok ())), .start_send [0, 3, 1] (.ok ()),
      .poll_flush (.ready (.ok ())), .poll_ready (.ready (.ok ()))] := hcall
  simp only [List.mem_cons, List.not_mem_nil, or_false] at hcalls
  rcases hcalls with rfl | rfl | rfl | rfl
  · exact trivial
  · rfl
  · rfl
  · exact trivial

/-- The first poll passes the frame on and its flush is pending. The second one finds the
queue empty and answers `Ready`, with the frame not flushed. -/
theorem flush_forgotten :
    ∃ tr, ∃ io : MessageIo compact_encoding.deps (Logged Memory),
      Run IoStep (MessageIo.new ⟨stalling, []⟩) tr io ∧
      ∃ t ∈ tr, t.act = .polled (.ready ()) ∧ sent t.post.stream.calls = [[0, 3, 1]] ∧
        ¬ Flushed t.post.stream.calls := by
  have run : Run IoStep (MessageIo.new ⟨stalling, []⟩ :
      MessageIo compact_encoding.deps (Logged Memory)) _ _ :=
    ((Run.nil.snoc (.enqueue ⟨1, .Close ⟨1⟩⟩ rfl)).snoc (.polled rfl)).snoc (.polled rfl)
  refine ⟨_, _, run, ⟨_, _, _⟩, List.mem_append_right _ List.mem_cons_self, rfl, rfl,
    fun hflushed => ?_⟩
  obtain ⟨call, hcall, hflushes⟩ :=
    hflushed [.poll_ready (.ready (.ok ()))] (.start_send [0, 3, 1] (.ok ()))
      [.poll_flush .pending, .poll_ready (.ready (.ok ()))] rfl trivial
  simp only [List.mem_cons, List.not_mem_nil, or_false] at hcall
  rcases hcall with rfl | rfl <;> exact hflushes

/-! ## Failures of the sink -/

/-- A call of `poll_outbound` returns the error of every call on the sink that failed just
if no `poll_ready` failed. -/
theorem failures_returned_iff {calls : List SinkCall} {r : Res IoError (Poll Unit)}
    (h : MessageIo.Drives true io calls r io') :
    (∀ call ∈ calls, ∀ e, call.error = some e → r = .error (.err e)) ↔
      ∀ e, SinkCall.poll_ready (.ready (.error e)) ∉ calls := by
  constructor
  · intro hall e hmem
    rcases h.failed hmem rfl with ⟨-, hno⟩ | ⟨⟨a, ha⟩, -⟩
    · exact hno _ rfl
    · have hr := hall _ hmem e rfl
      rw [ha] at hr
      cases hr
  · intro hready call hmem e he
    rcases h.failed hmem he with ⟨hr, -⟩ | ⟨-, rfl⟩
    · exact hr
    · exact absurd hmem (hready e)

end mqueue

namespace protocol.Protocol

variable {X : Deps} {σ α β : Type} [CipherTrait σ]

/-- The method leaves the connection alone, however it ends. All handlers do, and none of them
has anything to report. -/
def KeepsStream (m : ProtocolMethod X σ α) : Prop :=
  ∀ p, ∃ r p', m.run p = MessageIo.ends r p' ∧ p'.io.stream = p.io.stream

omit [CipherTrait σ] in
theorem keepsStream_pure (a : α) : KeepsStream (pure a : ProtocolMethod X σ α) :=
  fun p => ⟨.ok a, p, rfl, rfl⟩

omit [CipherTrait σ] in
theorem KeepsStream.bind {m : ProtocolMethod X σ α} {f : α → ProtocolMethod X σ β}
    (hm : KeepsStream m) (hf : ∀ a, KeepsStream (f a)) : KeepsStream (m >>= f) := by
  intro p
  obtain ⟨r, p₁, hrun, hp₁⟩ := hm p
  rw [EStateM.run_bind, hrun]
  cases r with
  | ok a =>
    obtain ⟨r', p₂, hrun', hp₂⟩ := hf a p₁
    exact ⟨r', p₂, hrun', hp₂.trans hp₁⟩
  | error f => exact ⟨.error f, p₁, rfl, hp₁⟩

omit [CipherTrait σ] in
theorem keepsStream_on_channels (m : channels.MapMethod X α) :
    KeepsStream (on_channels m : ProtocolMethod X σ α) := by
  intro p
  rw [on_channels, Method.run_on]
  cases m.run p.channels with
  | ok a t => exact ⟨.ok a, _, rfl, rfl⟩
  | error f t => exact ⟨.error f, _, rfl, rfl⟩

omit [CipherTrait σ] in
theorem keepsStream_queue_event (event : Event) :
    KeepsStream (queue_event event : ProtocolMethod X σ Unit) :=
  fun _ => ⟨.ok (), _, rfl, rfl⟩

omit [CipherTrait σ] in
theorem keepsStream_close_local (local_id : UInt64) :
    KeepsStream (close_local local_id : ProtocolMethod X σ Unit) := by
  refine KeepsStream.bind (fun p => ⟨.ok p, p, rfl, rfl⟩) fun self => ?_
  cases self.channels.get_local local_id.toNat with
  | none => exact keepsStream_pure ()
  | some channel =>
    exact (keepsStream_on_channels _).bind fun _ => keepsStream_queue_event _

omit [CipherTrait σ] in
theorem keepsStream_on_outbound_message (message : ChannelMessage X) :
    KeepsStream (on_outbound_message message : ProtocolMethod X σ Bool) := by
  obtain ⟨channel, message⟩ := message
  cases message with
  | Close x => exact (keepsStream_close_local channel).bind fun _ => keepsStream_pure true
  | LocalSignal name data => exact (keepsStream_queue_event _).bind fun _ => keepsStream_pure false
  | _ => exact keepsStream_pure true

omit [CipherTrait σ] in
theorem keepsStream_retain_outbound (messages : List (ChannelMessage X)) :
    KeepsStream (retain_outbound messages : ProtocolMethod X σ _) := by
  induction messages with
  | nil => exact keepsStream_pure []
  | cons message messages ih =>
    exact (keepsStream_on_outbound_message message).bind fun _ => ih.bind fun _ =>
      keepsStream_pure _

omit [CipherTrait σ] in
theorem keepsStream_enqueue_all (messages : List (ChannelMessage X)) :
    KeepsStream (enqueue_all messages : ProtocolMethod X σ Unit) := by
  induction messages with
  | nil => exact keepsStream_pure ()
  | cons msg messages ih =>
    exact KeepsStream.bind (fun p => ⟨.ok (), _, rfl, rfl⟩) fun _ => ih

omit [CipherTrait σ] in
theorem keepsStream_on_outbound_batch (messages : List (ChannelMessage X)) :
    KeepsStream (on_outbound_batch messages : ProtocolMethod X σ Unit) := by
  rw [on_outbound_batch]
  split
  · exact (keepsStream_retain_outbound messages).bind fun kept => keepsStream_enqueue_all kept
  · exact keepsStream_pure ()

omit [CipherTrait σ] in
theorem keepsStream_get : KeepsStream (get : ProtocolMethod X σ (Protocol X σ)) :=
  fun p => ⟨.ok p, p, rfl, rfl⟩

omit [CipherTrait σ] in
theorem keepsStream_pop_outbound :
    KeepsStream (pop_outbound : ProtocolMethod X σ (Option (List (ChannelMessage X)))) := by
  intro p
  rw [run_pop_outbound]
  cases p.outbound_rx with
  | nil => exact ⟨.ok none, p, rfl, rfl⟩
  | cons messages rest => exact ⟨.ok (some messages), { p with outbound_rx := rest }, rfl, rfl⟩

/-- Unless a `poll_ready` failed, the error of every call on the sink that failed while the
method ran is what the method returns. -/
def Reports (m : ProtocolMethod X (Logged σ) α) : Prop :=
  ∀ p, ∃ calls r p', m.run p = MessageIo.ends r p' ∧
    p'.io.stream.calls = p.io.stream.calls ++ calls ∧
    ((∀ e, SinkCall.poll_ready (.ready (.error e)) ∉ calls) →
      ∀ call ∈ calls, ∀ e, call.error = some e → r = .error (.err e))

omit [CipherTrait σ] in
theorem KeepsStream.reports {m : ProtocolMethod X (Logged σ) α} (hm : KeepsStream m) :
    Reports m := by
  intro p
  obtain ⟨r, p', hrun, hp'⟩ := hm p
  exact ⟨[], r, p', hrun, by rw [hp', List.append_nil], fun _ _ hcall =>
    absurd hcall List.not_mem_nil⟩

omit [CipherTrait σ] in
/-- What follows runs only when nothing was to be reported, so that an error is not lost behind
it. -/
theorem Reports.bind {m : ProtocolMethod X (Logged σ) α} {f : α → ProtocolMethod X (Logged σ) β}
    (hm : Reports m) (hf : ∀ a, Reports (f a)) : Reports (m >>= f) := by
  intro p
  obtain ⟨calls, r, p₁, hrun, hcalls, hreports⟩ := hm p
  rw [EStateM.run_bind, hrun]
  cases r with
  | error f =>
    refine ⟨calls, .error f, p₁, rfl, hcalls, fun hready call hcall e he => ?_⟩
    exact congrArg Except.error (Except.error.inj (hreports hready call hcall e he))
  | ok a =>
    obtain ⟨calls', r', p₂, hrun', hcalls', hreports'⟩ := hf a p₁
    refine ⟨calls ++ calls', r', p₂, hrun', by rw [hcalls', hcalls, List.append_assoc], ?_⟩
    intro hready call hcall e he
    rcases List.mem_append.mp hcall with hcall | hcall
    · cases hreports (fun e hmem => hready e (List.mem_append_left _ hmem)) call hcall e he
    · exact hreports' (fun e hmem => hready e (List.mem_append_right _ hmem)) call hcall e he

theorem reports_poll_outbound :
    Reports (on_io MessageIo.poll_outbound : ProtocolMethod X (Logged σ) (Poll Unit)) := by
  intro p
  obtain ⟨calls, r, io', hdrives, hrun, -, hcalls⟩ := MessageIo.poll_outbound_logged p.io
  refine ⟨calls, r, { p with io := io' }, ?_, hcalls, (failures_returned_iff hdrives).mpr⟩
  rw [on_io, Method.run_on, hrun]
  cases r <;> rfl

theorem reports_poll_outbound_write_loop (fuel : ℕ) :
    Reports (poll_outbound_write_loop fuel : ProtocolMethod X (Logged σ) Unit) := by
  induction fuel with
  | zero => exact fun p => ⟨[], .error .out_of_fuel, p, rfl, (List.append_nil _).symm,
      fun _ _ hcall => absurd hcall List.not_mem_nil⟩
  | succ fuel ih =>
    refine reports_poll_outbound.bind fun _ => keepsStream_pop_outbound.reports.bind fun batch => ?_
    cases batch with
    | none => exact (keepsStream_pure ()).reports
    | some messages => exact (keepsStream_on_outbound_batch messages).reports.bind fun _ => ih

/-- **Failures of the sink are returned just as far as this.** A call of `poll_outbound` returns
the error of each call on the sink that failed if and only if no `poll_ready` of it failed;
and when none fails during a call of `poll_outbound_write`, this returns the error of each
call that does. For `poll_outbound_write` there is no converse: a `poll_ready` that fails ends
its round of `poll_outbound` only, and when a batch is waiting there is another round. If the
sink is ready then and `start_send` fails with the same error as `poll_ready` did before, that
error is returned and none is missing, although a `poll_ready` has failed. -/
theorem sink_failures_returned_iff :
    (∀ io : MessageIo X (Logged σ), ∃ calls r io',
      MessageIo.poll_outbound.run io = MessageIo.ends r io' ∧
      io'.stream.calls = io.stream.calls ++ calls ∧
      ((∀ call ∈ calls, ∀ e, call.error = some e → r = .error (.err e)) ↔
        ∀ e, SinkCall.poll_ready (.ready (.error e)) ∉ calls)) ∧
    ∀ p : Protocol X (Logged σ), ∃ calls r p',
      poll_outbound_write.run p = MessageIo.ends r p' ∧
      p'.io.stream.calls = p.io.stream.calls ++ calls ∧
      ((∀ e, SinkCall.poll_ready (.ready (.error e)) ∉ calls) →
        ∀ call ∈ calls, ∀ e, call.error = some e → r = .error (.err e)) := by
  constructor
  · intro io
    obtain ⟨calls, r, io', hdrives, hrun, -, hcalls⟩ := MessageIo.poll_outbound_logged io
    exact ⟨calls, r, io', hrun, hcalls, failures_returned_iff hdrives⟩
  · exact keepsStream_get.reports.bind fun self => reports_poll_outbound_write_loop _

end protocol.Protocol

namespace mqueue

/-- A connection whose sink has failed: it is never ready again, and says so with an error. -/
structure Broken where
  stream : Memory

/-- What its sink answers. -/
def broken_pipe : IoError := ⟨.BrokenPipe, "broken pipe"⟩

instance : CipherTrait Broken where
  is_initiator self := CipherTrait.is_initiator self.stream
  local_public_key self := CipherTrait.local_public_key self.stream
  remote_public_key self := CipherTrait.remote_public_key self.stream
  handshake_hash self := CipherTrait.handshake_hash self.stream
  poll_next self := (.ready none, self)
  poll_ready self := (.ready (.error broken_pipe), self)
  start_send self _ := (.error broken_pipe, self)
  poll_flush self := (.ready (.error broken_pipe), self)

/-- A protocol over it, with a `Close` to be written. -/
def unwritable : Protocol compact_encoding.deps (Logged Broken) :=
  { (Protocol.new (⟨⟨Memory.connected true⟩, []⟩ : Logged Broken)) with
    io := ⟨⟨⟨Memory.connected true⟩, []⟩, [⟨1, .Close ⟨1⟩⟩]⟩ }

/-- The error is answered to `poll_ready` and not returned: `poll_outbound` is pending, and
`poll_outbound_write` succeeds. -/
theorem poll_ready_error_swallowed :
    (∃ io, MessageIo.poll_outbound.run unwritable.io = .ok .pending io ∧
      io.stream.calls = [.poll_ready (.ready (.error broken_pipe))] ∧
      io.write_queue = unwritable.io.write_queue) ∧
    ∃ p, Protocol.poll_outbound_write.run unwritable = .ok () p ∧
      p.io.stream.calls = [.poll_ready (.ready (.error broken_pipe))] :=
  ⟨⟨_, rfl, rfl, rfl⟩, ⟨_, rfl, rfl⟩⟩

end mqueue

end hypercore_protocol
