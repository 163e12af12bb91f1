/-
The ends of a channel's inbound queue.

A channel is read as a stream, and readers loop over it until it ends. Whether it does
depends on who still holds a sender of its queue: the handle in the protocol has one, every
`local_sender` is one, and so has every `Channel` itself, next to the receiver it reads from.
The receiver may be taken out of a `Channel`, and channels, receivers and senders may be
cloned and dropped in any order.

A `Line` is one queue with all that hold an end of it, and its calls are those that the
application and the protocol can make. The queue itself is that of another crate: it is a
parameter, `Q`, and what is known of it are the laws of `Mpmc`. What is said here is about who
holds which ends. `channel_streams_end` says when the streams end: a `Channel` that still has
its receiver never does, not even when its channel is closed; a receiver that was taken out
does once it is drained and every `Channel`, every local sender and the handle are gone. A
message from the remote is refused exactly if no receiver is left. The sessions of this
development know of all this only whether a receiver is left (`Inbox.receiver_alive`);
`try_send_inbound_line` says that this is enough.
-/
import HypercoreProtocol.Channels
import HypercoreProtocol.CompactEncoding
import HypercoreProtocol.Lib.Mpmc
import HypercoreProtocol.Lib.Trace

set_option autoImplicit false
-- the source has a field `channels` in its module `channels`
set_option linter.dupNamespace false

namespace hypercore_protocol.channels

open Rust Runs message

variable {X : Deps} {Q : Mpmc (Message X)}

/-- **One inbound queue**, and what holds an end of it. A session keeps only the messages and
whether somebody listens; here every end is counted, since when a stream ends depends on all of
them. -/
structure Line (Q : Mpmc (Message X)) where
  queue : Q.Queue
  /-- The handle in the protocol still has its `inbound_tx`. -/
  inbound_tx : Bool
  /-- The `Channel`s, each with a sender and, as long as it is not taken, its `inbound_rx`. -/
  channels : List Bool
  /-- Receivers outside of a `Channel`. -/
  receivers : ℕ
  /-- Senders that `local_sender` has given. -/
  senders : ℕ

/-- A call on something that holds an end: a `Channel`, a receiver that was taken out of one, a
local sender, or the handle in the protocol. -/
inductive LineCall (X : Deps) where
  /-- `Clone for Channel`. -/
  | clone_channel (i : ℕ)
  | drop_channel (i : ℕ)
  /-- `Channel::take_receiver`. -/
  | take_receiver (i : ℕ)
  /-- `Channel::local_sender`. -/
  | local_sender (i : ℕ)
  /-- `Stream for Channel`. -/
  | poll_channel (i : ℕ)
  | clone_receiver
  | drop_receiver
  | poll_receiver
  | clone_sender
  | drop_sender
  | send (message : Message X)
  /-- `ChannelHandle::try_send_inbound`. -/
  | try_send_inbound (message : Message X)
  /-- The handle is dropped, or it is opened again and gets a new queue. -/
  | drop_inbound_tx

inductive Answer (X : Deps) where
  | done
  | sent (taken : Bool)
  | polled (next : Poll (Option (Message X)))

namespace Line

variable {self self' : Line Q} {call : LineCall X} {answer : Answer X} {i : ℕ} {rx : Bool}

/-- `ChannelHandle::open`: the handle keeps the sender, and the channel gets a clone of it
with the receiver. -/
def opened : Line Q := ⟨Q.clone_sender Q.unbounded, true, [true], 0, 0⟩

/-- The receiving end of a `Channel`, if it has not been taken, is cloned or dropped too. -/
def on_receiver (rx : Bool) (f : Q.Queue → Q.Queue) (queue : Q.Queue) : Q.Queue :=
  if rx then f queue else queue

/-- A message is sent by an end that exists, and the queue says whether it was taken. -/
def put (self : Line Q) (message : Message X) : Answer X × Line Q :=
  (.sent (Q.try_send self.queue message).1,
    { self with queue := (Q.try_send self.queue message).2 })

/-- The queue is polled by an end that exists, which gets a message, waits, or is told that the
stream has ended. -/
def next (self : Line Q) : Answer X × Line Q :=
  (.polled (Q.poll_next self.queue).1, { self with queue := (Q.poll_next self.queue).2 })

/-- One more sender outside of a `Channel`. -/
def cloned_sender (self : Line Q) : Line Q :=
  { self with queue := Q.clone_sender self.queue, senders := self.senders + 1 }

/-- A call, if what it is made on exists. Rust allows no other: an end that was dropped cannot be
used. -/
def perform (self : Line Q) : LineCall X → Option (Answer X × Line Q)
  | .clone_channel i => self.channels[i]?.map fun rx =>
    (.done, { self with
      queue := on_receiver rx Q.clone_receiver (Q.clone_sender self.queue)
      channels := self.channels ++ [rx] })
  | .drop_channel i => self.channels[i]?.map fun rx =>
    (.done, { self with
      queue := Q.drop_sender (on_receiver rx Q.drop_receiver self.queue)
      channels := self.channels.eraseIdx i })
  | .take_receiver i => self.channels[i]?.map fun rx =>
    (.done, { self with
      channels := self.channels.set i false
      receivers := self.receivers + rx.toNat })
  | .local_sender i => self.channels[i]?.map fun _ => (.done, self.cloned_sender)
  | .poll_channel i => self.channels[i]?.map fun rx =>
    if rx then self.next else (.polled (.ready none), self)
  | .clone_receiver => if self.receivers = 0 then none else
    some (.done, { self with
      queue := Q.clone_receiver self.queue
      receivers := self.receivers + 1 })
  | .drop_receiver => if self.receivers = 0 then none else
    some (.done, { self with
      queue := Q.drop_receiver self.queue
      receivers := self.receivers - 1 })
  | .poll_receiver => if self.receivers = 0 then none else some self.next
  | .clone_sender => if self.senders = 0 then none else some (.done, self.cloned_sender)
  | .drop_sender => if self.senders = 0 then none else
    some (.done, { self with queue := Q.drop_sender self.queue, senders := self.senders - 1 })
  | .send message => if self.senders = 0 then none else some (self.put message)
  | .try_send_inbound message => if self.inbound_tx then some (self.put message) else none
  | .drop_inbound_tx => if self.inbound_tx then
    some (.done, { self with queue := Q.drop_sender self.queue, inbound_tx := false }) else none

/-! ## The counters are right -/

/-- The senders that exist: that of the handle, one in each `Channel`, and those that were
cloned. -/
def senders_left (self : Line Q) : ℕ :=
  self.inbound_tx.toNat + self.channels.length + self.senders

/-- The receivers that exist: those in a `Channel`, and those that were taken out of one. -/
def receivers_left (self : Line Q) : ℕ := self.channels.count true + self.receivers

/-- The queue has counted what exists. This is the invariant, and by it the answers of the queue
can be told from the ends. -/
def Fair (self : Line Q) : Prop := Q.Counted self.queue self.senders_left self.receivers_left

/-- The `Channel` at a place, with those before and after it. -/
theorem channels_split (h : self.channels[i]? = some rx) :
    ∃ l r, self.channels = l ++ rx :: r ∧ l.length = i := by
  obtain ⟨hi, rfl⟩ := List.getElem?_eq_some_iff.mp h
  refine ⟨self.channels.take i, self.channels.drop (i + 1), ?_, List.length_take_of_le hi.le⟩
  rw [List.getElem_cons_drop, List.take_append_drop]

theorem count_split (l r : List Bool) (rx : Bool) :
    (l ++ rx :: r).count true = l.count true + r.count true + rx.toNat := by
  rw [List.count_append, List.count_cons]
  cases rx with
  | false => rfl
  | true => rfl

theorem senders_pos (h : self.channels[i]? = some rx) : 0 < self.senders_left := by
  obtain ⟨l, r, hsplit, -⟩ := channels_split h
  rw [senders_left, hsplit, List.length_append, List.length_cons]
  omega

theorem receivers_pos (h : self.channels[i]? = some true) : 0 < self.receivers_left := by
  obtain ⟨l, r, hsplit, -⟩ := channels_split h
  rw [receivers_left, hsplit, count_split, Bool.toNat_true]
  omega

theorem senders_pos_of_sender (h : self.senders ≠ 0) : 0 < self.senders_left := by
  rw [senders_left]
  omega

theorem receivers_pos_of_receiver (h : self.receivers ≠ 0) : 0 < self.receivers_left := by
  rw [receivers_left]
  omega

section Fair

variable (hQ : Q.Lawful)
include hQ

theorem Fair.put (h : self.Fair) (message : Message X) : (self.put message).2.Fair :=
  Mpmc.Counted.same_ends h (Mpmc.same_ends_try_send hQ self.queue message)

theorem Fair.next (h : self.Fair) : self.next.2.Fair :=
  Mpmc.Counted.same_ends h (Mpmc.same_ends_poll_next hQ self.queue)

/-- A clone of a `Channel` has a sender, and a receiver if there is one to clone. -/
theorem Fair.cloned_channel (h : self.Fair) (hi : self.channels[i]? = some rx) :
    ({ self with
      queue := on_receiver rx Q.clone_receiver (Q.clone_sender self.queue)
      channels := self.channels ++ [rx] } : Line Q).Fair := by
  have hcounted : Q.Counted (on_receiver rx Q.clone_receiver (Q.clone_sender self.queue))
      (self.senders_left + 1) (self.receivers_left + rx.toNat) := by
    have hcloned := h.clone_sender hQ (senders_pos hi)
    cases rx with
    | false => exact hcloned
    | true => exact hcloned.clone_receiver hQ (receivers_pos hi)
  refine hcounted.congr ?_ ?_
  · simp only [senders_left, List.length_append, List.length_singleton]
    omega
  · simp only [receivers_left, count_split, List.count_nil]
    omega

/-- A `Channel` that is dropped takes its ends with it, the sender and, if it still has one, the
receiver. -/
theorem Fair.dropped_channel (h : self.Fair) (hi : self.channels[i]? = some rx) :
    ({ self with
      queue := Q.drop_sender (on_receiver rx Q.drop_receiver self.queue)
      channels := self.channels.eraseIdx i } : Line Q).Fair := by
  have hcounted : Q.Counted (Q.drop_sender (on_receiver rx Q.drop_receiver self.queue))
      (self.senders_left - 1) (self.receivers_left - rx.toNat) := by
    cases rx with
    | false => exact h.drop_sender hQ (senders_pos hi)
    | true => exact (h.drop_receiver hQ (receivers_pos hi)).drop_sender hQ (senders_pos hi)
  obtain ⟨l, r, hsplit, rfl⟩ := channels_split hi
  refine hcounted.congr ?_ ?_
  · simp only [senders_left, hsplit, List.eraseIdx_append_of_length_le (Nat.le_refl _),
      Nat.sub_self, List.eraseIdx_cons_zero, List.length_append, List.length_cons]
    omega
  · simp only [receivers_left, hsplit, List.eraseIdx_append_of_length_le (Nat.le_refl _),
      Nat.sub_self, List.eraseIdx_cons_zero, count_split]
    rw [List.count_append]
    omega

omit hQ in
/-- A receiver that is taken moves, it is not cloned, so that the counts stay as they are. -/
theorem Fair.taken_receiver (h : self.Fair) (hi : self.channels[i]? = some rx) :
    ({ self with
      channels := self.channels.set i false
      receivers := self.receivers + rx.toNat } : Line Q).Fair := by
  obtain ⟨l, r, hsplit, rfl⟩ := channels_split hi
  refine Mpmc.Counted.congr h ?_ ?_
  · simp only [senders_left, List.length_set]
  · simp only [receivers_left, hsplit, List.set_append_right _ _ (Nat.le_refl _), Nat.sub_self,
      List.set_cons_zero, count_split, Bool.toNat_false]
    omega

theorem Fair.cloned_sender (h : self.Fair) (hs : 0 < self.senders_left) :
    self.cloned_sender.Fair :=
  (h.clone_sender hQ hs).congr (Nat.add_assoc _ _ _) rfl

theorem Fair.dropped_sender (h : self.Fair) (hs : self.senders ≠ 0) :
    ({ self with
      queue := Q.drop_sender self.queue
      senders := self.senders - 1 } : Line Q).Fair := by
  refine (h.drop_sender hQ (senders_pos_of_sender hs)).congr ?_ rfl
  simp only [senders_left]
  omega

theorem Fair.cloned_receiver (h : self.Fair) (hr : self.receivers ≠ 0) :
    ({ self with
      queue := Q.clone_receiver self.queue
      receivers := self.receivers + 1 } : Line Q).Fair :=
  (h.clone_receiver hQ (receivers_pos_of_receiver hr)).congr rfl (Nat.add_assoc _ _ _)

theorem Fair.dropped_receiver (h : self.Fair) (hr : self.receivers ≠ 0) :
    ({ self with
      queue := Q.drop_receiver self.queue
      receivers := self.receivers - 1 } : Line Q).Fair := by
  refine (h.drop_receiver hQ (receivers_pos_of_receiver hr)).congr rfl ?_
  simp only [receivers_left]
  omega

theorem Fair.dropped_inbound_tx (h : self.Fair) (htx : self.inbound_tx = true) :
    ({ self with queue := Q.drop_sender self.queue, inbound_tx := false } : Line Q).Fair := by
  refine (h.drop_sender hQ ?_).congr ?_ rfl
  · rw [senders_left, htx, Bool.toNat_true]
    omega
  · simp only [senders_left, htx, Bool.toNat_true, Bool.toNat_false]
    omega

/-- A call on something that exists keeps the counters right. One case for each kind of call. -/
theorem Fair.perform (h : self.Fair) (hcall : self.perform call = some (answer, self')) :
    self'.Fair := by
  cases call with
  | clone_channel i =>
    obtain ⟨rx, hi, ⟨⟩⟩ := Option.map_eq_some_iff.mp hcall
    exact h.cloned_channel hQ hi
  | drop_channel i =>
    obtain ⟨rx, hi, ⟨⟩⟩ := Option.map_eq_some_iff.mp hcall
    exact h.dropped_channel hQ hi
  | take_receiver i =>
    obtain ⟨rx, hi, ⟨⟩⟩ := Option.map_eq_some_iff.mp hcall
    exact h.taken_receiver hi
  | local_sender i =>
    obtain ⟨rx, hi, ⟨⟩⟩ := Option.map_eq_some_iff.mp hcall
    exact h.cloned_sender hQ (senders_pos hi)
  | poll_channel i =>
    obtain ⟨rx, hi, heq⟩ := Option.map_eq_some_iff.mp hcall
    cases rx with
    | true => cases heq; exact h.next hQ
    | false => cases heq; exact h
  | clone_receiver =>
    obtain ⟨hr, ⟨⟩⟩ := Option.ite_none_left_eq_some.mp hcall
    exact h.cloned_receiver hQ hr
  | drop_receiver =>
    obtain ⟨hr, ⟨⟩⟩ := Option.ite_none_left_eq_some.mp hcall
    exact h.dropped_receiver hQ hr
  | poll_receiver =>
    obtain ⟨-, ⟨⟩⟩ := Option.ite_none_left_eq_some.mp hcall
    exact h.next hQ
  | clone_sender =>
    obtain ⟨hs, ⟨⟩⟩ := Option.ite_none_left_eq_some.mp hcall
    exact h.cloned_sender hQ (senders_pos_of_sender hs)
  | drop_sender =>
    obtain ⟨hs, ⟨⟩⟩ := Option.ite_none_left_eq_some.mp hcall
    exact h.dropped_sender hQ hs
  | send message =>
    obtain ⟨-, ⟨⟩⟩ := Option.ite_none_left_eq_some.mp hcall
    exact h.put hQ message
  | try_send_inbound message =>
    obtain ⟨-, ⟨⟩⟩ := Option.ite_none_right_eq_some.mp hcall
    exact h.put hQ message
  | drop_inbound_tx =>
    obtain ⟨htx, ⟨⟩⟩ := Option.ite_none_right_eq_some.mp hcall
    exact h.dropped_inbound_tx hQ htx

end Fair

/-! ## What the queue holds -/

end Line

/-- The message that a call puts into the queue, if the queue has taken it. -/
def LineCall.puts : LineCall X → Answer X → List (Message X)
  | .send message, .sent true => [message]
  | .try_send_inbound message, .sent true => [message]
  | _, _ => []

/-- The message that an answer carries, if it carries one. -/
def Answer.gets : Answer X → List (Message X)
  | .polled (.ready (some message)) => [message]
  | _ => []

namespace Line

variable {self self' : Line Q} {call : LineCall X} {answer : Answer X} {i : ℕ} {rx : Bool}
  (hQ : Q.Lawful)

section Content

omit hQ in
/-- A call that carries no message. -/
theorem content_kept {queue : Q.Queue} (h : Q.queue queue = Q.queue self.queue) :
    Q.queue self.queue ++ [] = [] ++ Q.queue queue :=
  (List.append_nil _).trans h.symm

include hQ

/-- A message that is taken is the last one of the queue from then on, and one that is refused
leaves the queue as it was. -/
theorem put_queue (message : Message X) (hcall : self.put message = (answer, self')) :
    answer.gets = [] ∧
      ((answer = .sent true ∧ Q.queue self'.queue = Q.queue self.queue ++ [message]) ∨
        (answer = .sent false ∧ Q.queue self'.queue = Q.queue self.queue)) := by
  cases hcall
  cases hclosed : Q.is_closed self.queue with
  | false =>
    obtain ⟨htaken, hqueue, -⟩ := hQ.send_open self.queue message hclosed
    exact ⟨rfl, Or.inl ⟨congrArg Answer.sent htaken, hqueue⟩⟩
  | true =>
    obtain ⟨htaken, hqueue, -⟩ := hQ.send_closed self.queue message hclosed
    exact ⟨rfl, Or.inr ⟨congrArg Answer.sent htaken, hqueue⟩⟩

/-- A poll takes the first message, if there is one. -/
theorem next_queue (hcall : self.next = (answer, self')) :
    Q.queue self.queue = answer.gets ++ Q.queue self'.queue := by
  cases hcall
  show _ = Answer.gets (.polled (Q.poll_next self.queue).1) ++ Q.queue (Q.poll_next self.queue).2
  cases hqueue : Q.queue self.queue with
  | cons message rest =>
    obtain ⟨hnext, hrest, -⟩ := hQ.next_message self.queue message rest hqueue
    rw [hnext, hrest]
    rfl
  | nil =>
    obtain ⟨hnext, hrest, -⟩ := hQ.next_empty self.queue hqueue
    rw [hnext, hrest]
    split
    · rfl
    · rfl

/-- A call adds at the end what it puts and removes from the front what it gets. -/
theorem perform_queue (hcall : self.perform call = some (answer, self')) :
    Q.queue self.queue ++ call.puts answer = answer.gets ++ Q.queue self'.queue := by
  -- clones and drops leave the messages where they are
  have hreceiver : ∀ {f : Q.Queue → Q.Queue}, (∀ q, Q.queue (f q) = Q.queue q) →
      ∀ (rx : Bool) q, Q.queue (on_receiver rx f q) = Q.queue q := by
    intro f hf rx q
    cases rx with
    | false => rfl
    | true => exact hf q
  cases call with
  | clone_channel i =>
    obtain ⟨rx, hi, ⟨⟩⟩ := Option.map_eq_some_iff.mp hcall
    exact content_kept ((hreceiver (fun q => (hQ.clone_receiver q).queue) rx _).trans
      (hQ.clone_sender _).queue)
  | drop_channel i =>
    obtain ⟨rx, hi, ⟨⟩⟩ := Option.map_eq_some_iff.mp hcall
    exact content_kept ((hQ.drop_sender _).queue.trans
      (hreceiver (fun q => (hQ.drop_receiver q).queue) rx _))
  | take_receiver i =>
    obtain ⟨rx, hi, ⟨⟩⟩ := Option.map_eq_some_iff.mp hcall
    exact content_kept rfl
  | local_sender i =>
    obtain ⟨rx, hi, ⟨⟩⟩ := Option.map_eq_some_iff.mp hcall
    exact content_kept (hQ.clone_sender _).queue
  | poll_channel i =>
    obtain ⟨rx, hi, heq⟩ := Option.map_eq_some_iff.mp hcall
    cases rx with
    | true => exact (List.append_nil _).trans (next_queue hQ heq)
    | false => cases heq; exact content_kept rfl
  | poll_receiver =>
    obtain ⟨hsome, heq⟩ := Option.ite_none_left_eq_some.mp hcall
    exact (List.append_nil _).trans (next_queue hQ (Option.some.inj heq))
  | clone_receiver =>
    obtain ⟨-, ⟨⟩⟩ := Option.ite_none_left_eq_some.mp hcall
    exact content_kept (hQ.clone_receiver _).queue
  | drop_receiver =>
    obtain ⟨-, ⟨⟩⟩ := Option.ite_none_left_eq_some.mp hcall
    exact content_kept (hQ.drop_receiver _).queue
  | clone_sender =>
    obtain ⟨-, ⟨⟩⟩ := Option.ite_none_left_eq_some.mp hcall
    exact content_kept (hQ.clone_sender _).queue
  | drop_sender =>
    obtain ⟨-, ⟨⟩⟩ := Option.ite_none_left_eq_some.mp hcall
    exact content_kept (hQ.drop_sender _).queue
  | drop_inbound_tx =>
    obtain ⟨-, ⟨⟩⟩ := Option.ite_none_right_eq_some.mp hcall
    exact content_kept (hQ.drop_sender _).queue
  | send message =>
    obtain ⟨hsome, heq⟩ := Option.ite_none_left_eq_some.mp hcall
    obtain ⟨hgets, ⟨rfl, hqueue⟩ | ⟨rfl, hqueue⟩⟩ := put_queue hQ message (Option.some.inj heq)
    · exact hqueue.symm
    · exact (List.append_nil _).trans hqueue.symm
  | try_send_inbound message =>
    obtain ⟨hsome, heq⟩ := Option.ite_none_right_eq_some.mp hcall
    obtain ⟨hgets, ⟨rfl, hqueue⟩ | ⟨rfl, hqueue⟩⟩ := put_queue hQ message (Option.some.inj heq)
    · exact hqueue.symm
    · exact (List.append_nil _).trans hqueue.symm

end Content

/-! ## What the calls answer -/

/-- What a call would answer, without making it. The theorem below speaks of every call that
could come next. -/
def answers (self : Line Q) (call : LineCall X) : Option (Answer X) :=
  (self.perform call).map Prod.fst

section Answers

include hQ

/-- The receiver in a `Channel` has a sender next to it, and this is why the stream of a
`Channel` never ends by itself. -/
theorem Fair.answers_poll_channel (h : self.Fair) :
    self.answers (.poll_channel i) = some (.polled (.ready none)) ↔
      self.channels[i]? = some false := by
  rw [answers, Line.perform, Option.map_map]
  cases hi : self.channels[i]? with
  | none => simp
  | some rx =>
    cases rx with
    | false => simp
    | true =>
      have hnext := h.poll_next hQ (receivers_pos hi)
      have hpos := (senders_pos hi).ne'
      simp [Line.next, hnext, hpos]

theorem Fair.answers_poll_receiver (h : self.Fair) :
    self.answers .poll_receiver = some (.polled (.ready none)) ↔
      0 < self.receivers ∧ Q.queue self.queue = [] ∧ self.senders_left = 0 := by
  rw [answers, Line.perform]
  by_cases hr : self.receivers = 0
  · simp [hr]
  · have hnext := h.poll_next hQ (receivers_pos_of_receiver hr)
    simp [hr, Line.next, hnext, Nat.pos_of_ne_zero hr]

/-- The handle has a sender, so only the receivers matter for whether its message is taken. -/
theorem Fair.put_taken (h : self.Fair) (message : Message X) (htx : self.inbound_tx = true) :
    (self.put message).1 = .sent !decide (self.receivers_left = 0) := by
  have hs : 0 < self.senders_left := by
    rw [senders_left, htx, Bool.toNat_true]
    omega
  exact congrArg Answer.sent (h.try_send hQ hs message)

theorem Fair.answers_try_send_inbound (h : self.Fair) (message : Message X) :
    self.answers (.try_send_inbound message) = some (.sent false) ↔
      self.inbound_tx = true ∧ self.receivers_left = 0 := by
  rw [answers, Line.perform]
  by_cases htx : self.inbound_tx = true
  · rw [if_pos htx, Option.map_some, h.put_taken hQ message htx]
    simp [htx]
  · simp [htx]

end Answers

omit hQ in
theorem senders_left_eq_zero : self.senders_left = 0 ↔
    self.inbound_tx = false ∧ self.channels = [] ∧ self.senders = 0 := by
  rw [senders_left, Nat.add_eq_zero_iff, Nat.add_eq_zero_iff, Bool.toNat_eq_zero,
    List.length_eq_zero_iff, and_assoc]

omit hQ in
theorem receivers_left_eq_zero : self.receivers_left = 0 ↔
    true ∉ self.channels ∧ self.receivers = 0 := by
  rw [receivers_left, Nat.add_eq_zero_iff, List.count_eq_zero]

/-! ## Whole runs -/

/-- A call with its answer, as a step of a run. -/
def LineStep (self : Line Q) (act : LineCall X × Answer X) (self' : Line Q) : Prop :=
  self.perform act.1 = some (act.2, self')

/-- Calls one after the other. -/
def performs (self : Line Q) (calls : List (LineCall X)) :
    Option (List (Transition (Line Q) (LineCall X × Answer X)) × Line Q) :=
  execute (fun self call => (self.perform call).map fun r => ((call, r.1), r.2)) self calls

omit hQ in
theorem performs_run {calls : List (LineCall X)} {last : Line Q}
    {tr : List (Transition (Line Q) (LineCall X × Answer X))}
    (h : self.performs calls = some (tr, last)) : Run LineStep self tr last := by
  refine (execute_run (C := fun _ => True) h fun self call act self' h => ⟨?_, trivial⟩).1
  obtain ⟨⟨answer, self''⟩, hcall, heq⟩ := Option.map_eq_some_iff.mp h
  cases heq
  exact hcall

include hQ in
theorem reachable_fair {tr : List (Transition (Line Q) (LineCall X × Answer X))}
    (run : Run LineStep opened tr self) : self.Fair :=
  run.invariant (I := fun _ self => self.Fair)
    ((Mpmc.counted_unbounded hQ).clone_sender hQ Nat.one_pos) fun _ _ _ _ _ h hstep =>
    h.perform hQ hstep

include hQ in
/-- When the streams of a channel end, over every lawful queue. After any calls on a queue and
on what holds its ends: the messages that were received, by whichever receiver, and those that
wait are the messages that were taken, in order. A `Channel` that is polled says that it has
ended only if its receiver was taken out: with the receiver in it, it never ends, since it
holds a sender of its own. A receiver that was taken out says so exactly if nothing is left to
receive, the handle is gone or has a new queue, and every `Channel` and every local sender has
been dropped. And a message from the remote is refused exactly if there is no receiver, in a
`Channel` or outside. -/
theorem channel_streams_end {tr : List (Transition (Line Q) (LineCall X × Answer X))}
    (run : Run LineStep opened tr self) :
    (tr.flatMap fun t => t.act.2.gets) ++ Q.queue self.queue =
      (tr.flatMap fun t => t.act.1.puts t.act.2) ∧
    (∀ i, self.answers (.poll_channel i) = some (.polled (.ready none)) ↔
      self.channels[i]? = some false) ∧
    (self.answers .poll_receiver = some (.polled (.ready none)) ↔
      0 < self.receivers ∧ Q.queue self.queue = [] ∧
        self.inbound_tx = false ∧ self.channels = [] ∧ self.senders = 0) ∧
    ∀ message, self.answers (.try_send_inbound message) = some (.sent false) ↔
      self.inbound_tx = true ∧ true ∉ self.channels ∧ self.receivers = 0 := by
  have hfair := reachable_fair hQ run
  refine ⟨?_, fun i => hfair.answers_poll_channel hQ, ?_, fun message => ?_⟩
  · refine run.conserves (q := fun self => Q.queue self.queue)
      (i := fun t => t.act.1.puts t.act.2) (o := fun t => t.act.2.gets) ?_
      fun _ _ _ _ _ hstep => perform_queue hQ hstep
    exact (hQ.clone_sender _).queue.trans hQ.unbounded.queue
  · rw [hfair.answers_poll_receiver hQ, senders_left_eq_zero]
  · rw [hfair.answers_try_send_inbound hQ, receivers_left_eq_zero]

/-- The remote sends a message and closes the channel. The receiver is taken out of a clone
and reads the message; the stream goes on while the first `Channel` is there, and ends when
both have been dropped. -/
theorem channel_streams_end_taken :
    ∃ tr, ∃ self : Line (Mpmc.counters (Message compact_encoding.deps)),
    Run LineStep opened tr self ∧
    tr.map (fun t => t.act.2.gets) = [[], [], [], [], [.Cancel ⟨5⟩], [], [], []] ∧
    (tr.map Transition.act)[5]? = some (.poll_receiver, .polled .pending) ∧
    self.answers .poll_receiver = some (.polled (.ready none)) := by
  have hperforms : (opened : Line (Mpmc.counters (Message compact_encoding.deps))).performs
      [.try_send_inbound (.Cancel ⟨5⟩), .drop_inbound_tx, .clone_channel 0, .take_receiver 1,
        .poll_receiver, .poll_receiver, .drop_channel 0, .drop_channel 0] = some (_, _) := rfl
  have run := performs_run hperforms
  exact ⟨_, _, run, rfl, rfl, (channel_streams_end Mpmc.counters_lawful run).2.2.1.mpr
    ⟨by decide, rfl, rfl, rfl, rfl⟩⟩

/-! ## The queue of a session -/

/-- What a session keeps of a queue: the messages, and whether there is a receiver. The lemmas
below say that this is enough for what the protocol does. -/
def inbox (self : Line Q) : Inbox X := ⟨Q.queue self.queue, decide (0 < self.receivers_left)⟩

include hQ in
/-- The handle of a session sends by what is kept of the queue, and that agrees with what the
queue itself does. -/
theorem try_send_inbound_line (h : self.Fair) (htx : self.inbound_tx = true)
    {map : ChannelMap X} {handle : ChannelHandle} {n : ℕ} (hn : handle.inbound_tx = some n)
    (hread : map.shared.inboxes.read n = some self.inbox) (message : Message X) :
    ∃ answer self', self.perform (.try_send_inbound message) = some (answer, self') ∧
      ((answer = .sent true ∧ ∃ map', (handle.try_send_inbound message).run map = .ok () map' ∧
          map'.shared.inboxes.read n = some self'.inbox) ∨
        (answer = .sent false ∧ self'.inbox = self.inbox ∧
          ∃ e, (handle.try_send_inbound message).run map = .error (.err e) map)) := by
  have htaken := h.put_taken hQ message htx
  obtain ⟨-, hcases⟩ := put_queue hQ message (rfl : self.put message = _)
  refine ⟨(self.put message).1, (self.put message).2, if_pos htx, ?_⟩
  by_cases hr : self.receivers_left = 0
  · rw [decide_eq_true hr] at htaken
    rcases hcases with ⟨hsent, -⟩ | ⟨-, hqueue⟩
    · cases hsent.symm.trans htaken
    · refine Or.inr ⟨htaken, congrArg (Inbox.mk · _) hqueue,
        error "Sending to channel failed: sending into a closed channel", ?_⟩
      simp [ChannelHandle.try_send_inbound, hn, ChannelMap.try_send, hread, inbox, hr]
  · have hpos : 0 < self.receivers_left := Nat.pos_of_ne_zero hr
    rw [decide_eq_false hr] at htaken
    rcases hcases with ⟨-, hqueue⟩ | ⟨hsent, -⟩
    · refine Or.inl ⟨htaken, { map with shared := map.shared.push n message }, ?_, ?_⟩
      · simp [ChannelHandle.try_send_inbound, hn, ChannelMap.try_send, hread, inbox, hpos]
      · rw [Shared.push, Arena.read_update_self, hread]
        exact congrArg (fun queue => some (Inbox.mk queue _)) hqueue.symm
    · cases hsent.symm.trans htaken

omit hQ in
/-- Receivers are made of receivers, so that a queue nobody can receive from stays so. -/
theorem perform_receivers_left (hcall : self.perform call = some (answer, self'))
    (h : self.receivers_left = 0) : self'.receivers_left = 0 := by
  have hrx : ∀ {i rx}, self.channels[i]? = some rx → rx = false := fun {i rx} hi => by
    cases rx with
    | false => rfl
    | true => exact absurd h (receivers_pos hi).ne'
  obtain ⟨hchannels, hreceivers⟩ := receivers_left_eq_zero.mp h
  cases call with
  | clone_channel i =>
    obtain ⟨rx, hi, heq⟩ := Option.map_eq_some_iff.mp hcall
    obtain rfl := hrx hi
    cases heq
    refine receivers_left_eq_zero.mpr ⟨fun hmem => ?_, hreceivers⟩
    rcases List.mem_append.mp hmem with hmem | hmem
    · exact hchannels hmem
    · simp at hmem
  | drop_channel i =>
    obtain ⟨rx, hi, heq⟩ := Option.map_eq_some_iff.mp hcall
    cases heq
    exact receivers_left_eq_zero.mpr
      ⟨fun hmem => hchannels (List.mem_of_mem_eraseIdx hmem), hreceivers⟩
  | take_receiver i =>
    obtain ⟨rx, hi, heq⟩ := Option.map_eq_some_iff.mp hcall
    obtain rfl := hrx hi
    cases heq
    refine receivers_left_eq_zero.mpr ⟨fun hmem => ?_, hreceivers⟩
    rcases List.mem_or_eq_of_mem_set hmem with hmem | hmem
    · exact hchannels hmem
    · cases hmem
  | local_sender i =>
    obtain ⟨rx, hi, heq⟩ := Option.map_eq_some_iff.mp hcall
    cases heq
    exact h
  | poll_channel i =>
    obtain ⟨rx, hi, heq⟩ := Option.map_eq_some_iff.mp hcall
    obtain rfl := hrx hi
    cases heq
    exact h
  | clone_receiver | drop_receiver | poll_receiver =>
    exact absurd hreceivers (Option.ite_none_left_eq_some.mp hcall).1
  | clone_sender | drop_sender | send message =>
    obtain ⟨-, heq⟩ := Option.ite_none_left_eq_some.mp hcall
    cases heq
    exact h
  | try_send_inbound message | drop_inbound_tx =>
    obtain ⟨-, heq⟩ := Option.ite_none_right_eq_some.mp hcall
    cases heq
    exact h

include hQ in
/-- What else the calls do to a queue is what the application does to it in a session: a
message is put behind the others, the first is received, or the last receiver goes. A queue
without receivers stays without. -/
theorem perform_inbox (hcall : self.perform call = some (answer, self')) :
    self.inbox.queue ++ call.puts answer = answer.gets ++ self'.inbox.queue ∧
    (self'.inbox.receiver_alive = true → self.inbox.receiver_alive = true) := by
  refine ⟨perform_queue hQ hcall, fun h => decide_eq_true (Nat.pos_of_ne_zero fun hzero => ?_)⟩
  exact absurd (perform_receivers_left hcall hzero) (of_decide_eq_true h).ne'

end Line

end hypercore_protocol.channels
