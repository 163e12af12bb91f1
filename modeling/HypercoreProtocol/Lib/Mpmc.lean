/-
A queue between senders and receivers that are counted.

Senders and receivers are values of their own that are cloned and dropped. The queue counts
both, and the last of either to go closes it. A closed queue takes no more messages; the
messages that are in it can still be received, and only then does it say that it has ended.

Such queues come from other crates, so they are a parameter here: `Mpmc` has the operations
and what can be observed of a queue, and `Lawful` has a law for each operation, which says
what it does to what is observed. Nothing else is assumed. `counters` is one such queue, for
runs that are evaluated.

The counts are state of the queue and can be wrong about the world. `Counted q s r` says that
they are right, and that the queue is closed only because one of them is zero. It is kept as
long as only ends that exist are cloned or dropped, and with it every answer of the queue can
be read off the ends that exist.
-/
import HypercoreProtocol.Lib.Method

set_option autoImplicit false

namespace Rust

/-- **The interface.** The operations of a crate for unbounded queues, and what can be
observed of a queue: the messages in it, the two counts, and whether it is closed. -/
structure Mpmc (α : Type) where
  Queue : Type
  /-- A new queue, with one sender and one receiver. -/
  unbounded : Queue
  clone_sender : Queue → Queue
  clone_receiver : Queue → Queue
  drop_sender : Queue → Queue
  drop_receiver : Queue → Queue
  /-- A message is sent. The answer says whether it was taken. -/
  try_send : Queue → α → Bool × Queue
  /-- A receiver is polled as a stream. -/
  poll_next : Queue → Poll (Option α) × Queue
  queue : Queue → List α
  sender_count : Queue → ℕ
  receiver_count : Queue → ℕ
  is_closed : Queue → Bool

namespace Mpmc

variable {α : Type} {Q : Mpmc α}

/-- The ends of the queue and its closing are as they were. Sending and receiving are of this
kind. -/
structure SameEnds (Q : Mpmc α) (q q' : Q.Queue) : Prop where
  senders : Q.sender_count q' = Q.sender_count q
  receivers : Q.receiver_count q' = Q.receiver_count q
  closed : Q.is_closed q' = Q.is_closed q

/-- A new queue is empty and open, and has an end on either side, as the pair that `unbounded`
returns. -/
structure IsNew (Q : Mpmc α) (q : Q.Queue) : Prop where
  queue : Q.queue q = []
  senders : Q.sender_count q = 1
  receivers : Q.receiver_count q = 1
  closed : Q.is_closed q = false

/-- The queue after a clone or a drop: the messages stay, the counts are these, and `last` is
whether the queue is closed by it. -/
structure Recounted (Q : Mpmc α) (q q' : Q.Queue) (senders receivers : ℕ) (last : Prop) : Prop where
  queue : Q.queue q' = Q.queue q
  senders : Q.sender_count q' = senders
  receivers : Q.receiver_count q' = receivers
  closed : Q.is_closed q' = true ↔ Q.is_closed q = true ∨ last

/-- **The laws.** What the operations do, one law for each. Dropping the last end of either
side closes the queue, and nothing opens it again. -/
structure Lawful (Q : Mpmc α) : Prop where
  unbounded : IsNew Q Q.unbounded
  clone_sender : ∀ q, Recounted Q q (Q.clone_sender q) (Q.sender_count q + 1)
    (Q.receiver_count q) False
  clone_receiver : ∀ q, Recounted Q q (Q.clone_receiver q) (Q.sender_count q)
    (Q.receiver_count q + 1) False
  drop_sender : ∀ q, Recounted Q q (Q.drop_sender q) (Q.sender_count q - 1)
    (Q.receiver_count q) (Q.sender_count q = 1)
  drop_receiver : ∀ q, Recounted Q q (Q.drop_receiver q) (Q.sender_count q)
    (Q.receiver_count q - 1) (Q.receiver_count q = 1)
  /-- An open queue takes a message and puts it behind the others. -/
  send_open : ∀ q a, Q.is_closed q = false → (Q.try_send q a).1 = true ∧
    Q.queue (Q.try_send q a).2 = Q.queue q ++ [a] ∧ SameEnds Q q (Q.try_send q a).2
  /-- A closed one refuses it. -/
  send_closed : ∀ q a, Q.is_closed q = true → (Q.try_send q a).1 = false ∧
    Q.queue (Q.try_send q a).2 = Q.queue q ∧ SameEnds Q q (Q.try_send q a).2
  /-- Messages are received from the front, also after the queue was closed. -/
  next_message : ∀ q a rest, Q.queue q = a :: rest → (Q.poll_next q).1 = .ready (some a) ∧
    Q.queue (Q.poll_next q).2 = rest ∧ SameEnds Q q (Q.poll_next q).2
  /-- With none left, the stream has ended if the queue is closed. -/
  next_empty : ∀ q, Q.queue q = [] →
    (Q.poll_next q).1 = (if Q.is_closed q then .ready none else .pending) ∧
    Q.queue (Q.poll_next q).2 = [] ∧ SameEnds Q q (Q.poll_next q).2

/-! ## Counting the ends that exist -/

/-- **The books are kept right.** There are `s` senders and `r` receivers, and the queue knows
it: it is closed exactly if one side has none. -/
structure Counted (Q : Mpmc α) (q : Q.Queue) (s r : ℕ) : Prop where
  senders : Q.sender_count q = s
  receivers : Q.receiver_count q = r
  closed : Q.is_closed q = true ↔ s = 0 ∨ r = 0

section Counted

variable {q q' : Q.Queue} {s r : ℕ} {a : α}

theorem Counted.congr {s' r' : ℕ} (h : Q.Counted q s r) (hs : s = s') (hr : r = r') :
    Q.Counted q s' r' := hs ▸ hr ▸ h

/-- What is in the queue does not matter for the counts, so that messages may come and go. -/
theorem Counted.same_ends (h : Q.Counted q s r) (hsame : SameEnds Q q q') : Q.Counted q' s r :=
  ⟨hsame.senders.trans h.senders, hsame.receivers.trans h.receivers, by
    rw [hsame.closed]
    exact h.closed⟩

theorem counted_unbounded (hQ : Q.Lawful) : Q.Counted Q.unbounded 1 1 := by
  refine ⟨hQ.unbounded.senders, hQ.unbounded.receivers, ?_⟩
  rw [hQ.unbounded.closed]
  simp

/-- After a clone or a drop, from what it does to the counts. The queue is closed when the last
end of a side goes. -/
theorem Counted.recounted {senders receivers : ℕ} {last : Prop} (h : Q.Counted q s r)
    (hre : Recounted Q q q' senders receivers last)
    (hlast : (s = 0 ∨ r = 0) ∨ last ↔ senders = 0 ∨ receivers = 0) :
    Q.Counted q' senders receivers :=
  ⟨hre.senders, hre.receivers, by rw [hre.closed, h.closed, hlast]⟩

/-- Only a sender that exists is cloned, so the queue does not come back to life: a side that is
gone stays gone. -/
theorem Counted.clone_sender (hQ : Q.Lawful) (h : Q.Counted q s r) (hs : 0 < s) :
    Q.Counted (Q.clone_sender q) (s + 1) r := by
  have hre := hQ.clone_sender q
  rw [h.senders, h.receivers] at hre
  exact h.recounted hre (by rw [or_false]; omega)

theorem Counted.clone_receiver (hQ : Q.Lawful) (h : Q.Counted q s r) (hr : 0 < r) :
    Q.Counted (Q.clone_receiver q) s (r + 1) := by
  have hre := hQ.clone_receiver q
  rw [h.senders, h.receivers] at hre
  exact h.recounted hre (by rw [or_false]; omega)

theorem Counted.drop_sender (hQ : Q.Lawful) (h : Q.Counted q s r) (hs : 0 < s) :
    Q.Counted (Q.drop_sender q) (s - 1) r := by
  have hre := hQ.drop_sender q
  rw [h.senders, h.receivers] at hre
  exact h.recounted hre (by omega)

theorem Counted.drop_receiver (hQ : Q.Lawful) (h : Q.Counted q s r) (hr : 0 < r) :
    Q.Counted (Q.drop_receiver q) s (r - 1) := by
  have hre := hQ.drop_receiver q
  rw [h.senders, h.receivers] at hre
  exact h.recounted hre (by omega)

/-! ## What the queue answers -/

/-- A sender that exists finds the queue closed exactly if there is no receiver. The count of
senders cannot be the cause. -/
theorem Counted.closed_to_sender (h : Q.Counted q s r) (hs : 0 < s) :
    Q.is_closed q = decide (r = 0) := by
  rw [Bool.eq_iff_iff, decide_eq_true_iff, h.closed]
  omega

/-- A receiver that exists finds it closed exactly if the senders are gone. -/
theorem Counted.closed_to_receiver (h : Q.Counted q s r) (hr : 0 < r) :
    Q.is_closed q = decide (s = 0) := by
  rw [Bool.eq_iff_iff, decide_eq_true_iff, h.closed]
  omega

/-- A message is taken exactly if there is a receiver, since the queue has no bound. -/
theorem Counted.try_send (hQ : Q.Lawful) (h : Q.Counted q s r) (hs : 0 < s) (a : α) :
    (Q.try_send q a).1 = !decide (r = 0) := by
  have hclosed := h.closed_to_sender hs
  by_cases hr : r = 0
  · rw [hr] at hclosed ⊢
    exact (hQ.send_closed q a hclosed).1
  · rw [decide_eq_false hr] at hclosed ⊢
    exact (hQ.send_open q a hclosed).1

/-- For a receiver that exists the queue has ended exactly if it is empty and the senders are
gone. -/
theorem Counted.poll_next (hQ : Q.Lawful) (h : Q.Counted q s r) (hr : 0 < r) :
    (Q.poll_next q).1 = .ready none ↔ Q.queue q = [] ∧ s = 0 := by
  cases hqueue : Q.queue q with
  | cons a rest =>
    rw [(hQ.next_message q a rest hqueue).1]
    simp
  | nil =>
    rw [(hQ.next_empty q hqueue).1, h.closed_to_receiver hr]
    by_cases hs : s = 0
    · simp [hs]
    · simp [hs]

/-- Sending and receiving leave the counts alone, whatever they answer. -/
theorem same_ends_try_send (hQ : Q.Lawful) (q : Q.Queue) (a : α) :
    SameEnds Q q (Q.try_send q a).2 := by
  cases hclosed : Q.is_closed q with
  | false => exact (hQ.send_open q a hclosed).2.2
  | true => exact (hQ.send_closed q a hclosed).2.2

theorem same_ends_poll_next (hQ : Q.Lawful) (q : Q.Queue) : SameEnds Q q (Q.poll_next q).2 := by
  cases hqueue : Q.queue q with
  | cons a rest => exact (hQ.next_message q a rest hqueue).2.2
  | nil => exact (hQ.next_empty q hqueue).2.2

end Counted

/-! ## A queue for evaluation -/

/-- A queue as its list, its counts and its flag: the least that has the laws. -/
structure Counters (α : Type) where
  queue : List α
  sender_count : ℕ
  receiver_count : ℕ
  closed : Bool

/-- The operations on them, as the documentation of such a queue has them. With this the laws are
seen to be consistent, and runs can be computed. -/
def counters (α : Type) : Mpmc α where
  Queue := Counters α
  unbounded := ⟨[], 1, 1, false⟩
  clone_sender q := { q with sender_count := q.sender_count + 1 }
  clone_receiver q := { q with receiver_count := q.receiver_count + 1 }
  drop_sender q := { q with
    sender_count := q.sender_count - 1
    closed := q.closed || q.sender_count == 1 }
  drop_receiver q := { q with
    receiver_count := q.receiver_count - 1
    closed := q.closed || q.receiver_count == 1 }
  try_send q a := if q.closed then (false, q) else (true, { q with queue := q.queue ++ [a] })
  poll_next q :=
    match q.queue with
    | a :: rest => (.ready (some a), { q with queue := rest })
    | [] => (if q.closed then .ready none else .pending, q)
  queue := Counters.queue
  sender_count := Counters.sender_count
  receiver_count := Counters.receiver_count
  is_closed := Counters.closed

theorem counters_lawful : (counters α).Lawful where
  unbounded := ⟨rfl, rfl, rfl, rfl⟩
  clone_sender q := ⟨rfl, rfl, rfl, (or_false _).symm.to_iff⟩
  clone_receiver q := ⟨rfl, rfl, rfl, (or_false _).symm.to_iff⟩
  drop_sender q := ⟨rfl, rfl, rfl, by simp [counters]⟩
  drop_receiver q := ⟨rfl, rfl, rfl, by simp [counters]⟩
  send_open q a h := by
    obtain ⟨queue, senders, receivers, closed⟩ := q
    obtain rfl : closed = false := h
    exact ⟨rfl, rfl, rfl, rfl, rfl⟩
  send_closed q a h := by
    obtain ⟨queue, senders, receivers, closed⟩ := q
    obtain rfl : closed = true := h
    exact ⟨rfl, rfl, rfl, rfl, rfl⟩
  next_message q a rest h := by
    obtain ⟨queue, senders, receivers, closed⟩ := q
    obtain rfl : queue = a :: rest := h
    exact ⟨rfl, rfl, rfl, rfl, rfl⟩
  next_empty q h := by
    obtain ⟨queue, senders, receivers, closed⟩ := q
    obtain rfl : queue = [] := h
    exact ⟨rfl, rfl, rfl, rfl, rfl⟩

end Mpmc

end Rust
