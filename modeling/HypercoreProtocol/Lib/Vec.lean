/-
`Vec<T>` with the panics Rust gives it, and tables of optional slots.

A `Vec` carries the bound every Rust vector has, at most `usize::MAX` elements,
as a field: an index into one is therefore a `usize`, and a table index that
goes onto the wire as a `u64` comes back unchanged. Writing past the end panics,
and so does growing past what a single allocation may hold.

The second half is about a `Vec<Option<K>>` used as a table of slots, which is
read through `slot`: what is at an index, with an index past the end reading as
an empty slot.
-/
import HypercoreProtocol.Lib.Method

set_option autoImplicit false

namespace Rust

/-- The largest `usize` of a 64-bit target. The wire has 64-bit numbers too, so that none is too
large for an index. -/
abbrev USIZE_MAX : ℕ := 2 ^ 64 - 1

/-- The largest allocation Rust makes, `isize::MAX` bytes. What would be larger panics. -/
abbrev ISIZE_MAX : ℕ := 2 ^ 63 - 1

/-- Checked `usize` addition, as in a build with overflow checks: the sum, or a panic. -/
def usize_add {ε : Type} (a b : ℕ) : Res ε ℕ :=
  if a + b ≤ USIZE_MAX then .ok (a + b) else .error (.panic .overflow)

/-- **A Rust vector**: a list no longer than a `usize` can count. The bound is a field, so that a
length is always a number of the source. -/
@[ext] structure Vec (α : Type) where
  val : List α
  len_le : val.length ≤ USIZE_MAX
deriving DecidableEq

/-- A Rust string: text no longer than a `usize` can count, in bytes of UTF-8. -/
abbrev Str := { s : String // s.utf8ByteSize ≤ USIZE_MAX }

namespace Vec

variable {ε α κ : Type}

/-- `vec![]`. -/
def empty : Vec α := ⟨[], by simp⟩

/-- `vec![x]`. -/
def singleton (x : α) : Vec α := ⟨[x], by rw [List.length_singleton]; decide⟩

/-- `Vec::len`. -/
def len (v : Vec α) : ℕ := v.val.length

/-- `Vec::get`, which does not panic: beyond the end there is nothing. -/
def get? (v : Vec α) (i : ℕ) : Option α := v.val[i]?

/-- The assignment `v[i] = x`, which panics if there is no such element. -/
def index_set (v : Vec α) (i : ℕ) (x : α) : Res ε (Vec α) :=
  if i < v.len then .ok ⟨v.val.set i x, by rw [List.length_set]; exact v.len_le⟩
  else .error (.panic .index_out_of_bounds)

/-- How many elements of `size` bytes a vector can grow to: an allocation has at
most `isize::MAX` bytes. -/
def max_len (size : ℕ) : ℕ := ISIZE_MAX / size

theorem max_len_le (size : ℕ) : max_len size ≤ USIZE_MAX :=
  Nat.le_trans (Nat.div_le_self ISIZE_MAX size) (by decide)

/-- `Vec::push`, for elements of `size` bytes. It panics when the vector cannot grow any more. -/
def push (size : ℕ) (v : Vec α) (x : α) : Res ε (Vec α) :=
  if h : v.len < max_len size then
    .ok ⟨v.val ++ [x], by rw [List.length_append]; exact Nat.le_trans h (max_len_le size)⟩
  else .error (.panic .capacity_overflow)

/-- `Vec::resize`, for elements of `size` bytes: cut off, or filled up with copies of `x`. It
panics like `push`. -/
def resize (size : ℕ) (v : Vec α) (n : ℕ) (x : α) : Res ε (Vec α) :=
  if h : n ≤ max_len size then
    .ok ⟨v.val.take n ++ List.replicate (n - v.len) x, by
      have := max_len_le size
      rw [List.length_append, List.length_take, List.length_replicate]
      simp only [len]
      omega⟩
  else .error (.panic .capacity_overflow)

/-! ## Slots -/

/-- The key in slot `i`: `v.get(i)` with both layers of `Option` taken off. -/
def slot (v : Vec (Option κ)) (i : ℕ) : Option κ := (v.get? i).join

theorem slot_of_len_le {v : Vec (Option κ)} {i : ℕ} (h : v.len ≤ i) : v.slot i = none := by
  rw [slot, get?, List.getElem?_eq_none h, Option.join_none]

theorem lt_len_of_slot {v : Vec (Option κ)} {i : ℕ} {k : κ} (h : v.slot i = some k) :
    i < v.len := by
  by_contra hi
  rw [slot_of_len_le (Nat.le_of_not_lt hi)] at h
  exact nomatch h

/-- A table is its length and its slots: there is no more to see of it. -/
theorem ext_slot {v w : Vec (Option κ)} (hlen : v.len = w.len)
    (hslot : ∀ i, v.slot i = w.slot i) : v = w := by
  refine Vec.ext (List.ext_getElem hlen fun i hv hw => ?_)
  have h := hslot i
  rw [slot, slot, get?, get?, List.getElem?_eq_getElem hv, List.getElem?_eq_getElem hw,
    Option.join_some, Option.join_some] at h
  exact h

/-- Writing inside the table succeeds, keeps its length and changes one slot. -/
theorem index_set_spec (ε : Type) {v : Vec (Option κ)} {i : ℕ} (h : i < v.len) (x : Option κ) :
    ∃ w, (v.index_set i x : Res ε _) = .ok w ∧ w.len = v.len ∧
      ∀ j, w.slot j = if j = i then x else v.slot j := by
  refine ⟨⟨v.val.set i x, by rw [List.length_set]; exact v.len_le⟩, by rw [index_set, if_pos h],
    by simp only [len, List.length_set], ?_⟩
  intro j
  by_cases hj : j = i
  · subst hj
    rw [if_pos rfl, slot, get?, List.getElem?_set_self h, Option.join_some]
  · rw [if_neg hj, slot, get?, List.getElem?_set_ne (Ne.symm hj), slot, get?]

/-- Pushing an empty slot adds index `v.len` and changes no reading, since what is beyond the end
reads as empty too. -/
theorem push_none_spec (ε : Type) {size : ℕ} {v : Vec (Option κ)} (h : v.len < max_len size) :
    ∃ w, (v.push size none : Res ε _) = .ok w ∧ w.len = v.len + 1 ∧ ∀ j, w.slot j = v.slot j := by
  refine ⟨⟨v.val ++ [none], by rw [List.length_append]; exact Nat.le_trans h (max_len_le size)⟩,
    by rw [push, dif_pos h],
    by simp only [len, List.length_append, List.length_singleton], ?_⟩
  intro j
  rw [slot, slot, get?, get?]
  rcases Nat.lt_trichotomy j v.val.length with hj | hj | hj
  · rw [List.getElem?_append_left hj]
  · subst hj
    rw [List.getElem?_concat_length, List.getElem?_eq_none (Nat.le_refl _)]
    rfl
  · rw [List.getElem?_eq_none (by rw [List.length_append, List.length_singleton]; omega),
      List.getElem?_eq_none (Nat.le_of_lt hj)]

/-- Growing with empty slots changes no reading, for the same reason. -/
theorem resize_none_spec (ε : Type) {size : ℕ} {v : Vec (Option κ)} {n : ℕ} (hn : n ≤ max_len size)
    (h : v.len ≤ n) :
    ∃ w, (v.resize size n none : Res ε _) = .ok w ∧ w.len = n ∧ ∀ j, w.slot j = v.slot j := by
  have hlen : (v.val.take n ++ List.replicate (n - v.len) none).length = n := by
    rw [List.length_append, List.length_take, List.length_replicate]
    simp only [len] at h ⊢
    omega
  refine ⟨⟨v.val.take n ++ List.replicate (n - v.len) none, by
    rw [hlen]; exact Nat.le_trans hn (max_len_le size)⟩,
    by rw [resize, dif_pos hn], hlen, ?_⟩
  intro j
  show ((v.val.take n ++ List.replicate (n - v.len) none)[j]?).join = (v.val[j]?).join
  rw [List.take_of_length_le h]
  by_cases hj : j < v.val.length
  · rw [List.getElem?_append_left hj]
  · rw [List.getElem?_append_right (Nat.le_of_not_lt hj), List.getElem?_replicate,
      List.getElem?_eq_none (Nat.le_of_not_lt hj)]
    split <;> rfl

end Vec

end Rust
