/-
Cells behind shared pointers.

A value in an `Arc`, or the buffer two ends of an asynchronous channel share, is
reached from several owners at once, so a model cannot keep it inside any one of
them. An `Arena` holds such cells, numbered in the order they were made; an owner
keeps the number. Cells are never freed: what an owner can still see of a cell is
decided by who holds its number.
-/
import Mathlib

set_option autoImplicit false

namespace Rust

/-- **The cells made so far**, in the order in which they were made. A cell is named by its place
and is never taken away, so that a name stays good. -/
structure Arena (α : Type) where
  cells : List α
deriving DecidableEq

namespace Arena

variable {α : Type}

def empty : Arena α := ⟨[]⟩

/-- The number the next cell gets, and thus the number of cells there are. -/
def next (s : Arena α) : ℕ := s.cells.length

/-- What is in cell `i`, if it has been made. -/
def read (s : Arena α) (i : ℕ) : Option α := s.cells[i]?

/-- Make a cell. Its number is `s.next`, which no cell has had before. -/
def alloc (s : Arena α) (a : α) : Arena α := ⟨s.cells ++ [a]⟩

/-- Change what is in cell `i`; nothing happens if there is none. -/
def update (s : Arena α) (i : ℕ) (f : α → α) : Arena α := ⟨s.cells.modify i f⟩

/-- Cells that have not been made cannot be read. -/
theorem read_of_next_le {s : Arena α} {i : ℕ} (h : s.next ≤ i) : s.read i = none :=
  List.getElem?_eq_none h

/-- All others can: a cell is never taken away. -/
theorem exists_read {s : Arena α} {i : ℕ} (h : i < s.next) : ∃ a, s.read i = some a :=
  ⟨_, List.getElem?_eq_getElem h⟩

@[simp] theorem next_alloc (s : Arena α) (a : α) : (s.alloc a).next = s.next + 1 := by
  rw [next, alloc, List.length_append, List.length_singleton, next]

@[simp] theorem next_update (s : Arena α) (i : ℕ) (f : α → α) : (s.update i f).next = s.next :=
  List.length_modify _ _ _

/-- A new cell is the only one that changes: the others are read as before. -/
theorem read_alloc (s : Arena α) (a : α) (j : ℕ) :
    (s.alloc a).read j = if j = s.next then some a else s.read j := by
  rcases Nat.lt_trichotomy j s.next with h | h | h
  · rw [if_neg (Nat.ne_of_lt h)]
    exact List.getElem?_append_left h
  · rw [if_pos h, h]
    exact List.getElem?_concat_length
  · rw [if_neg (Nat.ne_of_gt h), read_of_next_le (Nat.le_of_lt h),
      read_of_next_le (by rw [next_alloc]; exact h)]

@[simp] theorem read_alloc_next (s : Arena α) (a : α) : (s.alloc a).read s.next = some a := by
  rw [read_alloc, if_pos rfl]

theorem read_alloc_of_lt {s : Arena α} {j : ℕ} (h : j < s.next) (a : α) :
    (s.alloc a).read j = s.read j := by
  rw [read_alloc, if_neg (Nat.ne_of_lt h)]

/-- An update reaches the cell it is for, if that is there, and no other. -/
theorem read_update (s : Arena α) (i : ℕ) (f : α → α) (j : ℕ) :
    (s.update i f).read j = if j = i then (s.read i).map f else s.read j := by
  simp only [read, update, List.getElem?_modify]
  by_cases h : j = i
  · subst h
    simp
  · simp [h, Ne.symm h]

@[simp] theorem read_update_self (s : Arena α) (i : ℕ) (f : α → α) :
    (s.update i f).read i = (s.read i).map f := by
  rw [read_update, if_pos rfl]

theorem read_update_of_ne {s : Arena α} {i j : ℕ} (h : j ≠ i) (f : α → α) :
    (s.update i f).read j = s.read j := by
  rw [read_update, if_neg h]

end Arena

end Rust
