/-
The calling convention of a Rust method, as a state monad.

A method on `&mut self` ends in one of three ways: it returns, it returns an
`Err` and keeps every change it made before that, or it panics and hands nothing
back. `EStateM` has exactly the first two, so a method is an `EStateM` whose
error is a `Fault`: the error value the source returns, or the panic that ended
the call. A loop that the source leaves unbounded runs on fuel and says so.

Nothing here knows which program is being modelled. `Leaves`, at the end, are the
states a call can hand back; the rules for pre- and postconditions over it are in
`Hoare`.
-/
import Mathlib

set_option autoImplicit false

namespace Rust

/-- What a panic was about, with the text where the source gives one. -/
inductive Panic where
  | overflow
  | index_out_of_bounds
  | capacity_overflow
  | unwrap
  | expect (message : String)
  | unimplemented (message : String)
  | unreachable (message : String)
deriving DecidableEq

/-- Why a call did not return a value: an `Err`, a panic, or a loop that was
still running when its fuel was spent. -/
inductive Fault (ε : Type) where
  | err (e : ε)
  | panic (p : Panic)
  | out_of_fuel

/-- How a call can fail to come back to its caller: it panicked, or it was still running
when its fuel was spent. These are the faults that no `?` and no `map_err` turns into
something else. -/
inductive Abort where
  | panic (p : Panic)
  | out_of_fuel
deriving DecidableEq

/-- The fault of a call that did not come back, among the faults of any error type. -/
def Abort.fault {ε : Type} : Abort → Fault ε
  | .panic p => .panic p
  | .out_of_fuel => .out_of_fuel

/-- A fallible function with no state: it returns a value, an error, or does not come back. -/
abbrev Res (ε α : Type) := Except (Fault ε) α

/-- A method on `&mut self` with `self : σ`. The state after an `Err` is the one
the method had reached, since nothing rolls it back. -/
abbrev Method (ε σ α : Type) := EStateM (Fault ε) σ α

variable {ε ε' σ τ α β : Type}

/-- The expression `xs[i]`, which panics out of bounds. -/
def index (xs : List α) (i : ℕ) : Res ε α :=
  match xs[i]? with
  | some x => .ok x
  | none => .error (.panic .index_out_of_bounds)

/-- The expression `&xs[i..]`, which panics if `i` is beyond the end. -/
def slice_from (xs : List α) (i : ℕ) : Res ε (List α) :=
  if i ≤ xs.length then .ok (xs.drop i) else .error (.panic .index_out_of_bounds)

@[simp] theorem ok_bind (a : α) (f : α → Res ε β) : ((.ok a : Res ε α) >>= f) = f a := rfl

@[simp] theorem error_bind (e : Fault ε) (f : α → Res ε β) :
    ((.error e : Res ε α) >>= f) = .error e := rfl

/-- A sequence that returns returned at every step. This is how a success is taken apart. -/
theorem bind_eq_ok {x : Res ε α} {f : α → Res ε β} {b : β} (h : (x >>= f) = .ok b) :
    ∃ a, x = .ok a ∧ f a = .ok b := by
  cases x with
  | ok a => exact ⟨a, rfl, h⟩
  | error e => exact nomatch h

/-- `Result::map_err`; a panic passes through, since there is no error to convert. -/
def map_err (f : ε → ε') (x : Res ε α) : Res ε' α :=
  match x with
  | .ok a => .ok a
  | .error (.err e) => .error (.err (f e))
  | .error (.panic p) => .error (.panic p)
  | .error .out_of_fuel => .error .out_of_fuel

@[simp] theorem map_err_ok (f : ε → ε') (a : α) : map_err f (.ok a) = .ok a := rfl

/-- A call that does not come back has no error to convert. -/
theorem map_err_abort (f : ε → ε') (a : Abort) :
    map_err f (.error a.fault : Res ε α) = .error a.fault := by
  cases a <;> rfl

theorem map_err_eq_ok {f : ε → ε'} {x : Res ε α} {a : α} (h : map_err f x = .ok a) :
    x = .ok a := by
  match x, h with
  | .ok _, h => exact congrArg Except.ok (Except.ok.inj h)

theorem map_err_eq_err {f : ε → ε'} {x : Res ε α} {e : ε'}
    (h : map_err f x = .error (.err e)) : ∃ e', x = .error (.err e') := by
  match x, h with
  | .error (.err e'), _ => exact ⟨e', rfl⟩

/-- The outcome of asynchronous work: done with a value, or not yet. What wakes the caller is not
part of it. -/
inductive Poll (α : Type) where
  | ready (a : α)
  | pending
deriving DecidableEq

namespace Method

/-- Run a stateless function inside a method. The state stays, also if it fails. -/
def lift (x : Res ε α) : Method ε σ α :=
  match x with
  | .ok a => pure a
  | .error e => throw e

/-- `Option::unwrap`, which panics on `None`. -/
def unwrap (x : Option α) : Method ε σ α :=
  match x with
  | some a => pure a
  | none => throw (.panic .unwrap)

/-- Call a method of a field of `self`. What it leaves of the field is stored back, also if it
fails. -/
def on (get : σ → τ) (set : σ → τ → σ) (m : Method ε τ α) : Method ε σ α := fun s =>
  match m.run (get s) with
  | .ok a t => .ok a (set s t)
  | .error e t => .error e (set s t)

@[simp] theorem run_lift_ok (a : α) (s : σ) :
    (lift (.ok a) : Method ε σ α).run s = .ok a s := rfl

@[simp] theorem run_lift_error (e : Fault ε) (s : σ) :
    (lift (.error e) : Method ε σ α).run s = .error e s := rfl

@[simp] theorem run_unwrap_some (a : α) (s : σ) :
    (unwrap (some a) : Method ε σ α).run s = .ok a s := rfl

@[simp] theorem run_unwrap_none (s : σ) :
    (unwrap (none : Option α) : Method ε σ α).run s = .error (.panic .unwrap) s := rfl

theorem run_discard_ok {m : Method ε σ α} {s t : σ} {a : α} (h : m.run s = .ok a t) :
    (do let _ ← m; pure () : Method ε σ Unit).run s = .ok () t := by
  rw [EStateM.run_bind, h]
  rfl

theorem run_discard_error {m : Method ε σ α} {s t : σ} {e : Fault ε} (h : m.run s = .error e t) :
    (do let _ ← m; pure () : Method ε σ Unit).run s = .error e t := by
  rw [EStateM.run_bind, h]

theorem run_on (get : σ → τ) (set : σ → τ → σ) (m : Method ε τ α) (s : σ) :
    (on get set m).run s =
      match m.run (get s) with
      | .ok a t => .ok a (set s t)
      | .error e t => .error e (set s t) := rfl

/-! ## The states a call hands back -/

/-- Started in `s`, the call hands control back in `s'`, with a value or with an
`Err`. A panicking call hands back nothing. -/
def Leaves (m : Method ε σ α) (s s' : σ) : Prop :=
  (∃ a, m.run s = .ok a s') ∨ (∃ e, m.run s = .error (.err e) s')

/-- What a method leaves when it is known how it runs: the state of that run. -/
theorem leaves_of_run_ok {f : Method ε σ α} {s s' t : σ} {a : α}
    (hrun : f.run s = .ok a t) (h : Leaves f s s') : s' = t := by
  rcases h with ⟨b, hb⟩ | ⟨e, he⟩
  · rw [hrun] at hb
    injection hb with _ ht
    exact ht.symm
  · rw [hrun] at he
    exact nomatch he

theorem not_leaves_of_panic {f : Method ε σ α} {s s' t : σ} {p : Panic}
    (hrun : f.run s = .error (.panic p) t) : ¬ Leaves f s s' := by
  rintro (⟨b, hb⟩ | ⟨e, he⟩)
  · rw [hrun] at hb
    exact nomatch hb
  · rw [hrun] at he
    injection he with hf
    exact nomatch hf

end Method

end Rust
