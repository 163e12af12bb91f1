/-
Methods that do not look at a part of their state.

`Blind g m` says that it makes no difference to the method `m` whether the state is changed
by `g` before the call or after it. With a `g` that only touches some field, it is the frame
rule in the form that is needed to exchange two calls: `m` neither reads the field nor
changes it. The rules follow the way a method is written.
-/
import HypercoreProtocol.Lib.Method

set_option autoImplicit false

namespace Rust.Method

variable {ε σ τ α β : Type} {g : σ → σ}

/-- Change the state that a call leaves, whatever its result. -/
def after (g : σ → σ) : EStateM.Result (Fault ε) σ α → EStateM.Result (Fault ε) σ α
  | .ok a s => .ok a (g s)
  | .error e s => .error e (g s)

/-- **The method does not see `g`.** It does the same with `g` applied to the state before and to
the state after, whatever it returns or throws. -/
def Blind (g : σ → σ) (m : Method ε σ α) : Prop := ∀ s, m.run (g s) = after g (m.run s)

theorem blind_pure (a : α) : Blind g (pure a : Method ε σ α) := fun _ => rfl

theorem blind_throw (e : Fault ε) : Blind g (throw e : Method ε σ α) := fun _ => rfl

/-- A function that does not see the state at all is blind to every change of it. -/
theorem blind_lift (x : Res ε α) : Blind g (lift x : Method ε σ α) := by
  cases x with
  | ok a => exact blind_pure a
  | error e => exact blind_throw e

theorem blind_unwrap (x : Option α) : Blind g (unwrap x : Method ε σ α) := by
  cases x with
  | some a => exact blind_pure a
  | none => exact blind_throw _

/-- A change of the state that commutes with `g` may be made before or after it. -/
theorem blind_modify {f : σ → σ} (h : ∀ s, f (g s) = g (f s)) :
    Blind g (modify f : Method ε σ PUnit) :=
  fun s => congrArg (EStateM.Result.ok PUnit.unit) (h s)

/-- The state is read for something that `g` does not change, and what follows is blind in each
case. -/
theorem blind_get {f : σ → Method ε σ α} (h : ∀ s, f (g s) = f s) (hf : ∀ s, Blind g (f s)) :
    Blind g (get >>= f) := by
  intro s
  show (f (g s)).run (g s) = after g ((f s).run s)
  rw [h]
  exact hf s s

/-- Composition: what the first returns is the same with and without `g`, so the second is the
same method. -/
theorem blind_bind {m : Method ε σ α} {f : α → Method ε σ β} (hm : Blind g m)
    (hf : ∀ a, Blind g (f a)) : Blind g (m >>= f) := by
  intro s
  rw [EStateM.run_bind, EStateM.run_bind, hm s]
  cases m.run s with
  | ok a t => exact hf a t
  | error e t => rfl

/-- A call on a field that `g` does not touch, whatever the call does. -/
theorem blind_on {get : σ → τ} {set : σ → τ → σ} (hget : ∀ s, get (g s) = get s)
    (hset : ∀ s t, set (g s) t = g (set s t)) (m : Method ε τ α) : Blind g (on get set m) := by
  intro s
  rw [run_on, run_on, hget]
  cases m.run (get s) with
  | ok a t => exact congrArg (EStateM.Result.ok a) (hset s t)
  | error e t => exact congrArg (EStateM.Result.error e) (hset s t)

end Rust.Method
