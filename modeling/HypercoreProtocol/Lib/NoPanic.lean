/-
Panics that do not happen.

`NoPanic bad` says of a function, and `Method.NoPanic bad` of a method in every state, that
it does not end in a panic of the kind `bad`. A program inherits this from its parts, so
there is one rule for each way of composing them, up to the three functions of a codec that
write. Which panics are bad is left open: a caller may forbid all of them, or just one.
-/
import HypercoreProtocol.Lib.Codec

set_option autoImplicit false

namespace Rust

variable {ε ε' σ α β : Type} {bad : Panic → Prop}

/-! ## Functions -/

/-- The function does not end in a panic that is `bad`. It may fail, and it may end in any other
panic. -/
def NoPanic (bad : Panic → Prop) (x : Res ε α) : Prop :=
  ∀ pan, bad pan → x ≠ .error (.panic pan)

/-- A value is no panic. -/
theorem noPanic_ok (a : α) : NoPanic bad (.ok a : Res ε α) := by
  rintro pan - ⟨⟩

/-- **Composition.** Two functions one after the other panic only where one of them does. The
second is asked about for every value, since nothing is known of what the first returns. -/
theorem NoPanic.bind {x : Res ε α} {f : α → Res ε β} (hx : NoPanic bad x)
    (hf : ∀ a, NoPanic bad (f a)) : NoPanic bad (x >>= f) := by
  intro pan hbad
  cases x with
  | ok a => exact hf a pan hbad
  | error e =>
    intro h
    cases h
    exact hx pan hbad rfl

/-- Errors are turned into other errors, and a panic stays the panic it was. -/
theorem NoPanic.map_err {x : Res ε α} (hx : NoPanic bad x) (f : ε → ε') :
    NoPanic bad (map_err f x) := by
  intro pan hbad h
  cases x with
  | ok a => cases h
  | error e =>
    cases e with
    | panic pan' =>
      cases h
      exact hx pan hbad rfl
    | err e => cases h
    | out_of_fuel => cases h

/-! ## Methods -/

/-- The same of a method, from every state: what the state is like is not used in any of the
rules. -/
def Method.NoPanic (bad : Panic → Prop) (m : Method ε σ α) : Prop :=
  ∀ s s' pan, bad pan → m.run s ≠ .error (.panic pan) s'

namespace Method

theorem noPanic_pure (a : α) : NoPanic bad (pure a : Method ε σ α) := by
  rintro s s' pan - ⟨⟩

/-- **Composition** of methods: if neither part panics so, the whole does not. -/
theorem NoPanic.bind {m : Method ε σ α} {f : α → Method ε σ β} (hm : NoPanic bad m)
    (hf : ∀ a, NoPanic bad (f a)) : NoPanic bad (m >>= f) := by
  intro s s' pan hbad h
  rw [EStateM.run_bind] at h
  cases hrun : m.run s with
  | ok a t =>
    rw [hrun] at h
    exact hf a t s' pan hbad h
  | error e t =>
    rw [hrun] at h
    cases h
    exact hm s s' pan hbad hrun

/-- A function that is used in a method panics there as it does on its own. -/
theorem noPanic_lift {x : Res ε α} (hx : Rust.NoPanic bad x) :
    NoPanic bad (lift x : Method ε σ α) := by
  intro s s' pan hbad h
  cases x with
  | ok a => cases h
  | error e =>
    cases h
    exact hx pan hbad rfl

end Method

end Rust

namespace Wire

open Rust

variable {ε α β : Type} {bad : Panic → Prop}

/-! ## Codecs -/

/-- Neither the size of a value nor writing it panics so. Reading is not asked for: it is another
matter. -/
structure Codec.NoPanic (bad : Panic → Prop) (c : Codec ε α) : Prop where
  size : ∀ x, Rust.NoPanic bad (c.encoded_size x)
  encode : ∀ x, Method.NoPanic bad (c.encode x)

/-- Two values that are written one after the other. -/
theorem Codec.NoPanic.pair {c : Codec ε α} {d : Codec ε β} (hc : c.NoPanic bad)
    (hd : d.NoPanic bad) : (c.pair d).NoPanic bad where
  size x := (hc.size x.1).bind fun _ => (hd.size x.2).bind fun _ => noPanic_ok _
  encode x := (hc.encode x.1).bind fun _ => hd.encode x.2

/-- A record that is written as its fields. Only taking it apart matters here, since nothing is
read. -/
theorem Codec.NoPanic.map {c : Codec ε α} (hc : c.NoPanic bad) (mk : α → β) (fields : β → α) :
    (c.map mk fields).NoPanic bad where
  size x := hc.size (fields x)
  encode x := hc.encode (fields x)

/-- A value that may be missing has no size then. -/
theorem Codec.NoPanic.option_size {c : Codec ε α} (hc : c.NoPanic bad) (x : Option α) :
    Rust.NoPanic bad (c.option_size x) := by
  cases x with
  | none => exact noPanic_ok _
  | some a => exact hc.size a

/-- And nothing is written for it. -/
theorem Codec.NoPanic.encode_option {c : Codec ε α} (hc : c.NoPanic bad) (x : Option α) :
    Method.NoPanic bad (c.encode_option x) := by
  cases x with
  | none => exact Method.noPanic_pure ()
  | some a => exact hc.encode a

end Wire
