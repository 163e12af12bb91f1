/-
Methods that come to an end.

A triple says nothing about a call that panics or is still running when its fuel is
spent. `Ends P m F` is what is missing: started in a state that satisfies `P`, the
method returns a value or an `Err`, or what keeps it from returning is one of the ways
`F`. The rule for a sequence needs a triple for its first part, to know where the second
one starts.
-/
import HypercoreProtocol.Lib.Hoare

set_option autoImplicit false

namespace Rust.Method

variable {ε σ τ α β : Type} {P P' E : σ → Prop} {Q : α → σ → Prop} {F F' : Abort → Prop}

/-- **Ending.** From every state with `P` the method returns a value or an `Err`, and when
it does neither, then in a way that `F` allows. -/
def Ends (P : σ → Prop) (m : Method ε σ α) (F : Abort → Prop) : Prop :=
  ∀ s, P s → ∀ f s', m.run s = .error f s' → (∃ e, f = .err e) ∨ ∃ a : Abort, f = a.fault ∧ F a

/-- The rule of consequence: fewer states to start from, more causes to stop for. -/
theorem Ends.conseq {m : Method ε σ α} (h : Ends P m F) (hP : ∀ s, P' s → P s)
    (hF : ∀ a, F a → F' a) : Ends P' m F' := by
  intro s hs f s' hrun
  rcases h s (hP s hs) f s' hrun with herr | ⟨a, hf, ha⟩
  · exact Or.inl herr
  · exact Or.inr ⟨a, hf, hF a ha⟩

/-- What is left over: a value, an `Err`, or a call that does not return, for a cause that `F`
allows. -/
theorem Ends.cases {m : Method ε σ α} (h : Ends P m F) {s : σ} (hs : P s) :
    (∃ a s', m.run s = .ok a s') ∨ (∃ e s', m.run s = .error (.err e) s') ∨
      ∃ (a : Abort) (s' : σ), m.run s = .error a.fault s' ∧ F a := by
  cases hrun : m.run s with
  | ok a s' => exact Or.inl ⟨a, s', rfl⟩
  | error f s' =>
    rcases h s hs f s' hrun with ⟨e, rfl⟩ | ⟨a, rfl, ha⟩
    · exact Or.inr (Or.inl ⟨e, s', rfl⟩)
    · exact Or.inr (Or.inr ⟨a, s', rfl, ha⟩)

/-- From the three ways in which a run can end. The converse of `Ends.cases`, for what is known
by computation. -/
theorem ends_of_cases {m : Method ε σ α}
    (h : ∀ s, P s → (∃ a s', m.run s = .ok a s') ∨ (∃ e s', m.run s = .error (.err e) s') ∨
      ∃ (a : Abort) (s' : σ), m.run s = .error a.fault s' ∧ F a) : Ends P m F := by
  intro s hs f s' hrun
  rcases h s hs with ⟨a, t, ht⟩ | ⟨e, t, ht⟩ | ⟨a, t, ht, ha⟩
  · exact nomatch ht.symm.trans hrun
  · injection ht.symm.trans hrun with hf
    exact Or.inl ⟨e, hf.symm⟩
  · injection ht.symm.trans hrun with hf
    exact Or.inr ⟨a, hf.symm, ha⟩

/-- One state at a time, where the cause depends on the state. -/
theorem ends_of_forall {m : Method ε σ α} (h : ∀ s, P s → Ends (· = s) m F) : Ends P m F :=
  fun s hs => h s hs s rfl

/-- A method that returns ends, and no cause is needed. -/
theorem ends_of_ok {m : Method ε σ α} (h : ∀ s, P s → ∃ a s', m.run s = .ok a s') :
    Ends P m F := by
  intro s hs f s' hrun
  obtain ⟨a, t, hok⟩ := h s hs
  exact nomatch hok.symm.trans hrun

theorem ends_pure {a : α} : Ends P (pure a : Method ε σ α) F :=
  ends_of_ok fun s _ => ⟨a, s, rfl⟩

theorem ends_get : Ends P (get : Method ε σ σ) F := ends_of_ok fun s _ => ⟨s, s, rfl⟩

theorem ends_throw {e : ε} : Ends P (throw (.err e) : Method ε σ α) F := by
  intro s _ f s' hrun
  injection hrun with hf
  exact Or.inl ⟨e, hf.symm⟩

/-- The sequencing rule. What the first part leaves, by its triple, is where the second has to
end. -/
theorem ends_bind {m : Method ε σ α} {f : α → Method ε σ β} (hm : Ends P m F)
    (ht : Triple P m Q E) (hf : ∀ a, Ends (Q a) (f a) F) : Ends P (m >>= f) F := by
  intro s hs g s' hrun
  rw [EStateM.run_bind] at hrun
  cases hfirst : m.run s with
  | ok a t =>
    rw [hfirst] at hrun
    exact hf a t ((ht s hs).1 a t hfirst) g s' hrun
  | error e t =>
    rw [hfirst] at hrun
    injection hrun with he
    exact he ▸ hm s hs e t hfirst

/-- A function without state ends as it does by itself. -/
theorem ends_lift {x : Res ε α}
    (h : ∀ f, x = .error f → (∃ e, f = .err e) ∨ ∃ a : Abort, f = a.fault ∧ F a) :
    Ends P (lift x : Method ε σ α) F := by
  intro s _ f s' hrun
  cases x with
  | ok a => exact nomatch hrun
  | error g =>
    injection hrun with hg
    exact hg ▸ h g rfl

/-- A call on a field, as a call on the whole: it ends for the same causes. -/
theorem ends_on {get : σ → τ} {set : σ → τ → σ} {m : Method ε τ α}
    (h : ∀ s, P s → Ends (· = get s) m F) : Ends P (on get set m) F := by
  intro s hs f s' hrun
  rw [run_on] at hrun
  cases hinner : m.run (get s) with
  | ok a t =>
    rw [hinner] at hrun
    exact nomatch hrun
  | error g t =>
    rw [hinner] at hrun
    injection hrun with hg
    exact hg ▸ h s hs (get s) rfl g t hinner

end Rust.Method
