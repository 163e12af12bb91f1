/-
Pre- and postconditions of methods.

`Triple P m Q E`: started in a state that satisfies `P`, the method ends in `Q`
when it returns a value and in `E` when it returns an `Err`. Nothing is said about
a call that panics or runs out of fuel, which hands control back to nobody. There
is a rule for every way a method is put together, so that a triple for a method
follows the method's text, and loops are left to an induction on their fuel.
-/
import HypercoreProtocol.Lib.Method

set_option autoImplicit false

namespace Rust.Method

variable {ε σ τ α β : Type} {P P' E E' : σ → Prop} {Q Q' : α → σ → Prop}

/-- **The triple.** From a state in `P` the method ends in `Q` if it returns, and in `E` if it
returns an error. Nothing is said about panics; that there are none is said apart, where it
holds. -/
def Triple (P : σ → Prop) (m : Method ε σ α) (Q : α → σ → Prop) (E : σ → Prop) : Prop :=
  ∀ s, P s → (∀ a s', m.run s = .ok a s' → Q a s') ∧ ∀ e s', m.run s = .error (.err e) s' → E s'

/-- The method keeps `I`, whether it succeeds or fails. Nothing is said about a method that
panics. -/
abbrev Keeps (I : σ → Prop) (m : Method ε σ α) : Prop := Triple I m (fun _ => I) I

/-- If both ends are in `R`, so is whatever state the method leaves. This is the way from triples
back to steps. -/
theorem Triple.leaves {m : Method ε σ α} {R : σ → Prop} (h : Triple P m (fun _ => R) R)
    {s s' : σ} (hs : P s) (hl : Leaves m s s') : R s' := by
  rcases hl with ⟨a, ha⟩ | ⟨e, he⟩
  · exact (h s hs).1 a s' ha
  · exact (h s hs).2 e s' he

/-- And the other way round, so a triple can be proved from what a step can leave. -/
theorem keeps_of_leaves {m : Method ε σ α} (h : ∀ s s', P s → Leaves m s s' → E s') :
    Triple P m (fun _ => E) E :=
  fun s hs => ⟨fun a s' ha => h s s' hs (Or.inl ⟨a, ha⟩), fun e s' he => h s s' hs (Or.inr ⟨e, he⟩)⟩

/-- The rule of consequence, for all three assertions. -/
theorem Triple.conseq {m : Method ε σ α} (h : Triple P m Q E) (hP : ∀ s, P' s → P s)
    (hQ : ∀ a s, Q a s → Q' a s) (hE : ∀ s, E s → E' s) : Triple P' m Q' E' := by
  intro s hs
  obtain ⟨hok, herr⟩ := h s (hP s hs)
  exact ⟨fun a s' ha => hQ a s' (hok a s' ha), fun e s' he => hE s' (herr e s' he)⟩

/-- A precondition may be looked at state by state, so that later assertions can speak of the
state at the start. -/
theorem triple_of_forall {m : Method ε σ α} (h : ∀ s, P s → Triple (· = s) m Q E) :
    Triple P m Q E :=
  fun s hs => h s hs s rfl

theorem triple_pure {a : α} (h : ∀ s, P s → Q a s) : Triple P (pure a : Method ε σ α) Q E := by
  intro s hs
  refine ⟨fun b s' hb => ?_, (fun e s' he => nomatch he)⟩
  injection hb with hb hs'
  rw [← hb, ← hs']
  exact h s hs

/-- The sequencing rule. An error of the first part skips the second, so that both have the same
`E`. -/
theorem triple_bind {m : Method ε σ α} {f : α → Method ε σ β} {R : β → σ → Prop}
    (hm : Triple P m Q E) (hf : ∀ a, Triple (Q a) (f a) R E) : Triple P (m >>= f) R E := by
  intro s hs
  obtain ⟨hok, herr⟩ := hm s hs
  rw [EStateM.run_bind]
  cases hrun : m.run s with
  | ok a s₁ => exact hf a s₁ (hok a s₁ hrun)
  | error e s₁ =>
    refine ⟨(fun b s' hb => nomatch hb), fun e' s' he => ?_⟩
    injection he with he hs'
    rw [← hs']
    exact herr e' s₁ (by rw [hrun, he])

/-- The state is read: what is returned is the state, and it still is after it. -/
theorem triple_get : Triple P (get : Method ε σ σ) (fun a s => a = s ∧ P s) E := by
  intro s hs
  refine ⟨fun a s' ha => ?_, (fun e s' he => nomatch he)⟩
  injection ha with ha hs'
  rw [← ha, ← hs']
  exact ⟨rfl, hs⟩

theorem triple_set {s' : σ} {R : Unit → σ → Prop} (h : ∀ s, P s → R () s') :
    Triple P (set s' : Method ε σ PUnit) R E := by
  intro s hs
  refine ⟨fun a t ha => ?_, (fun e s' he => nomatch he)⟩
  injection ha with ha hs'
  rw [← hs']
  exact h s hs

/-- Taking the front of a queue, with one condition for the empty queue and one for the other
case. The three queues of a protocol are all popped in this way. -/
theorem triple_pop {q : σ → List β} {f : σ → List β → σ} {m : Method ε σ (Option β)}
    {R : Option β → σ → Prop} (hnil : ∀ s, q s = [] → m.run s = .ok none s)
    (hcons : ∀ s b rest, q s = b :: rest → m.run s = .ok (some b) (f s rest))
    (hsome : ∀ s b rest, P s → q s = b :: rest → R (some b) (f s rest))
    (hnone : ∀ s, P s → q s = [] → R none s) : Triple P m R E := by
  intro s hs
  cases hq : q s with
  | nil =>
    rw [hnil s hq]
    exact triple_pure (P := R none) (fun _ h => h) s (hnone s hs hq)
  | cons b rest =>
    rw [hcons s b rest hq]
    exact triple_pure (P := R (some b)) (fun _ h => h) (f s rest) (hsome s b rest hs hq)

theorem triple_throw {e : ε} (h : ∀ s, P s → E s) :
    Triple P (throw (.err e) : Method ε σ α) Q E := by
  intro s hs
  refine ⟨(fun a s' ha => nomatch ha), fun e' s' he => ?_⟩
  injection he with _ hs'
  rw [← hs']
  exact h s hs

/-- Out of fuel, nothing is handed back, and so nothing has to be shown. -/
theorem triple_out_of_fuel : Triple P (throw .out_of_fuel : Method ε σ α) Q E := by
  intro s _
  refine ⟨(fun a s' ha => nomatch ha), fun e s' he => ?_⟩
  injection he with he _
  exact nomatch he

/-- A function without state, by what it returns. The state is the same in either case. -/
theorem triple_lift {x : Res ε α} (hok : ∀ a s, x = .ok a → P s → Q a s)
    (herr : ∀ e s, x = .error (.err e) → P s → E s) : Triple P (lift x : Method ε σ α) Q E := by
  intro s hs
  cases x with
  | ok a => exact triple_pure (fun s hs => hok a s rfl hs) s hs
  | error e =>
    refine ⟨(fun a s' ha => nomatch ha), fun e' s' he => ?_⟩
    injection he with he hs'
    rw [← hs']
    exact herr e' s (congrArg Except.error he) hs

/-- A call on a field, as a call on the whole. The rest of the state is fixed, so the assertion
may speak of it. -/
theorem triple_on {get : σ → τ} {set : σ → τ → σ} {m : Method ε τ α}
    (h : ∀ s, P s → Triple (· = get s) m (fun a t => Q a (set s t)) (fun t => E (set s t))) :
    Triple P (on get set m) Q E := by
  intro s hs
  obtain ⟨hok, herr⟩ := h s hs (get s) rfl
  rw [run_on]
  cases hrun : m.run (get s) with
  | ok a t =>
    refine ⟨fun b s' hb => ?_, (fun e s' he => nomatch he)⟩
    injection hb with hb hs'
    rw [← hb, ← hs']
    exact hok a t hrun
  | error e t =>
    refine ⟨(fun b s' hb => nomatch hb), fun e' s' he => ?_⟩
    injection he with he hs'
    rw [← hs']
    exact herr e' t (by rw [hrun, he])

end Rust.Method
