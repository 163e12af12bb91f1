/-
Runs of a transition system and what happened along them.

A run is kept as the list of its transitions, each with the state before and
after, so that a property of "the last time something happened" is a property of
a list and no history has to be carried in the states. `Since P Q tr` is the
past-time operator behind all of them: some transition of `tr` satisfied `P` and
none after it satisfied `Q`. Its unfolding at the end of a run, `since_snoc`, is
what an induction over runs uses. `execute`, at the end, computes runs, so that one with
a given outcome is found by evaluation.
-/
import Mathlib

set_option autoImplicit false

namespace Runs

variable {σ α : Type}

/-- One step of a run: the state before it, the action and the state after it. All three are
kept, since claims about runs speak of any of them. -/
structure Transition (σ α : Type) where
  pre : σ
  act : α
  post : σ

/-- **A run of `step`** from a state, with its transitions in order. Runs grow at their end, so
that an induction goes over what has happened so far. -/
inductive Run (step : σ → α → σ → Prop) (s₀ : σ) : List (Transition σ α) → σ → Prop where
  | nil : Run step s₀ [] s₀
  | snoc {tr : List (Transition σ α)} {s s' : σ} {a : α} (run : Run step s₀ tr s)
      (h : step s a s') : Run step s₀ (tr ++ [⟨s, a, s'⟩]) s'

section Rules

variable {step : σ → α → σ → Prop} {s₀ s : σ} {tr : List (Transition σ α)}

/-- The invariant rule: what holds at the start and is kept by every step of a
run holds at its end. The invariant may speak about the transitions so far. -/
theorem Run.invariant {I : List (Transition σ α) → σ → Prop} (h₀ : I [] s₀)
    (hstep : ∀ tr s a s', Run step s₀ tr s → I tr s → step s a s' →
      I (tr ++ [⟨s, a, s'⟩]) s')
    (run : Run step s₀ tr s) : I tr s := by
  induction run with
  | nil => exact h₀
  | snoc run h ih => exact hstep _ _ _ _ run ih h

/-- A run that ends in a transition is a shorter run and one step, from the state where the
shorter one ends. -/
theorem Run.snoc_inv {t : Transition σ α} (run : Run step s₀ (tr ++ [t]) s) :
    Run step s₀ tr t.pre ∧ step t.pre t.act t.post ∧ s = t.post := by
  generalize htr : tr ++ [t] = tr' at run
  cases run with
  | nil => exact absurd htr (by simp)
  | snoc run h =>
    obtain ⟨rfl, ht⟩ := List.append_inj' htr rfl
    rw [List.singleton_inj] at ht
    subst ht
    exact ⟨run, h, rfl⟩

/-- Two runs compose. -/
theorem Run.append {tr' : List (Transition σ α)} {s' : σ} (run : Run step s₀ tr s)
    (run' : Run step s tr' s') : Run step s₀ (tr ++ tr') s' := by
  induction run' with
  | nil => rw [List.append_nil]; exact run
  | snoc _ h ih =>
    rw [← List.append_assoc]
    exact ih.snoc h

end Rules

/-! ## The past of a run -/

section Past

variable {τ : Type} {P Q : τ → Prop} {tr : List τ} {t : τ}

/-- Some element satisfied `P`, and none after it satisfied `Q`. With `P` for opening and `Q` for
closing, this says that something is open. -/
def Since (P Q : τ → Prop) (tr : List τ) : Prop :=
  ∃ l t r, tr = l ++ t :: r ∧ P t ∧ ∀ u ∈ r, ¬ Q u

theorem not_since_nil : ¬ Since P Q ([] : List τ) := by
  rintro ⟨l, t, r, h, -⟩
  exact absurd h.symm (by simp)

/-- A split of a list that ends in `t` is at `t`, or it is a split of the rest. -/
theorem snoc_split {l r : List τ} {u : τ} (h : tr ++ [t] = l ++ u :: r) :
    (l = tr ∧ u = t ∧ r = []) ∨ ∃ r', r = r' ++ [t] ∧ tr = l ++ u :: r' := by
  rcases r.eq_nil_or_concat' with rfl | ⟨r', v, rfl⟩
  · obtain ⟨hl, hu⟩ := List.append_inj' h rfl
    exact Or.inl ⟨hl.symm, (List.singleton_inj.mp hu).symm, rfl⟩
  · rw [← List.cons_append, ← List.append_assoc] at h
    obtain ⟨hl, hv⟩ := List.append_inj' h rfl
    exact Or.inr ⟨r', by rw [List.singleton_inj.mp hv], hl⟩

/-- At the end of a list `Since` holds because of the last element, or it held
before and the last element does not end it. -/
theorem since_snoc : Since P Q (tr ++ [t]) ↔ P t ∨ (Since P Q tr ∧ ¬ Q t) := by
  constructor
  · rintro ⟨l, u, r, h, hP, hQ⟩
    rcases snoc_split h with ⟨-, rfl, -⟩ | ⟨r', rfl, rfl⟩
    · exact Or.inl hP
    · exact Or.inr ⟨⟨l, u, r', rfl, hP, fun w hw => hQ w (List.mem_append_left _ hw)⟩,
        hQ t (List.mem_append_right _ (List.mem_singleton.mpr rfl))⟩
  · rintro (hP | ⟨⟨l, u, r, rfl, hP, hQ⟩, ht⟩)
    · exact ⟨tr, t, [], rfl, hP, fun u hu => absurd hu List.not_mem_nil⟩
    · refine ⟨l, u, r ++ [t], by rw [List.append_assoc, List.cons_append], hP, fun w hw => ?_⟩
      rcases List.mem_append.mp hw with hw | hw
      · exact hQ w hw
      · rw [List.mem_singleton.mp hw]
        exact ht

theorem Since.here (h : P t) : Since P Q (tr ++ [t]) := since_snoc.mpr (Or.inl h)

theorem Since.later (h : Since P Q tr) (ht : ¬ Q t) : Since P Q (tr ++ [t]) :=
  since_snoc.mpr (Or.inr ⟨h, ht⟩)

/-- After more elements, none of which ends it, it still holds. -/
theorem Since.append {tr' : List τ} (h : Since P Q tr) (ht : ∀ u ∈ tr', ¬ Q u) :
    Since P Q (tr ++ tr') := by
  obtain ⟨l, t, r, rfl, hP, hQ⟩ := h
  refine ⟨l, t, r ++ tr', by rw [List.append_assoc, List.cons_append], hP, fun u hu => ?_⟩
  rcases List.mem_append.mp hu with hu | hu
  · exact hQ u hu
  · exact ht u hu

/-- If no element of `tr'` starts it, then it held before, and none of them ended it. -/
theorem Since.of_append {tr' : List τ} (h : Since P Q (tr ++ tr')) (ht : ∀ u ∈ tr', ¬ P u) :
    Since P Q tr ∧ ∀ u ∈ tr', ¬ Q u := by
  induction tr' using List.reverseRecOn with
  | nil => exact ⟨by rwa [List.append_nil] at h, fun u hu => absurd hu List.not_mem_nil⟩
  | append_singleton tr' t ih =>
    rw [← List.append_assoc] at h
    rcases since_snoc.mp h with hP | ⟨h, hQ⟩
    · exact absurd hP (ht t (List.mem_append_right _ (List.mem_singleton.mpr rfl)))
    · obtain ⟨h, hQs⟩ := ih h fun u hu => ht u (List.mem_append_left _ hu)
      refine ⟨h, fun u hu => ?_⟩
      rcases List.mem_append.mp hu with hu | hu
      · exact hQs u hu
      · rw [List.mem_singleton.mp hu]
        exact hQ

/-- In a list of two parts it holds of the second, or it held of the first. -/
theorem Since.append_cases {tr' : List τ} (h : Since P Q (tr ++ tr')) :
    Since P Q tr' ∨ Since P Q tr := by
  induction tr' using List.reverseRecOn with
  | nil => exact Or.inr (by rwa [List.append_nil] at h)
  | append_singleton tr' t ih =>
    rw [← List.append_assoc] at h
    rcases since_snoc.mp h with hP | ⟨h, hQ⟩
    · exact Or.inl (Since.here hP)
    · exact (ih h).imp_left fun h => h.later hQ

/-- Every element of the list satisfies `C`, which may read what came before. Conditions on a
history are of this form. -/
def Always (C : List τ → τ → Prop) (tr : List τ) : Prop :=
  ∀ l t r, tr = l ++ t :: r → C l t

theorem always_nil {C : List τ → τ → Prop} : Always C ([] : List τ) :=
  fun l t r h => absurd h.symm (by simp)

theorem always_snoc {C : List τ → τ → Prop} :
    Always C (tr ++ [t]) ↔ Always C tr ∧ C tr t := by
  constructor
  · intro h
    refine ⟨fun l u r hr => h l u (r ++ [t]) ?_, h tr t [] rfl⟩
    rw [hr, List.append_assoc, List.cons_append]
  · rintro ⟨h, ht⟩ l u r hr
    rcases snoc_split hr with ⟨rfl, rfl, -⟩ | ⟨r', -, hr'⟩
    · exact ht
    · exact h l u r' hr'

/-- More elements, all of which satisfy `C` whatever came before. -/
theorem always_append {C : List τ → τ → Prop} {tr' : List τ}
    (h : ∀ past, ∀ u ∈ tr', C past u) : Always C (tr ++ tr') ↔ Always C tr := by
  induction tr' using List.reverseRecOn with
  | nil => rw [List.append_nil]
  | append_singleton tr' t ih =>
    rw [← List.append_assoc, always_snoc, ih fun past u hu => h past u (List.mem_append_left _ hu)]
    exact and_iff_left (h _ t (List.mem_append_right _ (List.mem_singleton.mpr rfl)))

end Past

/-! ## Runs whose steps meet a condition -/

section Conditions

variable {step : σ → α → σ → Prop} {s₀ s : σ} {tr : List (Transition σ α)}
  {C : Transition σ α → Prop}

/-- The invariant rule for runs whose steps all meet `C`. The condition is used step by step, so
that it may be assumed in the step lemma. -/
theorem Run.invariant_if {I : List (Transition σ α) → σ → Prop} (h₀ : I [] s₀)
    (hstep : ∀ tr s a s', Run step s₀ tr s → I tr s → step s a s' → C ⟨s, a, s'⟩ →
      I (tr ++ [⟨s, a, s'⟩]) s')
    (run : Run step s₀ tr s) (hC : ∀ t ∈ tr, C t) : I tr s := by
  induction run with
  | nil => exact h₀
  | snoc run h ih =>
    exact hstep _ _ _ _ run (ih fun t ht => hC t (List.mem_append_left _ ht)) h
      (hC _ (List.mem_append_right _ (List.mem_singleton.mpr rfl)))

/-- What an invariant implies of the step that follows holds of all steps. The conclusion is
about the transitions, and not about the last state. -/
theorem Run.always_if {I : List (Transition σ α) → σ → Prop}
    {G : List (Transition σ α) → Transition σ α → Prop} (h₀ : I [] s₀)
    (hstep : ∀ tr s a s', Run step s₀ tr s → I tr s → step s a s' → C ⟨s, a, s'⟩ →
      I (tr ++ [⟨s, a, s'⟩]) s')
    (hG : ∀ tr s a s', Run step s₀ tr s → I tr s → step s a s' → C ⟨s, a, s'⟩ →
      G tr ⟨s, a, s'⟩)
    (run : Run step s₀ tr s) (hC : ∀ t ∈ tr, C t) : Always G tr := by
  induction run with
  | nil => exact always_nil
  | snoc run h ih =>
    have hpast : ∀ t ∈ _, C t := fun t ht => hC t (List.mem_append_left _ ht)
    have hlast := hC _ (List.mem_append_right _ (List.mem_singleton.mpr rfl))
    exact always_snoc.mpr ⟨ih hpast,
      hG _ _ _ _ run (Run.invariant_if h₀ hstep run hpast) h hlast⟩

/-- What is equivalent for every step of a run is equivalent for all of them. Conditions that are
necessary and sufficient are lifted to runs by this. -/
theorem Run.forall_iff {P : Transition σ α → Prop}
    (h : ∀ tr s a s', Run step s₀ tr s → step s a s' → (P ⟨s, a, s'⟩ ↔ C ⟨s, a, s'⟩))
    (run : Run step s₀ tr s) : (∀ t ∈ tr, P t) ↔ ∀ t ∈ tr, C t := by
  induction run with
  | nil => simp
  | snoc run hstep ih =>
    simp only [List.forall_mem_append, List.forall_mem_singleton, ih, h _ _ _ _ run hstep]

/-- A property that a step keeps exactly when it meets `C` holds all along a run exactly
when all its steps meet `C`. The invariant `W` may be used for the steps. -/
theorem Run.forall_post_iff {W G : σ → Prop} (hW₀ : W s₀) (hG₀ : G s₀)
    (hW : ∀ s a s', step s a s' → W s → W s')
    (hG : ∀ s a s', step s a s' → W s → G s → (G s' ↔ C ⟨s, a, s'⟩))
    (run : Run step s₀ tr s) : (∀ t ∈ tr, G t.post) ↔ ∀ t ∈ tr, C t := by
  suffices W s ∧ ((∀ t ∈ tr, G t.post) → G s) ∧
      ((∀ t ∈ tr, G t.post) ↔ ∀ t ∈ tr, C t) from this.2.2
  induction run with
  | nil => exact ⟨hW₀, fun _ => hG₀, by simp⟩
  | snoc _ h ih =>
    obtain ⟨hw, hlast, hiff⟩ := ih
    refine ⟨hW _ _ _ h hw, fun hall => ?_, ?_⟩
    · exact hall ⟨_, _, _⟩ (List.mem_append_right _ (List.mem_singleton.mpr rfl))
    simp only [List.forall_mem_append, List.forall_mem_singleton, ← hiff]
    exact and_congr_right fun hall => hG _ _ _ h hw (hlast hall)

end Conditions

/-! ## Queues along runs -/

/-- A queue that starts empty, from whose front each step takes `o` and to whose end it
puts `i`: all that was put in was taken out, in the same order, or is still there. -/
theorem Run.conserves {β : Type} {step : σ → α → σ → Prop} {s₀ s : σ}
    {tr : List (Transition σ α)} {q : σ → List β} {i o : Transition σ α → List β}
    (h₀ : q s₀ = [])
    (hstep : ∀ tr s a s', Run step s₀ tr s → step s a s' →
      q s ++ i ⟨s, a, s'⟩ = o ⟨s, a, s'⟩ ++ q s')
    (run : Run step s₀ tr s) : tr.flatMap o ++ q s = tr.flatMap i := by
  induction run with
  | nil => rw [h₀]; rfl
  | snoc run h ih =>
    rw [List.flatMap_append, List.flatMap_append, List.flatMap_singleton, List.flatMap_singleton,
      List.append_assoc, ← hstep _ _ _ _ run h, ← List.append_assoc, ih]

/-! ## Runs that look the same -/

section Refinement

variable {β ω : Type} {step : σ → α → σ → Prop} {finer : σ → β → σ → Prop} {s₀ s : σ}
  {tr : List (Transition σ α)}

/-- If every step can be made by finer steps that show the same, then so can every run. The
finer steps are only needed from states that finer steps reach; `C` is what they meet. -/
theorem Run.refines {shows : α → List ω} {shows' : β → List ω} {C : Transition σ β → Prop}
    (hstep : ∀ s a s', (∃ tr, Run finer s₀ tr s) → step s a s' →
      ∃ tr, Run finer s tr s' ∧ (tr.flatMap fun t => shows' t.act) = shows a ∧ ∀ t ∈ tr, C t)
    (run : Run step s₀ tr s) :
    ∃ tr', Run finer s₀ tr' s ∧
      (tr'.flatMap fun t => shows' t.act) = (tr.flatMap fun t => shows t.act) ∧
      ∀ t ∈ tr', C t := by
  induction run with
  | nil => exact ⟨[], .nil, rfl, fun t ht => absurd ht List.not_mem_nil⟩
  | snoc run h ih =>
    obtain ⟨tr₁, run₁, hshows₁, hC₁⟩ := ih
    obtain ⟨tr₂, run₂, hshows₂, hC₂⟩ := hstep _ _ _ ⟨tr₁, run₁⟩ h
    refine ⟨tr₁ ++ tr₂, run₁.append run₂, ?_, fun t ht => ?_⟩
    · rw [List.flatMap_append, List.flatMap_append, hshows₁, hshows₂, List.flatMap_singleton]
    · exact (List.mem_append.mp ht).elim (hC₁ t) (hC₂ t)

end Refinement

/-! ## Runs that are computed -/

section Computed

variable {ο : Type} {step : σ → α → σ → Prop} {next : σ → ο → Option (α × σ)} {s s' : σ}
  {orders : List ο} {tr : List (Transition σ α)}

/-- Orders that are followed one after the other, with the transitions that this makes.
`next` says which step an order is in a state, if it can be followed there. -/
def execute (next : σ → ο → Option (α × σ)) (s : σ) :
    List ο → Option (List (Transition σ α) × σ)
  | [] => some ([], s)
  | order :: orders => do
    let (a, s₁) ← next s order
    let (tr, s') ← execute next s₁ orders
    return (⟨s, a, s₁⟩ :: tr, s')

/-- What is computed is a run, and its transitions are those of the orders. So examples are runs
by evaluation. -/
theorem execute_run {C : Transition σ α → Prop} (h : execute next s orders = some (tr, s'))
    (hnext : ∀ s order a s', next s order = some (a, s') → step s a s' ∧ C ⟨s, a, s'⟩) :
    Run step s tr s' ∧ ∀ t ∈ tr, C t := by
  induction orders generalizing s tr with
  | nil =>
    obtain ⟨rfl, rfl⟩ := Prod.mk.inj (Option.some.inj h)
    exact ⟨.nil, fun _ ht => absurd ht List.not_mem_nil⟩
  | cons order orders ih =>
    simp only [execute, Option.bind_eq_bind, Option.bind_eq_some_iff] at h
    obtain ⟨⟨a, s₁⟩, hs₁, ⟨tr₁, s₂⟩, h₁, heq⟩ := h
    obtain ⟨rfl, rfl⟩ := Prod.mk.inj (Option.some.inj heq)
    obtain ⟨hstep, hC⟩ := hnext s order a s₁ hs₁
    obtain ⟨run, hall⟩ := ih h₁
    exact ⟨(Run.nil.snoc hstep).append run, List.forall_mem_cons.mpr ⟨hC, hall⟩⟩

end Computed

end Runs
