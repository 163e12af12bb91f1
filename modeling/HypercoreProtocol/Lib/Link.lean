/-
Two parties that number the same things for each other.

Either party may give a key a number of its own and announce it, may take back a
key that both have numbered, and may send data under the number of such a key.
A party that is told that a number was taken back forgets the key altogether and
does not answer. The announcements of one party reach the other in order, but
the two directions run independently, so everything can cross on the way.

What holds at all times is a statement about the future: if both parties received
what is on its way to them (`drain`), each would know exactly the numbers the other
has (`Agreed`). The induction goes through because of what a party can expect of
the messages to come (`Safe`): a key that is taken back, or used, is one it has
numbered itself.

Numbers are given again as soon as they are free, so a number alone does not say which
key a message is about. `Routed` adds the keys to the messages, as the sender meant
them, and says that the receiver will understand them so: a message finds the key that
was meant or, if the receiver has taken this key back itself, none.
-/
import Mathlib.Logic.Function.Basic
import Mathlib.Data.Option.Basic
import Mathlib.Data.Set.Insert

set_option autoImplicit false

namespace Link

variable {K I : Type} [DecidableEq K] [DecidableEq I]

/-! ## Parties and their messages -/

/-- **A party**: the numbers it gave to keys, and those it was told. A key may have one of either
kind, both or none. -/
@[ext] structure Party (K I : Type) where
  mine : K → Option I
  theirs : K → Option I

/-- What the parties tell each other. Only an announcement names its key; closing and data go by
the number, which is why numbers must not be mistaken. -/
inductive Signal (K I : Type) where
  | opened (k : K) (i : I)
  | closed (i : I)
  | data (i : I)

namespace Party

/-- The party gives `k` a number. That it is free is a condition where this is used. -/
def number (p : Party K I) (k : K) (i : I) : Party K I :=
  { p with mine := Function.update p.mine k (some i) }

/-- The party forgets `k`, its own number and the one it was told. -/
def forget (p : Party K I) (k : K) : Party K I :=
  ⟨Function.update p.mine k none, Function.update p.theirs k none⟩

/-- The party receives a message. A number that is taken back takes its key with it, on this side
too and without an answer. -/
def recv (p : Party K I) : Signal K I → Party K I
  | .opened k i => { p with theirs := Function.update p.theirs k (some i) }
  | .closed i =>
    ⟨fun k => if p.theirs k = some i then none else p.mine k,
      fun k => if p.theirs k = some i then none else p.theirs k⟩
  | .data _ => p

/-- The party after everything that is on its way to it. Most of the invariants below are about
this state, which the other party knows already. -/
def drain (p : Party K I) (q : List (Signal K I)) : Party K I := q.foldl recv p

/-- A key that the other knows as `i` is one the party has numbered too. If not, a message under
`i` comes for a channel that was never open. -/
def Shares (p : Party K I) (i : I) : Prop := ∀ k, p.theirs k = some i → p.mine k ≠ none

/-- What a party relies on: a number that is announced is new, and so is its key; a
number that is taken back or used is of a key that the party has numbered too. -/
def Expected (p : Party K I) : Signal K I → Prop
  | .opened k i => p.theirs k = none ∧ ∀ k', p.theirs k' ≠ some i
  | .closed i => p.Shares i
  | .data i => p.Shares i

/-- Every message of the link will be expected when its turn comes, that is, after those in front
of it. -/
def Safe (p : Party K I) : List (Signal K I) → Prop
  | [] => True
  | x :: q => p.Expected x ∧ (p.recv x).Safe q

variable {p : Party K I} {q : List (Signal K I)} {x : Signal K I} {k : K} {i : I}

theorem drain_snoc : p.drain (q ++ [x]) = (p.drain q).recv x := by
  rw [drain, List.foldl_append]
  rfl

/-- A link stays safe if its last message is expected when everything before it has arrived.
Sending is checked by this. -/
theorem safe_snoc : p.Safe (q ++ [x]) ↔ p.Safe q ∧ (p.drain q).Expected x := by
  induction q generalizing p with
  | nil => exact ⟨fun h => ⟨trivial, h.1⟩, fun h => ⟨h.2, trivial⟩⟩
  | cons y q ih =>
    constructor
    · rintro ⟨hy, hq⟩
      exact ⟨⟨hy, (ih.mp hq).1⟩, (ih.mp hq).2⟩
    · rintro ⟨⟨hy, hq⟩, hx⟩
      exact ⟨hy, ih.mpr ⟨hq, hx⟩⟩

/-! ## What receiving does to the own numbers -/

/-- A message never gives a party a number; it can only take one away. Numbers are given by the
party itself. -/
theorem mine_recv (p : Party K I) (x : Signal K I) (k : K) :
    (p.recv x).mine k = p.mine k ∨ (p.recv x).mine k = none := by
  cases x with
  | opened k' i => exact Or.inl rfl
  | closed i =>
    by_cases h : p.theirs k = some i
    · exact Or.inr (if_pos h)
    · exact Or.inl (if_neg h)
  | data i => exact Or.inl rfl

/-- A number that is still there after everything is received was there before. -/
theorem mine_of_drain (h : (p.drain q).mine k = some i) : p.mine k = some i := by
  induction q generalizing p with
  | nil => exact h
  | cons x q ih =>
    have hx : (p.recv x).mine k = some i := ih h
    rcases mine_recv p x k with heq | hnone
    · rw [← heq, hx]
    · exact nomatch hnone.symm.trans hx

theorem drain_mine_none (h : p.mine k = none) : (p.drain q).mine k = none := by
  cases hd : (p.drain q).mine k with
  | none => rfl
  | some i => exact nomatch h.symm.trans (mine_of_drain hd)

/-! ## Numbering a key -/

omit [DecidableEq I] in
theorem Shares.number {j : I} (h : p.Shares j) (k : K) (i : I) : (p.number k i).Shares j := by
  intro k' hk'
  show Function.update p.mine k (some i) k' ≠ none
  by_cases heq : k' = k
  · rw [heq, Function.update_self]
    exact Option.some_ne_none i
  · rw [Function.update_of_ne heq]
    exact h k' hk'

omit [DecidableEq I] in
theorem Expected.number (h : p.Expected x) (k : K) (i : I) : (p.number k i).Expected x := by
  cases x with
  | opened k' j => exact h
  | closed j => exact Shares.number h k i
  | data j => exact Shares.number h k i

/-- Receiving and numbering commute: nothing that is expected takes back a key without
a number. -/
theorem recv_number (hx : p.Expected x) (hk : p.mine k = none) :
    (p.number k i).recv x = (p.recv x).number k i := by
  cases x with
  | opened k' j => rfl
  | closed j =>
    have hne : p.theirs k ≠ some j := fun h => hx k h hk
    refine Party.ext (funext fun k' => ?_) rfl
    by_cases heq : k' = k
    · subst heq
      simp only [recv, number, Function.update_self, if_neg hne]
    · simp only [recv, number, Function.update_of_ne heq]
  | data j => rfl

/-- Giving a number and receiving what is on the way can be exchanged. So what is expected on the
link does not depend on when a key is numbered. -/
theorem drain_number (hq : p.Safe q) (hk : p.mine k = none) (i : I) :
    (p.number k i).Safe q ∧ (p.number k i).drain q = (p.drain q).number k i := by
  induction q generalizing p with
  | nil => exact ⟨trivial, rfl⟩
  | cons x q ih =>
    obtain ⟨hx, hq⟩ := hq
    have hk' : (p.recv x).mine k = none := by
      rcases mine_recv p x k with heq | hnone
      · rw [heq, hk]
      · exact hnone
    obtain ⟨hsafe, hdrain⟩ := ih hq hk'
    rw [← recv_number hx hk] at hsafe hdrain
    exact ⟨⟨hx.number k i, hsafe⟩, hdrain⟩

/-! ## Forgetting a key -/

omit [DecidableEq I] in
theorem forget_theirs {k' : K} (h : (p.forget k).theirs k' = some i) :
    k' ≠ k ∧ p.theirs k' = some i := by
  change Function.update p.theirs k none k' = some i at h
  by_cases heq : k' = k
  · rw [heq, Function.update_self] at h
    exact nomatch h
  · rw [Function.update_of_ne heq] at h
    exact ⟨heq, h⟩

omit [DecidableEq I] in
theorem Shares.forget (h : p.Shares i) (k : K) : (p.forget k).Shares i := by
  intro k' hk'
  obtain ⟨hne, hk'⟩ := forget_theirs hk'
  show Function.update p.mine k none k' ≠ none
  rw [Function.update_of_ne hne]
  exact h k' hk'

omit [DecidableEq I] in
theorem Expected.forget (h : p.Expected x) (k : K) : (p.forget k).Expected x := by
  cases x with
  | opened k' j =>
    refine ⟨?_, fun k'' hk'' => h.2 k'' (forget_theirs hk'').2⟩
    cases hk' : (p.forget k).theirs k' with
    | none => rfl
    | some j' => exact nomatch h.1.symm.trans (forget_theirs hk').2
  | closed j => exact Shares.forget h k
  | data j => exact Shares.forget h k

/-- One message to a party that has forgotten a shared key: the key would have outlived
the message, or the message would have taken it away. -/
theorem recv_forget {j : I} (hx : p.Expected x) (hmine : p.mine k = some i)
    (htheirs : p.theirs k = some j) :
    ((p.recv x).mine k = some i ∧ (p.recv x).theirs k = some j ∧
        (p.forget k).recv x = (p.recv x).forget k) ∨
      ((p.recv x).mine k = none ∧ (p.forget k).recv x = p.recv x) := by
  cases x with
  | opened k' n =>
    -- a key that is numbered is not opened again
    have hne : k' ≠ k := by
      intro heq
      have hnone : p.theirs k = none := heq ▸ hx.1
      exact nomatch hnone.symm.trans htheirs
    refine Or.inl ⟨hmine, (Function.update_of_ne hne.symm _ _).trans htheirs, ?_⟩
    simp only [recv, forget, Function.update_comm hne]
  | closed n =>
    -- the message may take back the very key that was forgotten
    by_cases hn : p.theirs k = some n
    · refine Or.inr ⟨if_pos hn, Party.ext (funext fun k' => ?_) (funext fun k' => ?_)⟩
      all_goals
        by_cases heq : k' = k
        · simp only [recv, forget, heq, hn, Function.update_self, if_true, ite_self]
        · simp only [recv, forget, Function.update_of_ne heq]
    · refine Or.inl ⟨(if_neg hn).trans hmine, (if_neg hn).trans htheirs,
        Party.ext (funext fun k' => ?_) (funext fun k' => ?_)⟩
      all_goals
        by_cases heq : k' = k
        · simp only [recv, forget, heq, Function.update_self, ite_self]
        · simp only [recv, forget, Function.update_of_ne heq]
  | data n => exact Or.inl ⟨hmine, htheirs, rfl⟩

/-- A party that forgets a key it shares with the other may have been told to forget it
already, by a message that is still on its way. Then nothing changes in the end;
otherwise the key is what is missing in the end. -/
theorem drain_forget {j : I} (hq : p.Safe q) (hmine : p.mine k = some i)
    (htheirs : p.theirs k = some j) :
    (p.forget k).Safe q ∧
      (((p.drain q).mine k = some i ∧ (p.drain q).theirs k = some j ∧
          (p.forget k).drain q = (p.drain q).forget k) ∨
        ((p.drain q).mine k = none ∧ (p.forget k).drain q = p.drain q)) := by
  induction q generalizing p with
  | nil => exact ⟨trivial, Or.inl ⟨hmine, htheirs, rfl⟩⟩
  | cons x q ih =>
    obtain ⟨hx, hq⟩ := hq
    rcases recv_forget hx hmine htheirs with ⟨hm, ht, hrecv⟩ | ⟨hm, hrecv⟩
    · obtain ⟨hsafe, hdrain⟩ := ih hq hm ht
      rw [← hrecv] at hsafe hdrain
      exact ⟨⟨hx.forget k, hsafe⟩, hdrain⟩
    · -- both parties are the same from here on
      refine ⟨⟨hx.forget k, hrecv ▸ hq⟩, Or.inr ⟨drain_mine_none (p := p.recv x) hm, ?_⟩⟩
      rw [drain, List.foldl_cons, hrecv]
      rfl

end Party

/-! ## Agreement -/

open Party

/-- Both links are safe, and once they are empty each party will know the numbers of
the other. -/
structure Agreed (a b : Party K I) (ab ba : List (Signal K I)) : Prop where
  safe_left : a.Safe ba
  safe_right : b.Safe ab
  mine : (a.drain ba).mine = (b.drain ab).theirs
  theirs : (a.drain ba).theirs = (b.drain ab).mine

variable {a b : Party K I} {ab ba : List (Signal K I)} {x : Signal K I} {k : K} {i j : I}

/-- Agreement does not depend on the side, and half of every proof is enough. -/
theorem Agreed.symm (h : Agreed a b ab ba) : Agreed b a ba ab :=
  ⟨h.safe_right, h.safe_left, h.theirs.symm, h.mine.symm⟩

/-- With nothing on the way it is what it says: each knows the numbers of the other. -/
theorem Agreed.settled (h : Agreed a b [] []) : a.mine = b.theirs ∧ a.theirs = b.mine :=
  ⟨h.mine, h.theirs⟩

/-- The next message may arrive, and nothing changes about the future: the state after all
messages is the same. -/
theorem Agreed.receive (h : Agreed a b ab (x :: ba)) :
    a.Expected x ∧ Agreed (a.recv x) b ab ba :=
  ⟨h.safe_left.1, h.safe_left.2, h.safe_right, h.mine, h.theirs⟩

/-- A party numbers a key that it has no number for, with a number it does not use. -/
theorem Agreed.number (h : Agreed a b ab ba) (hk : a.mine k = none)
    (hi : ∀ k', a.mine k' ≠ some i) : Agreed (a.number k i) b (ab ++ [.opened k i]) ba := by
  obtain ⟨hsafe, hdrain⟩ := drain_number h.safe_left hk i
  have hexpected : (b.drain ab).Expected (.opened k i) := by
    rw [Expected, ← h.mine]
    exact ⟨drain_mine_none hk, fun k' hk' => hi k' (mine_of_drain hk')⟩
  refine ⟨hsafe, safe_snoc.mpr ⟨h.safe_right, hexpected⟩, ?_, ?_⟩
  · rw [hdrain, drain_snoc, recv, Party.number, h.mine]
  · rw [hdrain, drain_snoc, recv, Party.number, h.theirs]

/-- A number of one party is shared by the other in the end, unless its key is taken
away before. -/
theorem Agreed.shares (h : Agreed a b ab ba)
    (hinj : ∀ k', a.mine k' = some i → k' = k)
    (hshared : (a.drain ba).mine k = none ∨ (a.drain ba).theirs k = some j) :
    (b.drain ab).Shares i := by
  intro k' hk'
  rw [← h.mine] at hk'
  obtain rfl := hinj k' (mine_of_drain hk')
  rcases hshared with hnone | hsome
  · exact nomatch hnone.symm.trans hk'
  · rw [← h.theirs, hsome]
    exact Option.some_ne_none j

/-- A party takes back a key that both have numbered, and tells the other. The other may have
done so too, at the same time. -/
theorem Agreed.forget (h : Agreed a b ab ba) (hinj : ∀ k', a.mine k' = some i → k' = k)
    (hmine : a.mine k = some i) (htheirs : a.theirs k = some j) :
    Agreed (a.forget k) b (ab ++ [.closed i]) ba := by
  obtain ⟨hsafe, ⟨hm, ht, hdrain⟩ | ⟨hm, hdrain⟩⟩ := drain_forget h.safe_left hmine htheirs
  · -- the other still has the key, and forgets it when it hears of it
    have hiff : ∀ k', (b.drain ab).theirs k' = some i ↔ k' = k := by
      intro k'
      rw [← h.mine]
      exact ⟨fun hk' => hinj k' (mine_of_drain hk'), fun heq => heq ▸ hm⟩
    have hrecv : (b.drain ab).recv (.closed i) = (b.drain ab).forget k := by
      refine Party.ext (funext fun k' => ?_) (funext fun k' => ?_)
      all_goals
        simp only [recv, Party.forget, hiff, Function.update_apply]
    refine ⟨hsafe, safe_snoc.mpr ⟨h.safe_right, h.shares hinj (Or.inr ht)⟩, ?_, ?_⟩
    · rw [hdrain, drain_snoc, hrecv, Party.forget, Party.forget, h.mine]
    · rw [hdrain, drain_snoc, hrecv, Party.forget, Party.forget, h.theirs]
  · -- the other has taken it back as well, and ignores what it hears
    have hnone : ∀ k', (b.drain ab).theirs k' ≠ some i := by
      intro k' hk'
      rw [← h.mine] at hk'
      rw [hinj k' (mine_of_drain hk')] at hk'
      exact nomatch hm.symm.trans hk'
    have hrecv : (b.drain ab).recv (.closed i) = b.drain ab := by
      refine Party.ext (funext fun k' => if_neg (hnone k')) (funext fun k' => if_neg (hnone k'))
    refine ⟨hsafe, safe_snoc.mpr ⟨h.safe_right, h.shares (j := j) hinj (Or.inl hm)⟩, ?_, ?_⟩
    · rw [hdrain, drain_snoc, hrecv, h.mine]
    · rw [hdrain, drain_snoc, hrecv, h.theirs]

/-- A message that may be sent once may be sent any number of times. Agreement and routing
both rest on this, so the induction is here for any property of the link. -/
theorem repeated {α β : Type} {P : List α → Prop} {x : α} (h : ∀ l, P l → P (l ++ [x]))
    (times : List β) {l : List α} (hl : P l) : P (l ++ times.map fun _ => x) := by
  induction times generalizing l with
  | nil => rwa [List.map_nil, List.append_nil]
  | cons _ times ih =>
    rw [List.map_cons, List.append_cons]
    exact ih (h l hl)

/-- A party sends data under the number of a key that both have numbered. The other may have
taken the key back meanwhile, and then the message comes for nothing. -/
theorem Agreed.send (h : Agreed a b ab ba) (hinj : ∀ k', a.mine k' = some i → k' = k)
    (hmine : a.mine k = some i) (htheirs : a.theirs k = some j) :
    Agreed a b (ab ++ [.data i]) ba := by
  have hshared : (a.drain ba).mine k = none ∨ (a.drain ba).theirs k = some j := by
    obtain ⟨-, ⟨-, ht, -⟩ | ⟨hm, -⟩⟩ := drain_forget h.safe_left hmine htheirs
    · exact Or.inr ht
    · exact Or.inl hm
  refine ⟨h.safe_left, safe_snoc.mpr ⟨h.safe_right, h.shares hinj hshared⟩, ?_, ?_⟩
  · rw [drain_snoc, h.mine]
    rfl
  · rw [drain_snoc, h.theirs]
    rfl

/-- Any number of data messages under the number of one key. -/
theorem Agreed.sends {β : Type} (h : Agreed a b ab ba) (hinj : ∀ k', a.mine k' = some i → k' = k)
    (hmine : a.mine k = some i) (htheirs : a.theirs k = some j) (times : List β) :
    Agreed a b (ab ++ times.map fun _ => .data i) ba :=
  repeated (P := fun ab => Agreed a b ab ba) (fun _ h => h.send hinj hmine htheirs) times h

/-! ## Messages and the keys they are about -/

namespace Party

variable {p : Party K I} {q : List (K × Signal K I)} {x : Signal K I} {k k₀ : K} {i : I}
  {A B : Set K}

/-- The party understands the message as one about `k`. It may find no key at all, if `k`
is among those it has taken back. -/
def Understands (p : Party K I) (A : Set K) (k : K) : Signal K I → Prop
  | .opened k' _ => k' = k
  | .closed i => (∀ k', p.theirs k' = some i → k' = k) ∧ (p.theirs k = some i ∨ k ∈ A)
  | .data i => (∀ k', p.theirs k' = some i → k' = k) ∧ (p.theirs k = some i ∨ k ∈ A)

/-- Every message of the link will be understood when its turn comes. `A` has the keys that the
party has taken back itself. -/
def Routes (p : Party K I) (A : Set K) : List (K × Signal K I) → Prop
  | [] => True
  | (k, x) :: q => p.Understands A k x ∧ (p.recv x).Routes A q

omit [DecidableEq K] [DecidableEq I] in
theorem Understands.mono (h : p.Understands A k x) (hAB : A ⊆ B) : p.Understands B k x := by
  cases x with
  | opened => exact h
  | closed i => exact ⟨h.1, h.2.imp_right (fun hk => hAB hk)⟩
  | data i => exact ⟨h.1, h.2.imp_right (fun hk => hAB hk)⟩

theorem Routes.mono (h : p.Routes A q) (hAB : A ⊆ B) : p.Routes B q := by
  induction q generalizing p with
  | nil => trivial
  | cons y q ih => exact ⟨h.1.mono hAB, ih h.2⟩

/-- The last message of a link is understood when everything before it has arrived. -/
theorem routes_snoc :
    p.Routes A (q ++ [(k, x)]) ↔ p.Routes A q ∧ (p.drain (q.map Prod.snd)).Understands A k x := by
  induction q generalizing p with
  | nil => exact ⟨fun h => ⟨trivial, h.1⟩, fun h => ⟨h.2, trivial⟩⟩
  | cons y q ih =>
    constructor
    · rintro ⟨hy, hq⟩
      exact ⟨⟨hy, (ih.mp hq).1⟩, (ih.mp hq).2⟩
    · rintro ⟨⟨hy, hq⟩, hx⟩
      exact ⟨hy, ih.mpr ⟨hq, hx⟩⟩

/-- What a party understands depends on the numbers it was told only, so that giving one of its
own changes nothing. -/
theorem Routes.number (h : p.Routes A q) (hq : p.Safe (q.map Prod.snd)) (hk : p.mine k = none)
    (i : I) : (p.number k i).Routes A q := by
  induction q generalizing p with
  | nil => trivial
  | cons y q ih =>
    obtain ⟨hx, hq⟩ := hq
    have hk' : (p.recv y.2).mine k = none := drain_mine_none (q := [y.2]) hk
    have hy : (p.number k i).Understands A y.1 y.2 := by
      cases hsig : y.2 with
      | opened => exact hsig ▸ h.1
      | closed => exact (hsig ▸ h.1 : p.Understands A y.1 _)
      | data => exact (hsig ▸ h.1 : p.Understands A y.1 _)
    exact ⟨hy, recv_number hx hk ▸ ih h.2 hq hk'⟩

omit [DecidableEq I] in
/-- A party that takes back a key understands a message about it as one about no key. -/
theorem Understands.forget (h : p.Understands A k₀ x) (k : K) :
    (p.forget k).Understands (insert k A) k₀ x := by
  have hfound : ∀ {i}, (∀ k', p.theirs k' = some i → k' = k₀) ∧ (p.theirs k₀ = some i ∨ k₀ ∈ A) →
      (∀ k', (p.forget k).theirs k' = some i → k' = k₀) ∧
        ((p.forget k).theirs k₀ = some i ∨ k₀ ∈ insert k A) := by
    rintro i ⟨hall, hk₀⟩
    refine ⟨fun k' hk' => hall k' (forget_theirs hk').2, ?_⟩
    by_cases heq : k₀ = k
    · exact Or.inr (Set.mem_insert_iff.mpr (Or.inl heq))
    · exact hk₀.imp (fun ht => (Function.update_of_ne heq _ _).trans ht)
        (fun hA => Set.mem_insert_of_mem k hA)
  cases x with
  | opened => exact h
  | closed => exact hfound h
  | data => exact hfound h

/-- A party that takes a key back still understands what is on its way, if messages for this key
may now come for nothing. -/
theorem Routes.forget {j : I} (h : p.Routes A q) (hq : p.Safe (q.map Prod.snd))
    (hmine : p.mine k = some i) (htheirs : p.theirs k = some j) :
    (p.forget k).Routes (insert k A) q := by
  induction q generalizing p with
  | nil => trivial
  | cons y q ih =>
    obtain ⟨hx, hq⟩ := hq
    refine ⟨h.1.forget k, ?_⟩
    rcases recv_forget hx hmine htheirs with ⟨hm, ht, hrecv⟩ | ⟨-, hrecv⟩
    · rw [hrecv]
      exact ih h.2 hq hm ht
    · rw [hrecv]
      exact h.2.mono (Set.subset_insert k A)

/-- A key whose number will be gone is one the other has taken back: nothing else takes it
away. -/
theorem Routes.taken_back (h : p.Routes A q) (hB : ∀ k i, (k, .closed i) ∈ q → k ∈ B)
    (hmine : p.mine k ≠ none) (hgone : (p.drain (q.map Prod.snd)).mine k = none) : k ∈ B := by
  induction q generalizing p with
  | nil => exact absurd hgone hmine
  | cons y q ih =>
    by_cases hstays : (p.recv y.2).mine k = none
    · -- only a message that takes a number back can have done this
      obtain ⟨k', x⟩ := y
      cases x with
      | opened => exact absurd hstays hmine
      | data => exact absurd hstays hmine
      | closed n =>
        by_cases hn : p.theirs k = some n
        · rw [h.1.1 k hn]
          exact hB k' n List.mem_cons_self
        · exact absurd ((if_neg hn).symm.trans hstays) hmine
    · exact ih h.2 (fun k i hki => hB k i (List.mem_cons_of_mem _ hki)) hstays hgone

end Party

/-- The parties agree, and each will understand the messages of the other as they were
meant. `A` and `B` are the keys that the two have taken back so far. -/
structure Routed (a b : Party K I) (ab ba : List (K × Signal K I)) (A B : Set K) : Prop where
  agreed : Agreed a b (ab.map Prod.snd) (ba.map Prod.snd)
  left : a.Routes A ba
  right : b.Routes B ab
  closed_left : ∀ k i, (k, .closed i) ∈ ab → k ∈ A
  closed_right : ∀ k i, (k, .closed i) ∈ ba → k ∈ B

section Routed

variable {ab ba : List (K × Signal K I)} {A B : Set K}

theorem Routed.symm (h : Routed a b ab ba A B) : Routed b a ba ab B A :=
  ⟨h.agreed.symm, h.right, h.left, h.closed_right, h.closed_left⟩

theorem Routed.mono {A' B' : Set K} (h : Routed a b ab ba A B) (hA : A ⊆ A') (hB : B ⊆ B') :
    Routed a b ab ba A' B' :=
  ⟨h.agreed, h.left.mono hA, h.right.mono hB, fun k i hki => hA (h.closed_left k i hki),
    fun k i hki => hB (h.closed_right k i hki)⟩

/-- The next message arrives, and is understood as it was meant. The rest of the link is as
before. -/
theorem Routed.receive (h : Routed a b ab ((k, x) :: ba) A B) :
    a.Expected x ∧ a.Understands A k x ∧ Routed (a.recv x) b ab ba A B :=
  ⟨h.agreed.receive.1, h.left.1, h.agreed.receive.2, h.left.2, h.right, h.closed_left,
    fun k' i hki => h.closed_right k' i (List.mem_cons_of_mem _ hki)⟩

/-- An announcement names its key, so it is understood by itself, and later messages by the
number it gives. -/
theorem Routed.number (h : Routed a b ab ba A B) (hk : a.mine k = none)
    (hi : ∀ k', a.mine k' ≠ some i) :
    Routed (a.number k i) b (ab ++ [(k, .opened k i)]) ba A B where
  agreed := by
    rw [List.map_append]
    exact h.agreed.number hk hi
  left := h.left.number h.agreed.safe_left hk i
  right := routes_snoc.mpr ⟨h.right, rfl⟩
  closed_left k' n hkn := by
    rcases List.mem_append.mp hkn with hkn | hkn
    · exact h.closed_left k' n hkn
    · exact nomatch List.mem_singleton.mp hkn
  closed_right := h.closed_right

/-- The number of a shared key leads the other to this key, unless it has taken it back. -/
theorem Routed.leads (h : Routed a b ab ba A B) (hinj : ∀ k', a.mine k' = some i → k' = k)
    (hmine : a.mine k = some i) :
    (∀ k', (b.drain (ab.map Prod.snd)).theirs k' = some i → k' = k) ∧
      ((b.drain (ab.map Prod.snd)).theirs k = some i ∨ k ∈ B) := by
  rw [← h.agreed.mine]
  refine ⟨fun k' hk' => hinj k' (mine_of_drain hk'), ?_⟩
  cases hd : (a.drain (ba.map Prod.snd)).mine k with
  | none =>
    exact Or.inr (h.left.taken_back h.closed_right (by rw [hmine]; exact Option.some_ne_none i) hd)
  | some n => exact Or.inl ((mine_of_drain hd).symm.trans hmine)

/-- A key is taken back. Its number still leads the other to this key, until it hears of it. -/
theorem Routed.forget (h : Routed a b ab ba A B) (hinj : ∀ k', a.mine k' = some i → k' = k)
    (hmine : a.mine k = some i) (htheirs : a.theirs k = some j) :
    Routed (a.forget k) b (ab ++ [(k, .closed i)]) ba (insert k A) B where
  agreed := by
    rw [List.map_append]
    exact h.agreed.forget hinj hmine htheirs
  left := h.left.forget h.agreed.safe_left hmine htheirs
  right := routes_snoc.mpr ⟨h.right, h.leads hinj hmine⟩
  closed_left k' n hkn := by
    rcases List.mem_append.mp hkn with hkn | hkn
    · exact Set.mem_insert_of_mem k (h.closed_left k' n hkn)
    · obtain ⟨rfl, -⟩ := Prod.mk.inj (List.mem_singleton.mp hkn)
      exact Set.mem_insert k' A
  closed_right := h.closed_right

/-- Data is sent under a number that leads the other to the key, or nowhere if it has taken the
key back. -/
theorem Routed.send (h : Routed a b ab ba A B) (hinj : ∀ k', a.mine k' = some i → k' = k)
    (hmine : a.mine k = some i) (htheirs : a.theirs k = some j) :
    Routed a b (ab ++ [(k, .data i)]) ba A B where
  agreed := by
    rw [List.map_append]
    exact h.agreed.send hinj hmine htheirs
  left := h.left
  right := routes_snoc.mpr ⟨h.right, h.leads hinj hmine⟩
  closed_left k' n hkn := by
    rcases List.mem_append.mp hkn with hkn | hkn
    · exact h.closed_left k' n hkn
    · exact nomatch List.mem_singleton.mp hkn
  closed_right := h.closed_right

theorem Routed.sends {β : Type} (h : Routed a b ab ba A B)
    (hinj : ∀ k', a.mine k' = some i → k' = k) (hmine : a.mine k = some i)
    (htheirs : a.theirs k = some j) (times : List β) :
    Routed a b (ab ++ times.map fun _ => (k, .data i)) ba A B :=
  repeated (P := fun ab => Routed a b ab ba A B) (fun _ h => h.send hinj hmine htheirs) times h

end Routed

end Link
