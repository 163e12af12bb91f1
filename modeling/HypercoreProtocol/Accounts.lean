/-
Accounts of what polls do.

A run of polls is a run of moves that shows the application the same. What the connection
was asked and told on the way is not in it: the moves only say that the connection went on.
A connection that keeps notes of its own can be compared with the moves, and an account is
such a comparison: `A p cut tr p'` says that the moves `tr` from `p` to `p'` account for
what was noted in between, but for `cut` exceptions.

Accounts add up over moves, polls and calls. If a poll that returns has no exception and one
that fails at most one, then a whole run has at most as many as polls failed
(`polls_account`).
-/
import HypercoreProtocol.Observed

set_option autoImplicit false

namespace hypercore_protocol.session

open Rust Method Wire Runs schema message channels mqueue protocol

variable {X : Deps} {σ : Type} [CipherTrait σ] {s s' : Session X σ} {p p' : Protocol X σ}

/-! ## Accounts -/

section Account

variable {A : Protocol X σ → ℕ → List (Happening X σ) → Protocol X σ → Prop}

/-- The moves with which a poll returns an event. They do not touch the connection. -/
def Move.returns : Move X → Prop
  | .event _ => True
  | .handshake _ => True
  | _ => False

/-- `A` adds up. Calls of the application and returned events are no exceptions. What else a poll
does has to be accounted for move by move. -/
structure Account (A : Protocol X σ → ℕ → List (Happening X σ) → Protocol X σ → Prop) :
    Prop where
  refl : ∀ p, A p 0 [] p
  trans : ∀ {p p' p'' m n tr tr'}, A p m tr p' → A p' n tr' p'' → A p (m + n) (tr ++ tr') p''
  aside : ∀ {t : Happening X σ}, (∀ move, t.act ≠ .protocol move) →
    Aside t.pre.protocol t.post.protocol → A t.pre.protocol 0 [t] t.post.protocol
  returned : ∀ {t : Happening X σ} {move : Move X}, t.act = .protocol move → move.returns →
    t.post.protocol.io = t.pre.protocol.io → A t.pre.protocol 0 [t] t.post.protocol

/-- The session is polled to `p`, and all is accounted for. No event was returned so far. -/
def Accounts (A : Protocol X σ → ℕ → List (Happening X σ) → Protocol X σ → Prop)
    (s : Session X σ) (p : Protocol X σ) : Prop :=
  Makes (A s.protocol 0) s p [] []

/-- The session is polled to `p` by a poll that fails, with one exception at most. A failing poll
stops at its first error, so there is no second. -/
def Excepts (A : Protocol X σ → ℕ → List (Happening X σ) → Protocol X σ → Prop)
    (s : Session X σ) (p : Protocol X σ) : Prop :=
  Makes (fun tr p => ∃ cut ≤ 1, A s.protocol cut tr p) s p [] []

theorem Accounts.excepts (h : Accounts A s p) : Excepts A s p :=
  h.mono fun _ h => ⟨0, Nat.zero_le _, h⟩

theorem Accounts.step (hA : Account A) {move : Move X} (h : Accounts A s p) (hs : Inv s)
    (hmove : protocol_step p move p')
    (hone : ∀ t : Happening X σ, t.pre.protocol = p → t.act = .protocol move →
      t.post.protocol = p' → A p 0 [t] p') :
    Makes (A s.protocol 0) s p' move.gives (Action.protocol move).sight :=
  Makes.step h hs hmove fun _ t hpre hact hpost h => hA.trans h (hone t hpre hact hpost)

theorem Accounts.returns (hA : Account A) {move : Move X} (h : Accounts A s p) (hs : Inv s)
    (hmove : protocol_step p move p') (hreturns : move.returns) (hio : p'.io = p.io) :
    Makes (A s.protocol 0) s p' move.gives (Action.protocol move).sight := by
  refine h.step hA hs hmove fun t hpre hact hpost => ?_
  rw [← hpre, ← hpost] at hio ⊢
  exact hA.returned hact hreturns hio

/-- A poll, from its parts: a poll that returns is accounted for, and one that fails has one
exception at most. -/
theorem poll_next_accounts (hA : Account A) (hs : Inv s) {fuel : ℕ}
    (hread : Triple (Accounts A s) (Protocol.poll_inbound_read fuel)
      (fun _ => Accounts A s) (Excepts A s))
    (hcommands : Triple (Accounts A s) Protocol.poll_commands (fun _ => Accounts A s) (Excepts A s))
    (hwrite : Triple (Accounts A s) Protocol.poll_outbound_write
      (fun _ => Accounts A s) (Excepts A s)) :
    Triple (· = s.protocol) (Protocol.poll_next fuel)
      (fun result p => Makes (A s.protocol 0) s p (given result)
        (PollAction.poll (X := X) (.ok result)).sight) (Excepts A s) := by
  have hevent : ∀ p e rest, Accounts A s p → p.queued_events = e :: rest →
      Makes (A s.protocol 0) s { p with queued_events := rest } (given (.ready e)) [.event e] :=
    fun p e rest hp hq => hp.returns hA hs (.event hq) trivial rfl
  have hwait : Triple (Accounts A s) (Protocol.poll_handshake fuel) (fun _ => Accounts A s)
      (Excepts A s) := by
    refine triple_bind triple_get fun self => ?_
    split
    · exact triple_bind (hwrite.conseq (fun _ hp => hp.2) (fun _ _ h => h) fun _ h => h) fun _ =>
        triple_bind hread fun _ => triple_bind triple_get fun _ => triple_pure fun _ hp => hp.2
    · exact triple_pure fun _ hp => hp.2
  refine (Protocol.triple_poll_next (J := Accounts A s) (hwait.conseq (fun _ hp => hp)
    (fun wait p hp => ?_) fun _ h => h) ?_ (fun _ hp _ => hp) hevent
    (hread.conseq (fun _ hp => hp.1) (fun _ _ h => h) fun _ h => h) hcommands hwrite hevent
    fun _ hp _ => hp).conseq (fun p hp => hp ▸ makes_refl s (hA.refl _)) (fun _ _ h => h)
    fun _ h => h
  · show if wait = true then Accounts A s p else Accounts A s p
    rwa [ite_self]
  · exact fun p key hp hemitted hkey => hp.returns hA hs (.handshake hemitted hkey) trivial rfl

/-- How many of the polls failed. Calls of the application are not counted, whatever became of
them. -/
def failures {τ : Type} (polls : List (Transition τ (PollAction X))) : ℕ :=
  polls.countP fun t => match t.act with
    | .poll (.error _) => true
    | _ => false

/-- A run of calls and polls, from its polls: there is a run of moves to the same session that
shows the same, and it accounts for what happened but for one exception at most for each poll
that failed. -/
theorem polls_account (hA : Account A) {stream : σ}
    (hpoll : ∀ s : Session X σ, Inv s → ∀ fuel,
      Triple (· = s.protocol) (Protocol.poll_next fuel)
        (fun result p => Makes (A s.protocol 0) s p (given result)
          (PollAction.poll (X := X) (.ok result)).sight) (Excepts A s))
    {polls : List (Transition (Session X σ) (PollAction X))}
    (run : Run PollStep (Session.new stream) polls s)
    (hnet : ∀ t ∈ polls, t.act = .net →
      t.post.protocol.io.write_queue = t.pre.protocol.io.write_queue →
      A t.pre.protocol 0 [⟨t.pre, .protocol .io, t.post⟩] t.post.protocol) :
    ∃ tr cut, Run Step (Session.new stream) tr s ∧
      (tr.flatMap fun t => t.act.sight) = (polls.flatMap fun t => t.act.sight) ∧
      A (Session.new stream).protocol cut tr s.protocol ∧ cut ≤ failures polls := by
  induction run with
  | nil => exact ⟨[], 0, .nil, rfl, hA.refl _, Nat.zero_le _⟩
  | @snoc polls s s' a run h ih =>
    obtain ⟨tr, cut, run₁, hseen, haccount, hcut⟩ :=
      ih fun t ht => hnet t (List.mem_append_left _ ht)
    let last : Transition (Session X σ) (PollAction X) := ⟨s, a, s'⟩
    have hlast := hnet last (List.mem_append_right _ (List.mem_singleton.mpr rfl))
    have hs : Inv s := reachable_inv run₁
    -- the moves of the last step, behind those of the others
    have hjoin : ∀ {tr' cut'}, Run Step s tr' s' →
        (tr'.flatMap fun t => t.act.sight) = a.sight →
        A s.protocol cut' tr' s'.protocol → cut' ≤ failures [last] →
        ∃ tr cut, Run Step (Session.new stream) tr s' ∧
          (tr.flatMap fun t => t.act.sight) = ((polls ++ [last]).flatMap fun t => t.act.sight) ∧
          A (Session.new stream).protocol cut tr s'.protocol ∧
          cut ≤ failures (polls ++ [last]) := by
      intro tr' cut' run₂ hseen' haccount' hcut'
      refine ⟨tr ++ tr', cut + cut', run₁.append run₂, ?_, hA.trans haccount haccount', ?_⟩
      · rw [List.flatMap_append, List.flatMap_append, hseen, hseen', List.flatMap_singleton]
      · rw [failures, List.countP_append]
        exact Nat.add_le_add hcut hcut'
    cases h with
    | app h hno =>
      rename_i a
      let t : Happening X σ := ⟨s, a, s'⟩
      have haside : Aside s.protocol s'.protocol := by
        rcases h.move_or_aside with ⟨move, rfl, -⟩ | ⟨-, haside⟩
        · exact absurd rfl (hno move)
        · exact haside
      have hone : A t.pre.protocol 0 [t] t.post.protocol := hA.aside hno haside
      exact hjoin (Run.nil.snoc h) ((List.flatMap_singleton _ _).trans (Action.sight_app hno)) hone
        (Nat.zero_le _)
    | net hkeeps => exact hjoin (Run.nil.snoc (net_step hkeeps)) rfl (hlast rfl rfl) (Nat.zero_le _)
    | poll h =>
      obtain ⟨-, tr', run₂, hseen', haccount'⟩ := (hpoll s hs _ _ rfl).1 _ _ h
      exact hjoin run₂ hseen' haccount' (Nat.zero_le _)
    | failed h =>
      obtain ⟨-, tr', run₂, hseen', cut', hle, haccount'⟩ := (hpoll s hs _ _ rfl).2 _ _ h
      exact hjoin run₂ hseen' haccount' hle

end Account

end hypercore_protocol.session
