/-
Sessions as their users run them.

An application does not see moves. It calls `poll_next` and gets an event, nothing
yet, or an error; between its polls it queues commands and uses its channels, and
the connection goes on. `PollStep` is this system, with whole polls as its steps.
`poll_run_moves_of` says that each of its runs is a run of moves between the same
sessions, so that everything said about runs of moves holds for it.

The converse fails, and on purpose: a poll takes its moves in a fixed order, and what
depends on that order is said about `PollStep`.
-/
import HypercoreProtocol.Polling

set_option autoImplicit false

namespace hypercore_protocol.session

open Rust Method Wire Runs schema message channels mqueue protocol

variable {X : Deps} {σ : Type} [CipherTrait σ] {s s' : Session X σ} {p p' : Protocol X σ}

/-! ## The system -/

/-- The channels a poll gives to the application: the one in the event it returns, if there is
one. -/
def given : Poll Event → List Channel
  | .ready (.Channel c) => [c]
  | _ => []

/-- The session after a poll that has left `p` and given away these channels. The
batches it took from the outbound queue have no sender any more. -/
def Session.polled (s : Session X σ) (p : Protocol X σ) (channels : List Channel) :
    Session X σ :=
  { s with
    protocol := p
    held := s.held ++ channels
    senders := s.senders.drop (s.protocol.outbound_rx.length - p.outbound_rx.length) }

/-- What an application does between two states, with whole polls. This is how the library is
used; `Step` takes polls apart. -/
inductive PollAction (X : Deps) where
  /-- The application does something other than a poll. -/
  | app (a : Action X)
  /-- The connection changes. -/
  | net
  /-- `poll_next` returns. -/
  | poll (result : Except IoError (Poll Event))

inductive PollStep : Session X σ → PollAction X → Session X σ → Prop where
  | app {s s' : Session X σ} {a : Action X} (h : Step s a s') (hno : ∀ move, a ≠ .protocol move) :
      PollStep s (.app a) s'
  | net {s : Session X σ} {stream : σ} (hs : KeepsHandshake s.protocol.io.stream stream) :
      PollStep s .net { s with
        protocol := { s.protocol with io := { s.protocol.io with stream := stream } } }
  | poll {s : Session X σ} {fuel : ℕ} {result : Poll Event} {p : Protocol X σ}
      (h : (Protocol.poll_next fuel).run s.protocol = .ok result p) :
      PollStep s (.poll (.ok result)) (s.polled p (given result))
  | failed {s : Session X σ} {fuel : ℕ} {e : IoError} {p : Protocol X σ}
      (h : (Protocol.poll_next fuel).run s.protocol = .error (.err e) p) :
      PollStep s (.poll (.error e)) (s.polled p [])

/-! ## What polls do, move by move -/

/-- The session is polled to `p` by moves, each of which satisfies `C` in the state in
which it is made. -/
def PolledTo (C : Protocol X σ → Move X → Prop) (s : Session X σ) (p : Protocol X σ)
    (channels : List Channel) : Prop :=
  p.outbound_rx.length ≤ s.protocol.outbound_rx.length ∧
  ∃ tr, Run Step s tr (s.polled p channels) ∧
    ∀ t ∈ tr, ∃ move, t.act = .protocol move ∧ C t.pre.protocol move

variable {C : Protocol X σ → Move X → Prop} {G : Protocol X σ → Prop}

omit [CipherTrait σ] in
theorem Session.polled_self (s : Session X σ) : s.polled s.protocol [] = s := by
  simp [Session.polled]

theorem polledTo_refl (s : Session X σ) : PolledTo C s s.protocol [] :=
  ⟨Nat.le_refl _, [], s.polled_self.symm ▸ .nil, fun _ ht => absurd ht List.not_mem_nil⟩

/-- Every run of single moves keeps the invariant of a session, from wherever it starts. -/
theorem inv_run {tr : List (Transition (Session X σ) (Action X))} (hs : Inv s)
    (run : Run Step s tr s') : Inv s' :=
  run.invariant (I := fun _ s => Inv s) hs fun _ _ _ _ _ hs h => h.inv hs

theorem PolledTo.inv {channels : List Channel} (h : PolledTo C s p channels) (hs : Inv s) :
    Inv (s.polled p channels) := by
  obtain ⟨-, tr, run, -⟩ := h
  exact inv_run hs run

/-- The channels that a move gives to the application. It is the last move of a poll if there is
one. -/
def Move.gives : Move X → List Channel
  | .event e => given (.ready e)
  | _ => []

/-- A move from a polled session leads to a polled session. The senders of the batches that were
taken so far are gone in both. -/
theorem polled_after (hm : p.channels.Wf) {move : Move X} (hmove : protocol_step p move p')
    (hle : p.outbound_rx.length ≤ s.protocol.outbound_rx.length) :
    p'.outbound_rx.length ≤ s.protocol.outbound_rx.length ∧
      (s.polled p []).after move p' = s.polled p' move.gives := by
  rcases protocol_step_outbound_rx hm hmove with ⟨batch, rfl, hq⟩ | ⟨hne, hq⟩
  · have hlen : p.outbound_rx.length = p'.outbound_rx.length + 1 := by
      rw [hq, List.length_cons]
    refine ⟨by omega, ?_⟩
    have hdrop : s.protocol.outbound_rx.length - p'.outbound_rx.length
        = s.protocol.outbound_rx.length - p.outbound_rx.length + 1 := by omega
    simp only [Session.after, Session.polled, Move.gives, hdrop, List.tail_drop]
  · refine ⟨by rwa [hq], ?_⟩
    cases move with
    | outbound batch => exact absurd rfl (hne batch)
    | event e =>
      cases e <;> simp [Session.after, Session.polled, Move.gives, given, hq]
    | _ => simp only [Session.after, Session.polled, Move.gives, hq]

/-- One more move of the poll, from a state in which it has not returned yet. What it gives away
is what the poll gives. -/
theorem PolledTo.step {move : Move X} (h : PolledTo C s p []) (hs : Inv s)
    (hmove : protocol_step p move p') (hC : C p move) : PolledTo C s p' move.gives := by
  have hm : p.channels.Wf := (h.inv hs).wf
  obtain ⟨hle, tr, run, htr⟩ := h
  obtain ⟨hle', hafter⟩ := polled_after hm hmove hle
  refine ⟨hle', _, hafter ▸ run.snoc (.protocol hmove), fun t ht => ?_⟩
  rcases List.mem_append.mp ht with ht | ht
  · exact htr t ht
  · rw [List.mem_singleton.mp ht]
    exact ⟨move, rfl, hC⟩

theorem reads_not_command (move : Move X) (h : move.reads) (c : Command) : move ≠ .command c := by
  rintro rfl
  exact h

theorem reads_gives (move : Move X) (h : move.reads) : move.gives = [] := by
  cases move with
  | event e => exact h.elim
  | _ => rfl

theorem writes_not_command (move : Move X) (h : move.writes) (c : Command) :
    move ≠ .command c := by
  rintro rfl
  exact h

theorem writes_gives (move : Move X) (h : move.writes) : move.gives = [] := by
  cases move with
  | event e => exact h.elim
  | _ => rfl

theorem command_gives (move : Move X) (h : move.is_command) : move.gives = [] := by
  cases move with
  | event e => exact h.elim
  | _ => rfl

/-- A poll by moves. Moves that are not commands are unrestricted; for the commands a
condition `G` has to hold, which moves do not destroy, and which holds once an
initiator knows the hash of its handshake. -/
theorem poll_next_polled (hcipher : LawfulCipher σ) (hs : Inv s)
    (hfree : ∀ p move, (∀ c, move ≠ .command c) → C p move)
    (hG : ∀ p p' move, p.channels.Wf → protocol_step p move p' → G p → G p')
    (hinit : ∀ p : Protocol X σ, p.is_initiator = true → p.io.handshake_hash.isSome → G p)
    (hcommand : ∀ p c, G p → C p (.command c))
    (hstart : s.protocol.is_initiator = true ∨ G s.protocol) (fuel : ℕ) :
    Triple (· = s.protocol) (Protocol.poll_next fuel)
      (fun result p => PolledTo C s p (given result)) (fun p => PolledTo C s p []) := by
  -- before the handshake an initiator may be without `G`
  have hwaiting : ∀ {K : Move X → Prop}, (∀ move, K move → ∀ c, move ≠ .command c) →
      (∀ move, K move → move.gives = []) →
      ClosedUnder K fun p => PolledTo C s p [] ∧ p.is_initiator = true := by
    rintro K hK hgives p p' move hmove hstep ⟨hp, hrole⟩
    exact ⟨hgives move hmove ▸ hp.step hs hstep (hfree p move (hK move hmove)),
      (protocol_step_handshake (hp.inv hs).wf hstep).1.trans hrole⟩
  have hopen : ∀ {K : Move X → Prop}, (∀ move, K move → move.gives = []) →
      ClosedUnder K fun p => PolledTo C s p [] ∧ G p := by
    intro K hgives p p' move hmove hstep ⟨hp, hg⟩
    refine ⟨hgives move hmove ▸ hp.step hs hstep ?_, hG p p' move (hp.inv hs).wf hstep hg⟩
    by_cases hc : ∃ c, move = .command c
    · obtain ⟨c, rfl⟩ := hc
      exact hcommand p c hg
    · exact hfree p move fun c h => hc ⟨c, h⟩
  have hevent : ∀ p e rest, PolledTo C s p [] ∧ G p → p.queued_events = e :: rest →
      PolledTo C s { p with queued_events := rest } (given (.ready e)) :=
    fun p e rest hp hq => hp.1.step hs (.event hq) (hfree p _ fun _ h => nomatch h)
  have hwrite := (hwaiting writes_not_command writes_gives).poll_outbound_write hcipher
  have hread := (hwaiting reads_not_command reads_gives).poll_inbound_read hcipher fuel
  refine (Protocol.triple_poll_next
    (I := fun p => PolledTo C s p [] ∧ (p.is_initiator = true ∨ G p))
    (J := fun p => PolledTo C s p [] ∧ G p) (L := fun p => PolledTo C s p [] ∧ G p)
    (R := fun p => PolledTo C s p [] ∧ G p) (K := fun p => PolledTo C s p [] ∧ G p)
    (M := fun p => PolledTo C s p [] ∧ G p) ?_ ?_ (fun _ hp _ => hp) hevent ?_ ?_ ?_ hevent
    fun _ hp _ => hp.1).conseq (fun p hp => hp ▸ ⟨polledTo_refl s, hstart⟩) (fun _ _ h => h)
    fun _ h => h
  · refine Protocol.triple_poll_handshake
      (N := fun p => PolledTo C s p [] ∧ p.is_initiator = true) (fun p hp hhash => ⟨hp.1, ?_⟩)
      (hwrite.conseq (fun _ hp => ⟨hp.1.1, hp.2⟩) (fun _ _ h => h.1) fun _ h => h.1)
      (hread.conseq (fun _ hp => hp) (fun _ _ h => h) fun _ h => h.1) (fun p hp _ => hp.1)
      fun p hp hhash => ⟨hp.1, hinit p hp.2 hhash⟩
    rcases hp.2 with hi | hg
    · exact hinit p hi (hhash hi)
    · exact hg
  · exact fun p key hp hemitted hkey => hp.1.step hs (.handshake hemitted hkey)
      (hfree p _ fun _ h => nomatch h)
  · exact ((hopen reads_gives).poll_inbound_read hcipher fuel).conseq (fun _ hp => hp.1)
      (fun _ _ h => h) fun _ h => h.1
  · exact (hopen command_gives).poll_commands.conseq (fun _ hp => hp) (fun _ _ h => h.1)
      fun _ h => h.1
  · exact ((hopen writes_gives).poll_outbound_write hcipher).conseq (fun _ hp => hp)
      (fun _ _ h => h.1) fun _ h => h.1

/-! ## Runs of polls are runs of moves -/

/-- The connection alone changes, as a move. Frames that arrive between two polls are this
move. -/
theorem net_step {stream : σ} (hs : KeepsHandshake s.protocol.io.stream stream) :
    Step s (.protocol .io) { s with
      protocol := { s.protocol with io := { s.protocol.io with stream := stream } } } :=
  .protocol (.io hs (List.suffix_refl _))

/-- Every run of polls is a run of moves between the same sessions. `W` is what a poll has
to find for its moves to satisfy `C`. -/
theorem poll_run_moves_of {stream : σ} {W : Session X σ → Prop}
    {tr : List (Transition (Session X σ) (PollAction X))} (hnet : ∀ p, C p .io)
    (hpoll : ∀ s : Session X σ, Inv s → W s → ∀ fuel,
      Triple (· = s.protocol) (Protocol.poll_next fuel)
        (fun result p => PolledTo C s p (given result)) (fun p => PolledTo C s p []))
    (run : Run PollStep (Session.new stream) tr s)
    (hstart : ∀ t ∈ tr, ∀ result, t.act = .poll result → W t.pre) :
    ∃ tr', Run Step (Session.new stream) tr' s ∧
      ∀ t ∈ tr', ∀ move, t.act = .protocol move → C t.pre.protocol move := by
  induction run with
  | nil => exact ⟨[], .nil, fun _ ht => absurd ht List.not_mem_nil⟩
  | @snoc _ s₀ _ _ run h ih =>
    obtain ⟨tr', run', htr⟩ := ih fun t ht => hstart t (List.mem_append_left _ ht)
    have hlast := hstart _ (List.mem_append_right _ (List.mem_singleton.mpr rfl))
    -- the moves of a poll are put behind the run so far
    have hpolled : ∀ {p channels}, PolledTo C s₀ p channels →
        ∃ tr'', Run Step (Session.new stream) tr'' (s₀.polled p channels) ∧
          ∀ t ∈ tr'', ∀ move, t.act = .protocol move → C t.pre.protocol move := by
      rintro p channels ⟨-, tr₁, run₁, htr₁⟩
      refine ⟨tr' ++ tr₁, run'.append run₁, fun t ht move hact => ?_⟩
      rcases List.mem_append.mp ht with ht | ht
      · exact htr t ht move hact
      · obtain ⟨move', hact', hC⟩ := htr₁ t ht
        rwa [Action.protocol.inj (hact.symm.trans hact')]
    have hinv := reachable_inv run'
    -- any other step is a step of the session already
    have hsnoc : ∀ {a s''}, Step s₀ a s'' → (∀ move, a = .protocol move → C s₀.protocol move) →
        ∃ tr'', Run Step (Session.new stream) tr'' s'' ∧
          ∀ t ∈ tr'', ∀ move, t.act = .protocol move → C t.pre.protocol move := by
      intro a s'' hstep hC
      refine ⟨_, run'.snoc hstep, fun t ht move hact => ?_⟩
      rcases List.mem_append.mp ht with ht | ht
      · exact htr t ht move hact
      · rw [List.mem_singleton.mp ht] at hact ⊢
        exact hC move hact
    cases h with
    | app h hno => exact hsnoc h fun move hact => absurd hact (hno move)
    | net hs =>
      refine hsnoc (net_step hs) fun move hact => ?_
      rw [← Action.protocol.inj hact]
      exact hnet _
    | poll h => exact hpolled ((hpoll s₀ hinv (hlast _ rfl) _ _ rfl).1 _ _ h)
    | failed h => exact hpolled ((hpoll s₀ hinv (hlast _ rfl) _ _ rfl).2 _ _ h)

/-- If `G` holds when a poll starts, or the protocol is an initiator, then the commands of
its polls satisfy `C`. -/
theorem poll_run_moves (hcipher : LawfulCipher σ) {stream : σ}
    {tr : List (Transition (Session X σ) (PollAction X))}
    (hfree : ∀ p move, (∀ c, move ≠ .command c) → C p move)
    (hG : ∀ p p' move, p.channels.Wf → protocol_step p move p' → G p → G p')
    (hinit : ∀ p : Protocol X σ, p.is_initiator = true → p.io.handshake_hash.isSome → G p)
    (hcommand : ∀ p c, G p → C p (.command c))
    (run : Run PollStep (Session.new stream) tr s)
    (hstart : ∀ t ∈ tr, ∀ result, t.act = .poll result →
      t.pre.protocol.is_initiator = true ∨ G t.pre.protocol) :
    ∃ tr', Run Step (Session.new stream) tr' s ∧
      ∀ t ∈ tr', ∀ move, t.act = .protocol move → C t.pre.protocol move :=
  poll_run_moves_of (W := fun s => s.protocol.is_initiator = true ∨ G s.protocol)
    (fun p => hfree p _ fun _ h => nomatch h)
    (fun _ hs hw => poll_next_polled hcipher hs hfree hG hinit hcommand hw) run hstart

/-- A session that is reached by polls is reached by moves. So what holds in all sessions that
moves reach holds for applications. -/
theorem poll_reachable (hcipher : LawfulCipher σ) {stream : σ}
    {tr : List (Transition (Session X σ) (PollAction X))}
    (run : Run PollStep (Session.new stream) tr s) :
    ∃ tr', Run Step (Session.new stream) tr' s := by
  obtain ⟨tr', run', -⟩ := poll_run_moves hcipher (C := fun _ _ => True) (G := fun _ => True)
    (fun _ _ _ => trivial) (fun _ _ _ _ _ _ => trivial) (fun _ _ _ => trivial)
    (fun _ _ _ => trivial) run fun _ _ _ _ => Or.inr trivial
  exact ⟨tr', run'⟩

/-- What a poll leaves of the role and of the handshake: both are kept, whether it returns or
fails. -/
theorem poll_handshake_kept (hcipher : LawfulCipher σ) (hs : Inv s) {fuel : ℕ}
    (h : Leaves (Protocol.poll_next fuel) s.protocol p) :
    p.is_initiator = s.protocol.is_initiator ∧ KeepsHandshake s.protocol.io.stream p.io.stream := by
  obtain ⟨tr, s', run, rfl, -⟩ := poll_next_moves hcipher h
  have hboth := run.invariant (I := fun _ s' => Inv s' ∧
    s'.protocol.is_initiator = s.protocol.is_initiator ∧
    KeepsHandshake s.protocol.io.stream s'.protocol.io.stream) ⟨hs, rfl, .refl _⟩ ?_
  · exact hboth.2
  · intro _ s₁ a s₂ _ ⟨hs₁, hinit, hkeeps⟩ hstep
    obtain ⟨hinit', hkeeps'⟩ := hstep.handshake hs₁
    exact ⟨hstep.inv hs₁, hinit'.trans hinit, hkeeps.trans hkeeps'⟩

end hypercore_protocol.session
