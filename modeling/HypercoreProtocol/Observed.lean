/-
What an application sees of a session.

An application makes calls between its polls, and from its polls it gets events. That a
run of polls is a run of moves between the same sessions (`poll_run_moves_of`) says
nothing about what was seen on the way. `poll_run_shows` does: the moves can be chosen
such that the calls of the application and the events it gets are the same, in the same
order. So what a run of moves says about events and calls, it says about polls.

With it goes what is known of the messages that a poll handles. They come out of the
decoder (`A`), and they are handled in a state in which the connection had a message to
give (`G`).
-/
import HypercoreProtocol.Calls
import HypercoreProtocol.Announcements

set_option autoImplicit false

namespace hypercore_protocol.session

open Rust Method Wire Runs schema message channels mqueue protocol compact_encoding

variable {X : Deps} {σ : Type} [CipherTrait σ] {s s' : Session X σ} {p p' : Protocol X σ}

/-! ## What is seen -/

/-- What an application sees: its own calls, and the events it gets. That a poll was made and
returned nothing is not seen. -/
inductive Sight (X : Deps) where
  | app (a : Action X)
  | event (e : Event)

def Action.sight : Action X → List (Sight X)
  | .protocol (.event e) => [.event e]
  | .protocol (.handshake key) => [.event (.Handshake key)]
  | .protocol _ => []
  | a => [.app a]

def PollAction.sight : PollAction X → List (Sight X)
  | .app a => [.app a]
  | .poll (.ok (.ready e)) => [.event e]
  | _ => []

/-- The event that is seen. -/
def Sight.got : Sight X → Option Event
  | .event e => some e
  | .app _ => none

theorem Action.sight_app {a : Action X} (h : ∀ move, a ≠ .protocol move) : a.sight = [.app a] := by
  cases a with
  | protocol move => exact absurd rfl (h move)
  | _ => rfl

/-! ## The moves of a poll -/

section Makes

variable {A B : List (Happening X σ) → Protocol X σ → Prop} {channels : List Channel}
  {seen : List (Sight X)}

/-- The session is polled to `p` by moves that show `seen`, and `A` holds of them. What a poll
does is followed through its loops in this form: `A` says what the moves so far have in common
with what happened besides them. -/
def Makes (A : List (Happening X σ) → Protocol X σ → Prop) (s : Session X σ) (p : Protocol X σ)
    (channels : List Channel) (seen : List (Sight X)) : Prop :=
  p.outbound_rx.length ≤ s.protocol.outbound_rx.length ∧
  ∃ tr, Run Step s tr (s.polled p channels) ∧ (tr.flatMap fun t => t.act.sight) = seen ∧ A tr p

theorem makes_refl (s : Session X σ) (h : A [] s.protocol) : Makes A s s.protocol [] [] :=
  ⟨Nat.le_refl _, [], s.polled_self.symm ▸ .nil, rfl, h⟩

theorem Makes.inv (h : Makes A s p channels seen) (hs : Inv s) : Inv (s.polled p channels) := by
  obtain ⟨-, tr, run, -⟩ := h
  exact inv_run hs run

theorem Makes.mono (h : Makes A s p channels seen) (hAB : ∀ tr, A tr p → B tr p) :
    Makes B s p channels seen := by
  obtain ⟨hle, tr, run, hseen, h⟩ := h
  exact ⟨hle, tr, run, hseen, hAB tr h⟩

/-- One more move, from a state in which no event was returned yet. A poll returns at most one
event, and makes no move after it. -/
theorem Makes.step {move : Move X} (h : Makes A s p [] []) (hs : Inv s)
    (hmove : protocol_step p move p')
    (hB : ∀ tr (t : Happening X σ), t.pre.protocol = p → t.act = .protocol move →
      t.post.protocol = p' → A tr p → B (tr ++ [t]) p') :
    Makes B s p' move.gives (Action.protocol move).sight := by
  have hm : p.channels.Wf := (h.inv hs).wf
  obtain ⟨hle, tr, run, hseen, h⟩ := h
  obtain ⟨hle', hafter⟩ := polled_after hm hmove hle
  refine ⟨hle', _, hafter ▸ run.snoc (.protocol hmove), ?_, hB tr _ rfl rfl ?_ h⟩
  · rw [List.flatMap_append, hseen, List.flatMap_singleton, List.nil_append]
  · rw [← hafter]
    exact Session.protocol_after _ move p'

end Makes

/-! ## The messages of a poll -/

/-- What holds of the messages that are decoded, and of the protocol when the connection
has just given one. -/
structure Reads (A : ChannelMessage X → Prop) (G : Protocol X σ → Prop) : Prop where
  decoded : ∀ bs messages rest, vec_decode X bs = .ok (messages, rest) → ∀ msg ∈ messages, A msg
  message : ∀ (p : Protocol X σ) bs,
    (CipherTrait.poll_next p.io.stream).1 = .ready (some (.Message bs)) →
    G { p with io := { p.io with stream := (CipherTrait.poll_next p.io.stream).2 } }
  kept : ∀ (p p' : Protocol X σ) msg, p.channels.Wf → protocol_step p (.inbound msg) p' → G p → G p'

/-- A message that is handled is such a message, at such a moment. Of moves that handle none,
nothing is asked. -/
def Move.Reading (A : ChannelMessage X → Prop) (G : Protocol X σ → Prop) (p : Protocol X σ)
    (move : Move X) : Prop :=
  ∀ msg, move = .inbound msg → A msg ∧ G p

variable {A : ChannelMessage X → Prop} {G : Protocol X σ → Prop}

/-- The session is polled to `p` by moves that show `seen`, and that handle only such messages
at such moments. -/
def Shows (A : ChannelMessage X → Prop) (G : Protocol X σ → Prop) (s : Session X σ)
    (p : Protocol X σ) (channels : List Channel) (seen : List (Sight X)) : Prop :=
  Makes (fun tr _ => ∀ t ∈ tr, ∃ move, t.act = .protocol move ∧ move.Reading A G t.pre.protocol)
    s p channels seen

theorem Shows.step {move : Move X} (h : Shows A G s p [] []) (hs : Inv s)
    (hmove : protocol_step p move p') (hreading : move.Reading A G p) :
    Shows A G s p' move.gives (Action.protocol move).sight := by
  refine Makes.step h hs hmove fun tr t hpre hact _ htr u hu => ?_
  rcases List.mem_append.mp hu with hu | hu
  · exact htr u hu
  · rw [List.mem_singleton.mp hu]
    exact ⟨move, hact, hpre ▸ hreading⟩

/-- Moves that give nothing and show nothing. The loops that write and that handle commands
consist of these. -/
theorem shows_closed (hs : Inv s) {K : Move X → Prop}
    (hK : ∀ move, K move → move.gives = [] ∧ (Action.protocol move).sight = [] ∧
      ∀ msg, move ≠ .inbound msg) :
    ClosedUnder K fun p => Shows A G s p [] [] := by
  intro p p' move hmove hstep hp
  obtain ⟨hgives, hsight, hno⟩ := hK move hmove
  have h := hp.step hs hstep fun msg hmsg => absurd hmsg (hno msg)
  rwa [hgives, hsight] at h

/-- The messages of a frame are handled one after the other, and the moment stays what it was for
all of them. -/
theorem shows_poll_inbound_read (hcipher : LawfulCipher σ) (hreads : Reads A G) (hs : Inv s)
    (fuel : ℕ) : Keeps (fun p => Shows A G s p [] [])
      (Protocol.poll_inbound_read fuel : ProtocolMethod X σ Unit) := by
  have hio : ∀ {p : Protocol X σ} {stream : σ}, Shows A G s p [] [] →
      KeepsHandshake p.io.stream stream →
      Shows A G s { p with io := { p.io with stream := stream } } [] [] := by
    intro p stream hp hkeeps
    have hstep : protocol_step p .io { p with io := { p.io with stream := stream } } :=
      .io hkeeps (List.suffix_refl _)
    exact hp.step hs hstep fun _ h => nomatch h
  refine Protocol.keeps_poll_inbound_read
    (D := fun messages p => Shows A G s p [] [] ∧ G p ∧ ∀ msg ∈ messages, A msg)
    (fun p => ⟨?_, ?_⟩)
    (Protocol.triple_on_inbound_channel_messages (fun msg messages => ?_) fun _ hp => hp.1) fuel
  · intro io hp _
    exact hio (p := { p with io := io }) hp (hcipher.poll_next io.stream)
  · intro io bs hp hbs
    have hp' := hio (p := { p with io := io }) hp (hcipher.poll_next io.stream)
    exact ⟨fun messages rest hdec => ⟨hp', hreads.message { p with io := io } bs hbs,
      hreads.decoded bs messages rest hdec⟩, fun _ _ => hp'⟩
  · refine (keeps_of_leaves (P := fun p => Shows A G s p [] [] ∧ G p ∧ ∀ m ∈ msg :: messages, A m)
      (E := fun p => Shows A G s p [] [] ∧ G p ∧ ∀ m ∈ messages, A m)
      fun p p' hp hl => ?_).conseq (fun _ hp => hp) (fun _ _ h => h) fun _ h => h.1
    obtain ⟨hshows, hG, hA⟩ := hp
    have hstep : protocol_step p (.inbound msg) p' := .inbound hl
    refine ⟨hshows.step hs hstep ?_, hreads.kept p p' msg (hshows.inv hs).wf hstep hG,
      fun m hm => hA m (List.mem_cons_of_mem msg hm)⟩
    intro m hm
    rw [← Move.inbound.inj hm]
    exact ⟨hA msg List.mem_cons_self, hG⟩

/-- A poll shows the event that it returns, and nothing if it returns none or fails. -/
theorem poll_next_shows (hcipher : LawfulCipher σ) (hreads : Reads A G) (hs : Inv s) (fuel : ℕ) :
    Triple (· = s.protocol) (Protocol.poll_next fuel)
      (fun result p => Shows A G s p (given result) (PollAction.poll (X := X) (.ok result)).sight)
      (fun p => Shows A G s p [] []) := by
  have hread := shows_poll_inbound_read hcipher hreads hs fuel
  have hwrite := ((shows_closed (A := A) (G := G) hs (K := Move.writes) fun move hmove => by
    cases move with
    | io => exact ⟨rfl, rfl, fun _ h => nomatch h⟩
    | outbound batch => exact ⟨rfl, rfl, fun _ h => nomatch h⟩
    | _ => exact hmove.elim).poll_outbound_write hcipher).conseq (fun _ hp => hp)
    (fun _ _ h => h.1) fun _ h => h
  have hcommands := (shows_closed (A := A) (G := G) hs (K := Move.is_command) fun move hmove => by
    cases move with
    | command c => exact ⟨rfl, rfl, fun _ h => nomatch h⟩
    | _ => exact hmove.elim).poll_commands.conseq (fun _ hp => hp) (fun _ _ h => h.1) fun _ h => h
  have hevent : ∀ p e rest, Shows A G s p [] [] → p.queued_events = e :: rest →
      Shows A G s { p with queued_events := rest } (given (.ready e)) [.event e] :=
    fun p e rest hp hq => hp.step hs (.event hq) fun _ h => nomatch h
  have hwait := (Protocol.keeps_handshake_wait hwrite hread).conseq (fun _ hp => hp)
    (fun wait p hp => show if wait = true then Shows A G s p (given .pending) []
      else Shows A G s p [] [] from (ite_self _).symm ▸ hp) fun _ h => h
  refine (Protocol.triple_poll_next hwait ?_ (fun _ hp _ => hp) hevent
    (hread.conseq (fun _ hp => hp.1) (fun _ _ h => h) fun _ h => h) hcommands hwrite hevent
    fun _ hp _ => hp).conseq
      (fun p hp => hp ▸ makes_refl s fun _ ht => absurd ht List.not_mem_nil) (fun _ _ h => h)
      fun _ h => h
  exact fun p key hp hemitted hkey => hp.step hs (.handshake hemitted hkey) fun _ h => nomatch h

/-- Every run of polls is a run of moves that shows the same. This is how results about moves
become results about polls. -/
theorem poll_run_shows (hcipher : LawfulCipher σ) (hreads : Reads A G) {stream : σ}
    {polls : List (Transition (Session X σ) (PollAction X))}
    (run : Run PollStep (Session.new stream) polls s) :
    ∃ tr, Run Step (Session.new stream) tr s ∧
      (tr.flatMap fun t => t.act.sight) = (polls.flatMap fun t => t.act.sight) ∧
      ∀ t ∈ tr, ∀ move, t.act = .protocol move → move.Reading A G t.pre.protocol := by
  refine run.refines fun s a s' hreach h => ?_
  have hs : Inv s := by
    obtain ⟨tr, run⟩ := hreach
    exact reachable_inv run
  have hpolled : ∀ {p channels seen}, Shows A G s p channels seen →
      ∃ tr, Run Step s tr (s.polled p channels) ∧ (tr.flatMap fun t => t.act.sight) = seen ∧
        ∀ t ∈ tr, ∀ move, t.act = .protocol move → move.Reading A G t.pre.protocol := by
    rintro p channels seen ⟨-, tr, run, hseen, htr⟩
    refine ⟨tr, run, hseen, fun t ht move hact => ?_⟩
    obtain ⟨move', hact', hreading⟩ := htr t ht
    rwa [Action.protocol.inj (hact.symm.trans hact')]
  cases h with
  | app h hno =>
    refine ⟨_, Run.nil.snoc h, ?_, fun t ht move hact => ?_⟩
    · exact (List.flatMap_singleton _ _).trans (Action.sight_app hno)
    · rw [List.nil_append, List.mem_singleton] at ht
      rw [ht] at hact
      exact absurd hact (hno move)
  | net hkeeps =>
    refine ⟨_, Run.nil.snoc (net_step hkeeps), rfl, fun t ht move hact => ?_⟩
    rw [List.nil_append, List.mem_singleton] at ht
    rw [ht] at hact
    rw [← Action.protocol.inj hact]
    exact fun _ h => nomatch h
  | poll h => exact hpolled ((poll_next_shows hcipher hreads hs _ _ rfl).1 _ _ h)
  | failed h => exact hpolled ((poll_next_shows hcipher hreads hs _ _ rfl).2 _ _ h)

/-- The message was decoded from some frame. For a poll this is true of every message that it
handles. -/
def Decoded (msg : ChannelMessage X) : Prop :=
  ∃ bs messages rest, vec_decode X bs = .ok (messages, rest) ∧ msg ∈ messages

theorem reads_decoded : Reads (Decoded (X := X)) fun _ : Protocol X σ => True where
  decoded bs messages rest h _ hmsg := ⟨bs, messages, rest, h, hmsg⟩
  message _ _ _ := trivial
  kept _ _ _ _ _ _ := trivial

/-- Whole polls refine the moves of a session. For every run in which an application polls,
makes its calls and the connection goes on, there is a run of single moves to the same
session in which the application makes the same calls and gets the same events, all in the
same order, and in which every message that is handled came out of the decoder. -/
theorem polls_look_like_moves (hcipher : LawfulCipher σ) {stream : σ}
    {polls : List (Transition (Session X σ) (PollAction X))}
    (run : Run PollStep (Session.new stream) polls s) :
    ∃ tr, Run Step (Session.new stream) tr s ∧
      (tr.flatMap fun t => t.act.sight) = (polls.flatMap fun t => t.act.sight) ∧
      ∀ t ∈ tr, ∀ msg, t.act = .protocol (.inbound msg) → Decoded msg := by
  obtain ⟨tr, run', hseen, htr⟩ := poll_run_shows hcipher reads_decoded run
  exact ⟨tr, run', hseen, fun t ht msg hact => (htr t ht _ hact msg rfl).1⟩

/-- The application opens a key and polls three times; the remote's `Open` arrives before the
last poll. It gets the handshake, nothing, and the channel. -/
theorem polls_look_like_moves_opened : ∃ polls s tr,
    Run PollStep (Session.new (Memory.connected false) : Session deps Memory) polls s ∧
    Run Step (Session.new (Memory.connected false)) tr s ∧ polls.length = 5 ∧
    (tr.flatMap fun t => t.act.sight).filterMap Sight.got =
      [.Handshake (sample 1), .Channel first_channel] := by
  have hcomputed : ((calls (X := deps) (Session.new (Memory.connected false))
      [.command (.Open (sample 1)), .poll 2, .poll 2, .hear (frame_of [remote_open 1 (sample 1)]),
        .poll 2]).any fun r => r.1.length == 5 &&
      (r.1.flatMap fun t => t.act.sight).filterMap Sight.got ==
        [.Handshake (sample 1), .Channel first_channel]) = true := by
    decide +kernel
  obtain ⟨⟨polls, s⟩, hcalls, hfinal⟩ := (Option.any_eq_true _ _).mp hcomputed
  rw [Bool.and_eq_true, beq_iff_eq, beq_iff_eq] at hfinal
  obtain ⟨tr, run, hseen, -⟩ := polls_look_like_moves memory_lawful (calls_run hcalls)
  exact ⟨polls, s, tr, calls_run hcalls, run, hfinal.1, hseen ▸ hfinal.2⟩

end hypercore_protocol.session
