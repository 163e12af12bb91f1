/-
The first event.

`Event::Handshake` is documented as the first event. `poll_next` looks for it at its
start, before it reads anything. An initiator comes to that point only with the
handshake complete. A responder passes it without one and goes on to read, to handle
commands and to write, so whatever these queue is returned before the handshake: a
local signal or a close that was asked for early, or the first messages of a remote
when they arrive together with the end of the handshake.

That the event is returned at most once holds for every run.
-/
import HypercoreProtocol.Polled

set_option autoImplicit false

namespace hypercore_protocol.session

open Rust Method Wire Runs schema message channels mqueue protocol compact_encoding

variable {X : Deps} {σ : Type} [CipherTrait σ] {p p' : Protocol X σ} {s s' : Session X σ}

/-- The transitions of a session that is polled. -/
abbrev Polling (X : Deps) (σ : Type) := Transition (Session X σ) (PollAction X)

/-! ## The property -/

def is_handshake : Event → Bool
  | .Handshake _ => true
  | _ => false

/-- The event `poll_next` returned, if it returned one. -/
def PollAction.event : PollAction X → Option Event
  | .poll (.ok (.ready e)) => some e
  | _ => none

/-- The events that were returned, in order, over all polls of a run. -/
def returned (tr : List (Polling X σ)) : List Event := tr.filterMap fun t => t.act.event

/-- However often it is asked now, the connection has no message. Parts of a handshake it may
have. -/
def Mute (stream : σ) : Prop :=
  ∀ n bs, (CipherTrait.poll_next ((fun stream => (CipherTrait.poll_next stream).2)^[n] stream)).1
    ≠ .ready (some (.Message bs))

/-- A poll of a responder that starts before the handshake finds no commands but to open
keys, and no message to read. -/
def PollsQuietly (t : Polling X σ) : Prop :=
  ∀ result, t.act = .poll result →
    t.pre.protocol.is_initiator = true ∨ t.pre.protocol.io.remote_public_key.isSome ∨
      ((∀ c ∈ t.pre.protocol.command_rx, ∃ key, c = .Open key) ∧ Mute t.pre.protocol.io.stream)

omit [CipherTrait σ] in
theorem returned_snoc (tr : List (Polling X σ)) (t : Polling X σ) :
    returned (tr ++ [t]) = returned tr ++ t.act.event.toList := by
  rw [returned, List.filterMap_append, returned]
  cases h : t.act.event <;> simp [h]

theorem Mute.no_message {stream : σ} (h : Mute stream) (bs : Bytes) :
    (CipherTrait.poll_next stream).1 ≠ .ready (some (.Message bs)) := h 0 bs

theorem Mute.poll_next {stream : σ} (h : Mute stream) : Mute (CipherTrait.poll_next stream).2 :=
  fun n bs => h (n + 1) bs

/-! ## The queue has no handshake in it -/

/-- The map is well-formed, no handshake event waits, and it is known whether one was returned.
The handshake event is the one that is never queued. -/
structure Marked (emitted : Bool) (p : Protocol X σ) : Prop where
  wf : p.channels.Wf
  queued : ∀ e ∈ p.queued_events, is_handshake e = false
  emitted : p.handshake_emitted = emitted

omit [CipherTrait σ] in
theorem outbound_no_handshake {msg : ChannelMessage X} {keep : Bool}
    (h : Protocol.OutboundEffect p msg keep p')
    (hp : ∀ e ∈ p.queued_events, is_handshake e = false) :
    ∀ e ∈ p'.queued_events, is_handshake e = false := by
  cases h with
  | close_unknown => exact hp
  | closed => exact List.forall_mem_append.mpr ⟨hp, List.forall_mem_singleton.mpr rfl⟩
  | signalled => exact List.forall_mem_append.mpr ⟨hp, List.forall_mem_singleton.mpr rfl⟩
  | passed => exact hp

omit [CipherTrait σ] in
theorem batch_no_handshake {msgs kept : List (ChannelMessage X)}
    (h : Protocol.BatchEffect p msgs kept p')
    (hp : ∀ e ∈ p.queued_events, is_handshake e = false) :
    ∀ e ∈ p'.queued_events, is_handshake e = false := by
  induction h with
  | nil p => exact hp
  | cons head _ ih => exact ih (outbound_no_handshake head hp)

/-- Only the start of a poll returns the handshake event, and nothing queues one. So the mark is
kept by all other moves. -/
theorem marked_closed {K : Move X → Prop} (hK : ∀ key, ¬ K (.handshake key)) (emitted : Bool) :
    ClosedUnder K (Marked (X := X) (σ := σ) emitted) := by
  intro p p' move hmove h hp
  have hwf : p'.channels.Wf := (MapChanges.keep (I := fun _ => True) (fun _ _ _ => trivial)
    (protocol_step_changes hp.wf h) hp.wf trivial).1
  -- what commands and messages queue is never the handshake
  have hsnoc : ∀ e, is_handshake e = false →
      ∀ e' ∈ p.queued_events ++ [e], is_handshake e' = false :=
    fun e he => List.forall_mem_append.mpr ⟨hp.queued, List.forall_mem_singleton.mpr he⟩
  cases move with
  | command c =>
    obtain ⟨rest, result, -, heff⟩ := command_effect hp.wf h
    refine ⟨hwf, ?_, heff.frame.handshake_emitted.trans hp.emitted⟩
    cases heff with
    | accepted => exact hsnoc _ rfl
    | closed => exact hsnoc _ rfl
    | signalled => exact hsnoc _ rfl
    | _ => exact hp.queued
  | inbound msg =>
    obtain ⟨result, heff⟩ := inbound_effect hp.wf h
    refine ⟨hwf, ?_, heff.frame.handshake_emitted.trans hp.emitted⟩
    cases heff with
    | announced => exact hsnoc _ rfl
    | accepted => exact hsnoc _ rfl
    | closed => exact hsnoc _ rfl
    | _ => exact hp.queued
  | outbound batch =>
    obtain ⟨rest, kept, q, -, heff, rfl⟩ := outbound_effect hp.wf h
    have hqueued := batch_no_handshake heff hp.queued
    exact ⟨hwf, hqueued, heff.frame.handshake_emitted.trans hp.emitted⟩
  | io => cases h; exact ⟨hwf, hp.queued, hp.emitted⟩
  | handshake key => exact absurd hmove (hK key)
  | event e =>
    cases h with
    | event hq =>
      refine ⟨hwf, fun e' he' => hp.queued e' ?_, hp.emitted⟩
      rw [hq]
      exact List.mem_cons_of_mem _ he'

/-- What a poll returns: the handshake if none was returned so far, and then it is marked
as returned, or something else, and the mark stays. -/
def Reports (emitted : Bool) (result : Poll Event) (p : Protocol X σ) : Prop :=
  match result with
  | .ready (.Handshake _) => emitted = false ∧ Marked true p
  | _ => Marked emitted p

theorem reports_of_queued {emitted : Bool} {e : Event} {rest : List Event}
    (hp : Marked emitted p) (hq : p.queued_events = e :: rest) :
    Reports emitted (.ready e) { p with queued_events := rest } := by
  have hmarked : Marked emitted { p with queued_events := rest } :=
    marked_closed (K := fun move => ∀ key, move ≠ .handshake key) (fun key h => h key rfl) emitted
      _ _ (.event e) (fun _ h => nomatch h) (.event hq) hp
  have hno : is_handshake e = false := hp.queued e (by rw [hq]; exact List.mem_cons_self)
  cases e with
  | Handshake key => exact nomatch hno
  | _ => exact hmarked

theorem poll_reports (hcipher : LawfulCipher σ) (emitted : Bool) (fuel : ℕ) :
    Triple (Marked emitted) (Protocol.poll_next fuel : ProtocolMethod X σ (Poll Event))
      (Reports emitted) (Marked emitted) := by
  have hread := (marked_closed (X := X) (fun _ h => h) emitted).poll_inbound_read hcipher fuel
  have hwrite := ((marked_closed (X := X) (fun _ h => h) emitted).poll_outbound_write
    hcipher).conseq (fun _ hp => hp) (fun _ _ h => h.1) fun _ h => h
  have hcommands := (marked_closed (X := X) (σ := σ) (fun _ h => h) emitted).poll_commands.conseq
    (fun _ hp => hp) (fun _ _ h => h.1) fun _ h => h
  refine Protocol.triple_poll_next (J := Marked emitted) (L := Marked emitted)
    (R := Marked emitted) (K := Marked emitted) (M := Marked emitted) ?_ ?_ (fun _ hp _ => hp)
    (fun _ _ _ => reports_of_queued) ?_ hcommands hwrite (fun _ _ _ => reports_of_queued)
    fun _ hp _ => hp
  · refine (Protocol.keeps_handshake_wait hwrite hread).conseq (fun _ hp => hp)
      (fun wait p hp => ?_) fun _ h => h
    cases wait <;> exact hp
  · exact fun p key hp hemitted _ => ⟨hp.emitted.symm.trans hemitted, hp.wf, hp.queued, rfl⟩
  · exact hread.conseq (fun _ hp => hp.1) (fun _ _ h => h) fun _ h => h

/-! ## With the handshake in time -/

/-- Nothing but the handshake is returned, if anything is. -/
def ReturnsFirst (result : Poll Event) : Prop := ∀ e, result = .ready e → is_handshake e = true

/-- The handshake is complete, or it will be waited for: a poll of an initiator does nothing else
before it. -/
def InTime (p : Protocol X σ) : Prop :=
  p.is_initiator = true ∨ p.io.remote_public_key.isSome

theorem KeepsHandshake.remote_key {stream stream' : σ} (h : KeepsHandshake stream stream')
    (hsome : (CipherTrait.remote_public_key stream).isSome) :
    (CipherTrait.remote_public_key stream').isSome := by
  obtain ⟨key, hkey⟩ := Option.isSome_iff_exists.mp hsome
  exact Option.isSome_iff_exists.mpr ⟨key, h.2 key hkey⟩

theorem in_time_closed {K : Move X → Prop} (hK : ∀ key, ¬ K (.handshake key)) :
    ClosedUnder K fun p : Protocol X σ => Marked false p ∧ InTime p := by
  intro p p' move hmove h hp
  obtain ⟨hinit, hkeeps⟩ := protocol_step_handshake hp.1.wf h
  exact ⟨marked_closed hK false p p' move hmove h hp.1,
    hp.2.imp hinit.trans hkeeps.remote_key⟩

/-- Past the wait the remote's key is there, and the poll returns the handshake before it looks
at anything else. -/
theorem poll_in_time (hcipher : HandshakeCipher σ) (fuel : ℕ) :
    Triple (fun p : Protocol X σ => Marked false p ∧ InTime p) (Protocol.poll_next fuel)
      (fun result _ => ReturnsFirst result) (fun _ => True) := by
  have hread := (in_time_closed (X := X) fun _ h => h).poll_inbound_read
    hcipher.toLawfulCipher fuel
  have hwrite := (in_time_closed (X := X) fun _ h => h).poll_outbound_write
    hcipher.toLawfulCipher
  have hkey : ∀ p : Protocol X σ, p.io.handshake_hash.isSome → p.io.remote_public_key.isSome :=
    fun p hhash => (hcipher.together p.io.stream).symm.trans hhash
  -- the later parts of the poll are not reached, so their assertions can be `False`
  refine Protocol.triple_poll_next
    (J := fun p => Marked false p ∧ p.io.remote_public_key.isSome) (L := fun _ => False)
    (R := fun _ => False) (K := fun _ => False) (M := fun _ => False) ?_ ?_ ?_ ?_ ?_ ?_ ?_ ?_ ?_
  · refine Protocol.triple_poll_handshake (fun p hp hhash => ⟨hp.1, ?_⟩)
      (hwrite.conseq (fun _ hp => hp.1) (fun _ _ h => h.1) fun _ _ => trivial)
      (hread.conseq (fun _ hp => hp) (fun _ _ h => h) fun _ _ => trivial)
      (fun _ _ _ _ h => nomatch h) fun p hp hhash => ⟨hp.1, hkey p hhash⟩
    rcases hp.2 with hinit | hsome
    · exact hkey p (hhash hinit)
    · exact hsome
  · intro p key _ _ _ e he
    rw [← Poll.ready.inj he]
    rfl
  · -- without the remote's key the wait would not have ended
    intro p hp hnone
    have := hp.2
    rw [hnone hp.1.emitted] at this
    exact nomatch this
  · exact fun _ _ _ hp => hp.elim
  · exact fun _ hp => hp.1.elim
  · exact fun _ hp => hp.elim
  · exact fun _ hp => hp.elim
  · exact fun _ _ _ hp => hp.elim
  · exact fun _ hp => hp.elim

/-! ## Before the handshake -/

/-- No entry was opened by the remote, so that opening a key accepts nothing and announces
nothing. -/
def NoRemote (m : ChannelMap X) : Prop :=
  ∀ d h, m.channels d = some h → h.remote_state = none

/-- A responder that has nothing to return and nothing to write, and only keys to open. A poll
may do all it finds and still return nothing. -/
structure Idle (p : Protocol X σ) : Prop where
  wf : p.channels.Wf
  role : p.is_initiator = false
  queued_events : p.queued_events = []
  outbound_rx : p.outbound_rx = []
  command_rx : ∀ c ∈ p.command_rx, ∃ key, c = .Open key
  no_remote : NoRemote p.channels

theorem noRemote_new : NoRemote (ChannelMap.new : ChannelMap X) := fun _ _ hd => nomatch hd

omit [CipherTrait σ] in
theorem Idle.io (hp : Idle p) (io : MessageIo X σ) : Idle { p with io := io } :=
  ⟨hp.wf, hp.role, hp.queued_events, hp.outbound_rx, hp.command_rx, hp.no_remote⟩

/-- A key that the remote has not opened is only attached, and no event comes of it. -/
theorem idle_command : ClosedUnder Move.is_command (Idle (X := X) (σ := σ)) := by
  intro p p' move hmove h hp
  cases move with
  | command c =>
    have hchanges := protocol_step_changes hp.wf h
    obtain ⟨rest, result, hq, heff⟩ := command_effect hp.wf h
    obtain ⟨key, rfl⟩ := hp.command_rx c (by rw [hq]; exact List.mem_cons_self)
    -- a command attaches locally only, so the remote still has no part in any entry
    have hno : NoRemote p'.channels := by
      intro d e hd
      by_contra hsome
      obtain ⟨rs, hrs⟩ := Option.ne_none_iff_exists'.mp hsome
      refine hchanges.remote_state (A := fun _ => False) (d := d) (fun r cap hop => nomatch hop)
        hp.wf (fun e rs hd hrs => ?_) e rs hd hrs
      exact nomatch (hp.no_remote d e hd).symm.trans hrs
    have hwf : p'.channels.Wf := heff.wf hp.wf
    have hf := heff.frame
    refine ⟨hwf, hf.is_initiator.trans hp.role, ?_, hf.outbound_rx.trans hp.outbound_rx, ?_, hno⟩
    · cases heff with
      | opened => exact hp.queued_events
      | refused => exact hp.queued_events
      | accepted hmap hd hl hr =>
        have hnone := hno _ _ (ChannelMap.update_some_iff.mpr (Or.inl ⟨rfl, rfl⟩))
        exact nomatch hnone.symm.trans hr
    · intro c hc
      rw [hf.command_rx] at hc
      exact hp.command_rx c (by rw [hq]; exact List.mem_cons_of_mem _ hc)
  | _ => exact hmove.elim

theorem idle_writes : ClosedUnder Move.writes (Idle (X := X) (σ := σ)) := by
  intro p p' move hmove h hp
  cases move with
  | io => cases h; exact hp.io _
  | outbound batch =>
    cases h with
    | outbound hq => exact nomatch hp.outbound_rx.symm.trans hq
  | _ => exact hmove.elim

theorem idle_poll_inbound_read (fuel : ℕ) :
    Triple (fun p : Protocol X σ => Idle p ∧ Mute p.io.stream) (Protocol.poll_inbound_read fuel)
      (fun _ => Idle) Idle := by
  refine (Protocol.keeps_poll_inbound_read (I := fun p : Protocol X σ => Idle p ∧ Mute p.io.stream)
    (D := fun _ _ => False) (fun p => ⟨?_, ?_⟩) (fun _ _ h => h.elim) fuel).conseq (fun _ h => h)
    (fun _ _ h => h.1) fun _ h => h.1
  · exact fun io hio _ => ⟨hio.1.io _, hio.2.poll_next⟩
  · exact fun io bs hio hbs => absurd hbs (hio.2.no_message bs)

/-- An idle responder without a handshake stays idle, and nothing is returned. This is why
opening keys early does no harm. -/
theorem poll_idle (hcipher : LawfulCipher σ) (fuel : ℕ) :
    Triple (fun p : Protocol X σ => Idle p ∧ Mute p.io.stream ∧ p.io.remote_public_key = none)
      (Protocol.poll_next fuel) (fun result p => result = .pending ∧ Idle p) Idle := by
  refine Protocol.triple_poll_next
    (J := fun p => Idle p ∧ Mute p.io.stream ∧ p.io.remote_public_key = none)
    (L := fun p => Idle p ∧ Mute p.io.stream) (R := Idle) (K := Idle) (M := Idle)
    ?_ ?_ (fun p hp _ => ⟨hp.1, hp.2.1⟩) ?_ ?_ ?_ ?_ ?_ (fun p hp _ => ⟨rfl, hp⟩)
  · refine Protocol.triple_poll_handshake (N := fun _ => False) (fun p hp _ => hp) ?_
      (fun _ h => h.elim) (fun _ h => h.elim) fun _ h => h.elim
    exact fun p hp => nomatch hp.1.1.role.symm.trans hp.2
  · exact fun p key hp _ hkey => nomatch hp.2.2.symm.trans hkey
  · exact fun p e rest hp hq => nomatch hp.1.queued_events.symm.trans hq
  · exact (idle_poll_inbound_read fuel).conseq (fun _ hp => hp.1) (fun _ _ h => h) fun _ h => h
  · exact idle_command.poll_commands.conseq (fun _ hp => hp) (fun _ _ h => h.1) fun _ h => h
  · exact (idle_writes.poll_outbound_write hcipher).conseq (fun _ hp => hp) (fun _ _ h => h.1)
      fun _ h => h
  · exact fun p e rest hp hq => nomatch hp.queued_events.symm.trans hq

/-! ## Runs -/

variable {stream : σ} {tr : List (Polling X σ)}

/-- The handshake event is returned as often as it is marked as returned, which is once at
most. -/
theorem reachable_marked (hcipher : LawfulCipher σ) (run : Run PollStep (Session.new stream) tr s) :
    Marked s.protocol.handshake_emitted s.protocol ∧
      (returned tr).countP is_handshake = s.protocol.handshake_emitted.toNat := by
  refine run.invariant (I := fun tr s => Marked s.protocol.handshake_emitted s.protocol ∧
    (returned tr).countP is_handshake = s.protocol.handshake_emitted.toNat) ?_ ?_
  · exact ⟨⟨ChannelMap.wf_new, fun e he => absurd he List.not_mem_nil, rfl⟩, rfl⟩
  intro tr s a s' run ⟨hmarked, hcount⟩ h
  rw [returned_snoc, List.countP_append, hcount]
  cases h with
  -- the application has no access to the mark
  | app h hno =>
    rcases h.move_or_aside with ⟨move, rfl, -⟩ | ⟨-, haside⟩
    · exact absurd rfl (hno move)
    obtain ⟨tr', run'⟩ := poll_reachable hcipher run
    refine ⟨⟨(h.inv (reachable_inv run')).wf, ?_, rfl⟩, ?_⟩
    · rw [haside.queued_events]
      exact hmarked.queued
    · rw [haside.handshake_emitted]
      rfl
  | net => exact ⟨⟨hmarked.wf, hmarked.queued, rfl⟩, rfl⟩
  | poll h =>
    rename_i result p
    have hreports :=
      (poll_reports hcipher s.protocol.handshake_emitted _ s.protocol hmarked).1 _ _ h
    -- for every result but the handshake both sides of the count stay
    have hplain : Marked s.protocol.handshake_emitted p →
        ((PollAction.event (.poll (.ok result) : PollAction X)).toList).countP is_handshake = 0 →
        Marked p.handshake_emitted p ∧ s.protocol.handshake_emitted.toNat +
          ((PollAction.event (.poll (.ok result) : PollAction X)).toList).countP is_handshake
            = p.handshake_emitted.toNat := by
      intro hp hzero
      rw [hzero, hp.emitted]
      exact ⟨hp, rfl⟩
    match result, hreports with
    | .pending, hp => exact hplain hp rfl
    | .ready (.Handshake key), ⟨hfalse, hp⟩ =>
      show Marked p.handshake_emitted p ∧ _ = p.handshake_emitted.toNat
      rw [hfalse, hp.emitted]
      exact ⟨hp, rfl⟩
    | .ready (.DiscoveryKey d), hp => exact hplain hp rfl
    | .ready (.Channel c), hp => exact hplain hp rfl
    | .ready (.Close d), hp => exact hplain hp rfl
    | .ready (.LocalSignal name data), hp => exact hplain hp rfl
  | failed h =>
    have hp := (poll_reports hcipher s.protocol.handshake_emitted _ s.protocol hmarked).2 _ _ h
    rename_i p
    show Marked p.handshake_emitted p ∧ _ = p.handshake_emitted.toNat
    rw [hp.emitted]
    exact ⟨hp, rfl⟩

/-- Without a hash no channel was established, so nothing was sent, and no signal of a batch can
come first. -/
theorem outbound_of_no_hash {tr : List (Transition (Session X σ) (Action X))}
    (run : Run Step (Session.new stream) tr s) (hhash : s.protocol.io.handshake_hash = none) :
    s.protocol.outbound_rx = [] := by
  have hlen := (reachable_inv run).senders
  cases hsenders : s.senders with
  | nil =>
    rw [hsenders] at hlen
    exact List.length_eq_zero_iff.mp hlen.symm
  | cons c senders =>
    have hknows : s.Knows c :=
      Or.inr (Or.inr (Or.inr (Or.inr (by rw [hsenders]; exact List.mem_cons_self))))
    have hsome := reachable_hash run hknows
    rw [hhash] at hsome
    exact nomatch hsome

/-- The first event that was returned is the handshake, and until a responder has its
handshake there is nothing to return. -/
structure OnTime (tr : List (Polling X σ)) (s : Session X σ) : Prop where
  first : ∀ e rest, returned tr = e :: rest → is_handshake e = true
  quiet : s.protocol.is_initiator = false → s.protocol.io.remote_public_key = none →
    s.protocol.queued_events = [] ∧ NoRemote s.protocol.channels

/-- What a quiet poll of a responder starts from, if all polls before it were quiet. -/
theorem OnTime.idle (hcipher : HandshakeCipher σ) (run : Run PollStep (Session.new stream) tr s)
    (h : OnTime tr s) (hcommands : ∀ c ∈ s.protocol.command_rx, ∃ key, c = .Open key)
    (hrole : s.protocol.is_initiator = false) (hkey : s.protocol.io.remote_public_key = none) :
    Idle s.protocol := by
  obtain ⟨tr', run'⟩ := poll_reachable hcipher.toLawfulCipher run
  obtain ⟨hqueued, hremote⟩ := h.quiet hrole hkey
  have hhash : s.protocol.io.handshake_hash = none := by
    have htogether := hcipher.together s.protocol.io.stream
    rw [show CipherTrait.remote_public_key s.protocol.io.stream = none from hkey] at htogether
    exact Option.not_isSome_iff_eq_none.mp (by rw [MessageIo.handshake_hash, htogether]; decide)
  exact ⟨(reachable_inv run').wf, hrole, hqueued, outbound_of_no_hash run' hhash, hcommands,
    hremote⟩

/-- Past the handshake, or with one that is waited for, a poll that starts without it
returns nothing else; otherwise it returns nothing. -/
theorem OnTime.poll_first (hcipher : HandshakeCipher σ)
    (run : Run PollStep (Session.new stream) tr s) (h : OnTime tr s) {fuel : ℕ}
    {result : Poll Event} (hquiet : PollsQuietly (⟨s, .poll (.ok result), s'⟩ : Polling X σ))
    (hrun : (Protocol.poll_next fuel).run s.protocol = .ok result p)
    (hemitted : s.protocol.handshake_emitted = false) : ReturnsFirst result := by
  have hmarked := (reachable_marked hcipher.toLawfulCipher run).1
  rw [hemitted] at hmarked
  by_cases htime : InTime s.protocol
  · exact (poll_in_time hcipher fuel s.protocol ⟨hmarked, htime⟩).1 _ _ hrun
  · rw [InTime, not_or, Bool.not_eq_true, Option.not_isSome_iff_eq_none] at htime
    rcases hquiet _ rfl with hinit | hsome | ⟨hcommands, hmute⟩
    · exact nomatch htime.1.symm.trans hinit
    · rw [show s.protocol.io.remote_public_key = none from htime.2] at hsome
      exact nomatch hsome
    · have hidle := h.idle hcipher run hcommands htime.1 htime.2
      rw [((poll_idle hcipher.toLawfulCipher fuel _ ⟨hidle, hmute, htime.2⟩).1 _ _ hrun).1]
      exact fun _ h => nomatch h

/-- What a poll leaves of a responder without a handshake, when it finds only keys to open and
nothing to read. -/
theorem OnTime.poll_quiet (hcipher : HandshakeCipher σ)
    (run : Run PollStep (Session.new stream) tr s) (h : OnTime tr s) {fuel : ℕ}
    {result : Except IoError (Poll Event)}
    (hquiet : PollsQuietly (⟨s, .poll result, s'⟩ : Polling X σ))
    (hleaves : Leaves (Protocol.poll_next fuel) s.protocol p) (hrole : p.is_initiator = false)
    (hkey : p.io.remote_public_key = none) : p.queued_events = [] ∧ NoRemote p.channels := by
  obtain ⟨tr', run'⟩ := poll_reachable hcipher.toLawfulCipher run
  obtain ⟨hinit, hkeeps⟩ :=
    poll_handshake_kept hcipher.toLawfulCipher (reachable_inv run') hleaves
  -- the role and a missing key are those of the state before the poll
  have hrole₀ : s.protocol.is_initiator = false := hinit.symm.trans hrole
  have hkey₀ : s.protocol.io.remote_public_key = none := by
    rw [← Option.not_isSome_iff_eq_none]
    intro hsome
    have hsome' := hkeeps.remote_key hsome
    rw [show CipherTrait.remote_public_key p.io.stream = none from hkey] at hsome'
    exact nomatch hsome'
  rcases hquiet _ rfl with hi | hsome | ⟨hcommands, hmute⟩
  · exact nomatch hrole₀.symm.trans hi
  · rw [show s.protocol.io.remote_public_key = none from hkey₀] at hsome
    exact nomatch hsome
  · have hidle : Idle p := ((poll_idle hcipher.toLawfulCipher fuel).conseq (fun _ h => h)
      (fun _ _ h => h.2) fun _ h => h).leaves
        ⟨h.idle hcipher run hcommands hrole₀ hkey₀, hmute, hkey₀⟩ hleaves
    exact ⟨hidle.queued_events, hidle.no_remote⟩

/-- Every quiet step keeps it, and with the handshake the first event is decided. -/
theorem OnTime.snoc (hcipher : HandshakeCipher σ) (run : Run PollStep (Session.new stream) tr s)
    (h : OnTime tr s) {a : PollAction X} (hstep : PollStep s a s')
    (hquiet : PollsQuietly (⟨s, a, s'⟩ : Polling X σ)) : OnTime (tr ++ [⟨s, a, s'⟩]) s' := by
  have hsame : a.event = none →
      ∀ e rest, returned (tr ++ [⟨s, a, s'⟩]) = e :: rest → is_handshake e = true := by
    intro hnone
    rw [returned_snoc, hnone, Option.toList_none, List.append_nil]
    exact h.first
  cases hstep with
  | app hstep hno =>
    refine ⟨hsame rfl, ?_⟩
    rcases hstep.move_or_aside with ⟨move, rfl, -⟩ | ⟨-, haside⟩
    · exact absurd rfl (hno move)
    intro hrole hkey
    rw [haside.is_initiator] at hrole
    rw [haside.io] at hkey
    rw [haside.queued_events, NoRemote, haside.entries]
    exact h.quiet hrole hkey
  | net hs =>
    refine ⟨hsame rfl, fun hrole hkey => h.quiet hrole ?_⟩
    rw [← Option.not_isSome_iff_eq_none]
    intro hsome
    have hsome' := hs.remote_key hsome
    rw [show CipherTrait.remote_public_key _ = none from hkey] at hsome'
    exact nomatch hsome'
  | poll hrun =>
    rename_i fuel result p
    refine ⟨?_, h.poll_quiet hcipher run hquiet (Or.inl ⟨_, hrun⟩)⟩
    cases result with
    | pending => exact hsame rfl
    | ready e =>
      intro e' rest heq
      rw [returned_snoc] at heq
      cases hpast : returned tr with
      | cons e₀ past =>
        rw [hpast] at heq
        rw [← (List.cons.inj heq).1]
        exact h.first e₀ past hpast
      | nil =>
        -- nothing was returned before, so the handshake was not
        rw [hpast] at heq
        rw [← (List.cons.inj heq).1]
        have hcount := (reachable_marked hcipher.toLawfulCipher run).2
        rw [hpast] at hcount
        refine h.poll_first hcipher run hquiet hrun ?_ e rfl
        cases hemitted : s.protocol.handshake_emitted with
        | false => rfl
        | true => rw [hemitted] at hcount; exact nomatch hcount
  | failed hrun =>
    exact ⟨hsame rfl, h.poll_quiet hcipher run hquiet (Or.inr ⟨_, hrun⟩)⟩

/-! ## The theorem -/

/-- In every run of polls the handshake event is returned at most once. If the polls are
quiet, it is the first event, and no later one is it. -/
theorem handshake_first (hcipher : HandshakeCipher σ)
    (run : Run PollStep (Session.new stream) tr s) :
    (returned tr).countP is_handshake ≤ 1 ∧
    ((∀ t ∈ tr, PollsQuietly t) → ∀ e rest, returned tr = e :: rest →
      is_handshake e = true ∧ ∀ e' ∈ rest, is_handshake e' = false) := by
  have hcount : (returned tr).countP is_handshake ≤ 1 := by
    rw [(reachable_marked hcipher.toLawfulCipher run).2]
    exact Bool.toNat_le _
  refine ⟨hcount, fun hquiet e rest heq => ?_⟩
  have hontime : OnTime tr s := run.invariant_if
    ⟨(fun _ _ h => nomatch h), fun _ _ => ⟨rfl, noRemote_new⟩⟩
    (fun _ _ _ _ run h hstep hq => h.snoc hcipher run hstep hq) hquiet
  have hfirst := hontime.first e rest heq
  refine ⟨hfirst, fun e' he' => ?_⟩
  rw [heq, List.countP_cons_of_pos hfirst] at hcount
  have hzero : rest.countP is_handshake = 0 := by omega
  rw [← Bool.not_eq_true]
  exact List.countP_eq_zero.mp hzero e' he'

/-- A responder that is polled before its handshake. -/
theorem handshake_first_responder :
    ∃ tr s, Run PollStep (Session.new ⟨false, none, [], [], []⟩ : Session deps Memory) tr s ∧
      returned tr = [.Handshake (sample 1)] ∧ (∀ t ∈ tr, PollsQuietly t) ∧
      is_handshake (.Handshake (sample 1)) = true := by
  have run₀ : Run PollStep (Session.new ⟨false, none, [], [], []⟩ : Session deps Memory) [] _ :=
    .nil
  have run₁ := run₀.snoc (.poll (rfl : (Protocol.poll_next 1).run _ = _))
  have run₂ := run₁.snoc (.net (memory_completes _ rfl))
  have run₃ := run₂.snoc (.poll (rfl : (Protocol.poll_next 1).run _ = _))
  obtain ⟨tr, s, run, hreturned, hquiet⟩ :
      ∃ tr s, Run PollStep (Session.new ⟨false, none, [], [], []⟩ : Session deps Memory) tr s ∧
        returned tr = [.Handshake (sample 1)] ∧ ∀ t ∈ tr, PollsQuietly t := by
    refine ⟨_, _, run₃, rfl, ?_⟩
    simp only [List.nil_append, List.cons_append, List.forall_mem_cons]
    refine ⟨fun _ _ => Or.inr (Or.inr ⟨fun c hc => absurd hc List.not_mem_nil, fun n bs => ?_⟩),
      (fun _ h => nomatch h), fun _ _ => Or.inr (Or.inl rfl),
      fun _ ht => absurd ht List.not_mem_nil⟩
    rw [Function.iterate_fixed rfl n]
    exact fun h => nomatch h
  exact ⟨tr, s, run, hreturned, hquiet,
    ((handshake_first memory_handshake run).2 hquiet _ _ hreturned).1⟩

/-- A local signal that is asked for before the handshake of a responder. -/
theorem handshake_second :
    HandshakeCipher Memory ∧
    ∃ tr s, Run PollStep (Session.new ⟨false, none, [], [], []⟩ : Session deps Memory) tr s ∧
      returned tr = [.LocalSignal PROTOCOL_NAME .empty, .Handshake (sample 1)] := by
  have run₀ : Run PollStep (Session.new ⟨false, none, [], [], []⟩ : Session deps Memory) [] _ :=
    .nil
  have run₁ := run₀.snoc (.app (.queue_command (.SignalLocal PROTOCOL_NAME .empty) (by decide))
    (fun _ h => nomatch h))
  have run₂ := run₁.snoc (.poll (rfl : (Protocol.poll_next 1).run _ = _))
  have run₃ := run₂.snoc (.net (memory_completes _ rfl))
  have run₄ := run₃.snoc (.poll (rfl : (Protocol.poll_next 1).run _ = _))
  exact ⟨memory_handshake, _, _, run₄, rfl⟩

end hypercore_protocol.session
