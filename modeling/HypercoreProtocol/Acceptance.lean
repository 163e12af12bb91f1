/-
Accepting a channel.

`accept_channel` looks an entry up by a local id, expects the handshake to be over, and
opens the entry; on the way there are two unwraps of local ids, an `expect` that its
authors have marked as a guess, and three errors about entries that are not as they should
be. Whether any of these can be met depends on the whole history of the channel map: an
entry that the remote has opened must not exist before the handshake is over, and the
local id just attached must lead to the entry it was attached to.

The assumption on the connection is that it yields messages only once it knows its hash
and the key of the remote, and keeps them. Over runs of moves this is `ReadsReady`; a
connection that is a `MessageCipher` gives only such runs, whatever order polls take their
moves in (`poll_run_reads_ready`). Then a channel is accepted, or refused because the
capability is not the expected one, and nothing else happens.
-/
import HypercoreProtocol.Establishment
import HypercoreProtocol.Polled

set_option autoImplicit false

namespace hypercore_protocol.session

open Rust Method Wire Runs schema message channels mqueue protocol compact_encoding

variable {X : Deps} {σ : Type} [CipherTrait σ] {p p' : Protocol X σ} {s s' : Session X σ}
  {a : Action X} {tr : List (Happening X σ)}

/-! ## Messages after the handshake -/

/-- Every message is handled with the hash, of 64 bytes or less, and the key of the remote
there. -/
def ReadsReady (tr : List (Happening X σ)) : Prop :=
  ∀ t ∈ tr, ∀ msg, t.act = .protocol (.inbound msg) → t.pre.protocol.Ready

/-- The same, said about a move, so that it can be followed through the loops of a poll. -/
def Move.ReadsAt (p : Protocol X σ) (move : Move X) : Prop :=
  ∀ msg, move = .inbound msg → p.Ready

/-- A connection that yields messages only once it knows its hash and the key of the
remote, and keeps them. -/
structure MessageCipher (σ : Type) [CipherTrait σ] : Prop extends LawfulCipher σ where
  message : ∀ (stream : σ) bs, (CipherTrait.poll_next stream).1 = .ready (some (.Message bs)) →
    ∃ key hash, CipherTrait.remote_public_key (CipherTrait.poll_next stream).2 = some key ∧
      CipherTrait.handshake_hash (CipherTrait.poll_next stream).2 = some hash ∧
      hash.val.length ≤ 64

theorem ready_of_keeps (h : KeepsHandshake p.io.stream p'.io.stream) (hp : p.Ready) :
    p'.Ready := by
  obtain ⟨key, hash, hkey, hhash, hlen⟩ := hp
  exact ⟨key, hash, h.2 key hkey, h.1 hash hhash, hlen⟩

/-- The messages of a frame are handled one after the other in states that are ready. The first
is, as the connection gave the frame, and handling a message does not undo it. -/
theorem poll_inbound_read_ready (hcipher : MessageCipher σ) (hs : Inv s) (fuel : ℕ) :
    Keeps (fun p => PolledTo Move.ReadsAt s p [])
      (Protocol.poll_inbound_read fuel : ProtocolMethod X σ Unit) := by
  have hio : ∀ {p : Protocol X σ} {stream : σ}, PolledTo Move.ReadsAt s p [] →
      KeepsHandshake p.io.stream stream →
      PolledTo Move.ReadsAt s { p with io := { p.io with stream := stream } } [] := by
    intro p stream hp hkeeps
    have hstep : protocol_step p .io { p with io := { p.io with stream := stream } } :=
      .io hkeeps (List.suffix_refl _)
    exact hp.step hs hstep fun _ h => by cases h
  refine Protocol.keeps_poll_inbound_read
    (D := fun _ p => PolledTo Move.ReadsAt s p [] ∧ p.Ready) (fun p => ⟨?_, ?_⟩)
    (Protocol.triple_on_inbound_channel_messages (fun msg _ => ?_) fun _ hp => hp.1) fuel
  · intro io hp _
    exact hio (p := { p with io := io }) hp (hcipher.poll_next io.stream)
  · intro io bs hp hbs
    have hp' := hio (p := { p with io := io }) hp (hcipher.poll_next io.stream)
    exact ⟨fun _ _ _ => ⟨hp', hcipher.message io.stream bs hbs⟩, fun _ _ => hp'⟩
  · refine (keeps_of_leaves (P := fun p => PolledTo Move.ReadsAt s p [] ∧ p.Ready)
      fun p p' hp hl => ?_).conseq (fun _ hp => hp) (fun _ _ h => h) fun _ h => h.1
    have hstep : protocol_step p (.inbound msg) p' := .inbound hl
    exact ⟨hp.1.step hs hstep fun _ _ => hp.2,
      ready_of_keeps (protocol_step_handshake (hp.1.inv hs).wf hstep).2 hp.2⟩

/-- So it is in a whole poll: the other parts of it handle no messages. -/
theorem poll_next_reads_ready (hcipher : MessageCipher σ) (hs : Inv s) (fuel : ℕ) :
    Triple (· = s.protocol) (Protocol.poll_next fuel)
      (fun result p => PolledTo Move.ReadsAt s p (given result))
      (fun p => PolledTo Move.ReadsAt s p []) := by
  -- writing and handling commands take no message from the remote, so `ReadsAt` asks
  -- nothing of their moves
  have hclosed : ∀ {K : Move X → Prop}, (∀ move, K move → ∀ msg, move ≠ .inbound msg) →
      (∀ move, K move → move.gives = []) →
      ClosedUnder K fun p : Protocol X σ => PolledTo Move.ReadsAt s p [] := by
    intro K hK hgives p p' move hmove hstep hp
    exact hgives move hmove ▸ hp.step hs hstep fun msg h => absurd h (hK move hmove msg)
  have hread := poll_inbound_read_ready hcipher hs fuel
  have hwrite := ((hclosed (K := Move.writes) (by rintro _ h msg rfl; exact h)
    writes_gives).poll_outbound_write hcipher.toLawfulCipher).conseq (fun _ hp => hp)
    (fun _ _ h => h.1) fun _ h => h
  have hcommands := (hclosed (K := Move.is_command) (by rintro _ h msg rfl; exact h)
    command_gives).poll_commands.conseq (fun _ hp => hp) (fun _ _ h => h.1) fun _ h => h
  -- the last move hands over an event; a channel in it is then held
  have hevent : ∀ p e rest, PolledTo Move.ReadsAt s p [] → p.queued_events = e :: rest →
      PolledTo Move.ReadsAt s { p with queued_events := rest } (given (.ready e)) :=
    fun p e rest hp hq => hp.step hs (.event hq) fun _ h => by cases h
  have hwait := (Protocol.keeps_handshake_wait hwrite hread).conseq (fun _ hp => hp)
    (fun wait p hp => show if wait = true then PolledTo Move.ReadsAt s p (given .pending)
      else PolledTo Move.ReadsAt s p [] from (ite_self _).symm ▸ hp) fun _ h => h
  refine (Protocol.triple_poll_next hwait ?_ (fun _ hp _ => hp) hevent
    (hread.conseq (fun _ hp => hp.1) (fun _ _ h => h) fun _ h => h) hcommands hwrite hevent
    fun _ hp _ => hp).conseq (fun p hp => hp ▸ polledTo_refl s) (fun _ _ h => h) fun _ h => h
  exact fun p key hp hemitted hkey => hp.step hs (.handshake hemitted hkey) fun _ h => by cases h

/-- Polls of such a connection are runs of moves that read only when they may. So the results
about these runs apply to applications. -/
theorem poll_run_reads_ready (hcipher : MessageCipher σ) {stream : σ}
    {polls : List (Transition (Session X σ) (PollAction X))}
    (run : Run PollStep (Session.new stream) polls s) :
    ∃ tr, Run Step (Session.new stream) tr s ∧ ReadsReady tr := by
  obtain ⟨tr, run', htr⟩ := poll_run_moves_of (W := fun _ => True)
    (fun _ _ h => by cases h) (fun _ hs _ => poll_next_reads_ready hcipher hs) run
    fun _ _ _ _ => trivial
  exact ⟨tr, run', fun t ht msg hact => htr t ht _ hact msg rfl⟩

/-! ## What the remote has opened -/

/-- An entry that the remote has opened is there only when the handshake is over. So accepting it
can check the capability. -/
def OpenedReady (p : Protocol X σ) : Prop :=
  ∀ d h rs, p.channels.channels d = some h → h.remote_state = some rs → p.Ready

theorem protocol_step_opened_ready (hm : p.channels.Wf) {move : Move X}
    (h : protocol_step p move p') (hmsg : ∀ msg, move = .inbound msg → p.Ready)
    (ho : OpenedReady p) : OpenedReady p' := by
  by_cases hready : p.Ready
  · exact fun _ _ _ _ _ => ready_of_keeps (protocol_step_handshake hm h).2 hready
  · -- nothing is open for the remote, and the move is not a message that opens something
    have hnone : ∀ d e rs, p.channels.channels d = some e → e.remote_state = some rs → False :=
      fun d e rs hd hr => hready (ho d e rs hd hr)
    intro d e rs hd hr
    refine absurd ?_ not_false
    refine (protocol_step_changes hm h).remote_state (A := fun _ => False) (fun r cap hop => ?_) hm
      (hnone d) e rs hd hr
    obtain ⟨ch, o, rfl, -⟩ := Move.calls_attach_remote hop
    exact hready (hmsg _ rfl)

theorem Step.opened_ready (h : Step s a s') (hs : Inv s)
    (hmsg : ∀ msg, a = .protocol (.inbound msg) → s.protocol.Ready)
    (ho : OpenedReady s.protocol) : OpenedReady s'.protocol := by
  rcases h.move_or_aside with ⟨move, rfl, hmove⟩ | ⟨-, hq⟩
  · exact protocol_step_opened_ready hs.wf hmove (fun msg heq => hmsg msg (heq ▸ rfl)) ho
  · intro d e rs hd hr
    rw [hq.entries] at hd
    exact ready_of_keeps (h.handshake hs).2 (ho d e rs hd hr)

theorem reachable_opened_ready {stream : σ} (run : Run Step (Session.new stream) tr s)
    (hlate : ReadsReady tr) : OpenedReady s.protocol := by
  induction run with
  | nil => exact fun _ _ _ hd => by cases hd
  | @snoc tr s s' a run h ih =>
    refine h.opened_ready (reachable_inv run) (fun msg ha => ?_)
      (ih fun t ht => hlate t (List.mem_append_left _ ht))
    exact hlate ⟨s, a, s'⟩ (List.mem_append_right _ (List.mem_singleton.mpr rfl)) msg ha

/-! ## The theorem -/

/-- Accepting local id `i` gives a channel, or the capability is refused. In particular it does
not panic. -/
def AcceptsOrRefuses (i : ℕ) (p : Protocol X σ) : Prop :=
  (∃ p', (Protocol.accept_channel i).run p = .ok () p') ∨
    (Protocol.accept_channel i).run p = .error (.err invalid_capability) p

theorem accepts_or_refuses {d : DiscoveryKey} {h : ChannelHandle} {i : ℕ} {ls : LocalState}
    {rs : RemoteState} (hready : p.Ready) (hslot : p.channels.local_id.slot i = some d)
    (hd : p.channels.channels d = some h) (hl : h.local_state = some ls)
    (hr : h.remote_state = some rs) : AcceptsOrRefuses i p := by
  rcases Protocol.accept_channel_spec hslot hd hl hr with ⟨-, hrun⟩ | ⟨-, -, hrun⟩ | ⟨hno, -⟩
  · exact Or.inl ⟨_, hrun⟩
  · exact Or.inr hrun
  · exact absurd hready hno

/-- An entry that is connected has a remote state: this is a part of what connected means. -/
theorem remote_state_of_connected {h : ChannelHandle} (hc : h.is_connected = true) :
    ∃ rs, h.remote_state = some rs := by
  rw [ChannelHandle.is_connected, Bool.and_eq_true] at hc
  exact Option.isSome_iff_exists.mp hc.2

/-- In every run in which messages are handled only after the handshake, both callers of
`accept_channel` find a local id to unwrap, and the call gives a channel or refuses the
capability: it does not panic, and no other error comes up. The first part is
`command_open`, for the handle `h` and the map `m` that `attach_local` leaves; the second
is `on_open`, for those of `attach_remote`, when a message is there to be handled. -/
theorem acceptance_only_refuses {stream : σ} (run : Run Step (Session.new stream) tr s)
    (hlate : ReadsReady tr) :
    (∀ key command_rx h m, (ChannelMap.attach_local key).run s.protocol.channels = .ok h m →
      ∃ i, h.local_id = some i ∧ (h.is_connected = true →
        AcceptsOrRefuses i { s.protocol with command_rx := command_rx, channels := m })) ∧
    (s.protocol.Ready → ∀ d r cap h m,
      (ChannelMap.attach_remote d r cap).run s.protocol.channels = .ok h m →
      h.is_connected = true →
      ∃ i, h.local_id = some i ∧ AcceptsOrRefuses i { s.protocol with channels := m }) := by
  have hwf := (reachable_inv run).wf
  constructor
  · intro key command_rx h m hrun
    rcases Protocol.attach_local_effect hwf key with
      ⟨i, h', m', hrun', -, hd, hl, hslot, hr⟩ | ⟨-, hrun'⟩
    · rw [hrun'] at hrun
      cases hrun
      refine ⟨i, by rw [ChannelHandle.local_id, hl]; rfl, fun hc => ?_⟩
      obtain ⟨rs, hrs⟩ := remote_state_of_connected hc
      -- the remote side of the entry was there before
      have hready : s.protocol.Ready := by
        rw [hr] at hrs
        rcases entry_cases s.protocol.channels (discovery_key_of X key) with hold | ⟨-, hnone, -⟩
        · exact reachable_opened_ready run hlate _ _ rs hold hrs
        · rw [hnone] at hrs
          cases hrs
      exact accepts_or_refuses hready hslot hd hl hrs
    · rw [hrun'] at hrun
      cases hrun
  · intro hready d r cap h m hrun hc
    rcases Protocol.attach_remote_effect d r cap with
      ⟨h', m', hrun', hmap, hd, hr, -⟩ | ⟨-, hrun'⟩ | ⟨-, hrun'⟩
    · rw [hrun'] at hrun
      cases hrun
      rw [ChannelHandle.is_connected, Bool.and_eq_true] at hc
      obtain ⟨ls, hl⟩ := Option.isSome_iff_exists.mp hc.1
      have hlid : h.local_id = some ls.local_id := by rw [ChannelHandle.local_id, hl]; rfl
      have hslot := (((hmap.wf hwf).fits hd).local_slot hlid).2
      exact ⟨ls.local_id, hlid, accepts_or_refuses hready hslot hd hl hr⟩
    · rw [hrun'] at hrun
      cases hrun
    · rw [hrun'] at hrun
      cases hrun

/-- A run of one step, from a connection that is over its handshake. Whatever the step is, it
reads when it may. -/
theorem reads_ready_once (move : Move deps) (s' : Session deps Memory) :
    ReadsReady [⟨Session.new (Memory.connected false), .protocol move, s'⟩] := by
  intro t ht msg _
  rw [List.mem_singleton.mp ht]
  exact ⟨sample 1, to_vec (sample 0), rfl, rfl, by decide⟩

/-- The remote opens a key, and then the application does. So the entry is connected when the
command attaches it. -/
theorem acceptance_only_refuses_opened :
    ∃ tr s h m, Run Step (Session.new (Memory.connected false) : Session deps Memory) tr s ∧
      ReadsReady tr ∧ tr.length = 1 ∧
      (ChannelMap.attach_local (sample 1)).run s.protocol.channels = .ok h m ∧
      h.is_connected = true ∧
      ∃ i, h.local_id = some i ∧ AcceptsOrRefuses i { s.protocol with channels := m } := by
  have run : Run Step (Session.new (Memory.connected false) : Session deps Memory)
      [⟨_, .protocol (.inbound (remote_open 1 (sample 1))), _⟩] _ :=
    Run.nil.snoc (.protocol (.inbound (Or.inl ⟨(), rfl⟩)))
  refine ⟨_, _, _, _, run, ?_, rfl, rfl, rfl, ?_⟩
  · exact reads_ready_once _ _
  · obtain ⟨i, hid, haccepts⟩ :=
      (acceptance_only_refuses run (reads_ready_once _ _)).1 (sample 1) [] _ _ rfl
    exact ⟨i, hid, haccepts rfl⟩

end hypercore_protocol.session
