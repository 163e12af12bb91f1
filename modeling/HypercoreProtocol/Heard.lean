/-
What is heard is handled.

Frames come out of the connection one at a time, each is decoded as a whole, and its
messages are handled one after the other, in loops that are left at the first error. What
an error costs is not written down anywhere: the messages of the frame that had not been
handled are gone, since the frame is not read again, while frames that had not been read
stay where they are.

`frames_handled_in_order` is the account of a whole session. A connection that notes the
frames it gives (`Noted`) is compared with the messages that are handled: they are the
messages of the frames, in order, each of them once, but for one frame for each poll that
failed, of which nothing is handled after the message that failed. Without a failed poll
nothing is missing.
-/
import HypercoreProtocol.Accounts
import HypercoreProtocol.Returning

set_option autoImplicit false

namespace hypercore_protocol.mqueue

open Rust Wire

variable {σ : Type} [CipherTrait σ]

/-- A connection that notes the frames it has given. It behaves as the connection in it, so that
what was heard can be spoken of. -/
structure Noted (σ : Type) where
  stream : σ
  frames : List Bytes

namespace Noted

/-- The frame in an answer. -/
def frame : Poll (Option CipherEvent) → List Bytes
  | .ready (some (.Message bs)) => [bs]
  | _ => []

instance : CipherTrait (Noted σ) where
  is_initiator self := CipherTrait.is_initiator self.stream
  local_public_key self := CipherTrait.local_public_key self.stream
  remote_public_key self := CipherTrait.remote_public_key self.stream
  handshake_hash self := CipherTrait.handshake_hash self.stream
  poll_next self :=
    let (answer, stream) := CipherTrait.poll_next self.stream
    (answer, ⟨stream, self.frames ++ frame answer⟩)
  poll_ready self :=
    let (answer, stream) := CipherTrait.poll_ready self.stream
    (answer, { self with stream := stream })
  start_send self buf :=
    let (answer, stream) := CipherTrait.start_send self.stream buf
    (answer, { self with stream := stream })
  poll_flush self :=
    let (answer, stream) := CipherTrait.poll_flush self.stream
    (answer, { self with stream := stream })

end Noted

end hypercore_protocol.mqueue

namespace hypercore_protocol.session

open Rust Method Wire Runs schema message channels mqueue protocol compact_encoding

variable {X : Deps} {σ : Type} [CipherTrait σ]

theorem noted_lawful (h : LawfulCipher σ) : LawfulCipher (Noted σ) where
  poll_next stream := h.poll_next stream.stream
  poll_ready stream := h.poll_ready stream.stream
  start_send stream buf := h.start_send stream.stream buf
  poll_flush stream := h.poll_flush stream.stream

/-! ## The account -/

/-- A message that was handled, and whether that succeeded. Both matter: one that fails has been
handled too. -/
abbrev Receipt (X : Deps) := ChannelMessage X × Bool

/-- The receipts of messages that were all handled with success. -/
def all_handled (messages : List (ChannelMessage X)) : List (Receipt X) :=
  messages.map fun msg => (msg, true)

/-- The messages are those of the frames, in order, and were handled with success, but for
`cut` of the frames: of these the messages are handled up to one that fails and those after
it are lost, or the frame does not decode. -/
inductive Handled (X : Deps) : List Bytes → List (Receipt X) → ℕ → Prop where
  | nil : Handled X [] [] 0
  | whole {frames : List Bytes} {receipts : List (Receipt X)} {decoded : List (ChannelMessage X)}
      {cut : ℕ} {bs rest : Bytes} (h : Handled X frames receipts cut)
      (hdec : vec_decode X bs = .ok (decoded, rest)) :
      Handled X (frames ++ [bs]) (receipts ++ all_handled decoded) cut
  | front {frames : List Bytes} {receipts : List (Receipt X)}
      {front lost : List (ChannelMessage X)} {failing : ChannelMessage X} {cut : ℕ}
      {bs rest : Bytes} (h : Handled X frames receipts cut)
      (hdec : vec_decode X bs = .ok (front ++ failing :: lost, rest)) :
      Handled X (frames ++ [bs]) (receipts ++ (all_handled front ++ [(failing, false)])) (cut + 1)
  | undecoded {frames : List Bytes} {receipts : List (Receipt X)} {cut : ℕ} {bs : Bytes}
      {e : EncodingError} (h : Handled X frames receipts cut)
      (hdec : vec_decode X bs = .error (.err e)) : Handled X (frames ++ [bs]) receipts (cut + 1)

theorem Handled.append {frames frames' : List Bytes} {receipts receipts' : List (Receipt X)}
    {cut cut' : ℕ} (h : Handled X frames receipts cut) (h' : Handled X frames' receipts' cut') :
    Handled X (frames ++ frames') (receipts ++ receipts') (cut + cut') := by
  induction h' with
  | nil =>
    rw [List.append_nil, List.append_nil]
    exact h
  | whole _ hdec ih =>
    rw [← List.append_assoc, ← List.append_assoc]
    exact ih.whole hdec
  | front _ hdec ih =>
    rw [← List.append_assoc, ← List.append_assoc]
    exact ih.front hdec
  | undecoded _ hdec ih =>
    rw [← List.append_assoc]
    exact ih.undecoded hdec

/-- The message that a move handles, if it is a move that handles one. -/
def Move.messages : Move X → List (ChannelMessage X)
  | .inbound msg => [msg]
  | _ => []

def Action.messages : Action X → List (ChannelMessage X)
  | .protocol move => move.messages
  | _ => []

/-- The messages from the remote that a run handles, in order. -/
def inbound (tr : List (Happening X σ)) : List (ChannelMessage X) :=
  tr.flatMap fun t => t.act.messages

/-- Handling the message succeeds, in the state in which it is handled. -/
def succeeds (p : Protocol X σ) (msg : ChannelMessage X) : Bool :=
  match (Protocol.on_inbound_message msg).run p with
  | .ok _ _ => true
  | .error _ _ => false

/-- The message that a step handles, with what became of it, told from the state before the
step. -/
def receipt (t : Happening X σ) : List (Receipt X) :=
  t.act.messages.map fun msg => (msg, succeeds t.pre.protocol msg)

/-- The receipts of a run. -/
def receipts (tr : List (Happening X σ)) : List (Receipt X) := tr.flatMap receipt

theorem receipts_messages (tr : List (Happening X σ)) :
    (receipts tr).map Prod.fst = inbound tr := by
  rw [receipts, inbound, List.map_flatMap]
  refine congrArg (List.flatMap · tr) (funext fun t => ?_)
  exact (List.map_map ..).trans (List.map_id _)

/-- From `p` to `p'` frames were read, and the messages that `tr` handles are theirs, but for
`cut` frames that were not handled to their end. -/
def HandledTo (p : Protocol X (Noted σ)) (cut : ℕ) (tr : List (Happening X (Noted σ)))
    (p' : Protocol X (Noted σ)) : Prop :=
  ∃ frames, p'.io.stream.frames = p.io.stream.frames ++ frames ∧ Handled X frames (receipts tr) cut

theorem receipts_append (tr tr' : List (Happening X σ)) :
    receipts (tr ++ tr') = receipts tr ++ receipts tr' := List.flatMap_append

theorem receipts_snoc (tr : List (Happening X σ)) {t : Happening X σ} {p : Protocol X σ}
    {msg : ChannelMessage X} (hpre : t.pre.protocol = p) (hact : t.act = .protocol (.inbound msg)) :
    receipts (tr ++ [t]) = receipts tr ++ [(msg, succeeds p msg)] := by
  rw [receipts_append, ← hpre]
  refine congrArg (receipts tr ++ ·) ?_
  rw [receipts, List.flatMap_singleton, receipt, hact]
  rfl

/-- A step that reads nothing and handles no message. -/
theorem handledTo_quiet {t : Happening X (Noted σ)} {p p' : Protocol X (Noted σ)}
    (hframes : p'.io.stream.frames = p.io.stream.frames) (hno : t.act.messages = []) :
    HandledTo p 0 [t] p' := by
  refine ⟨[], hframes.trans (List.append_nil _).symm, ?_⟩
  rw [receipts, List.flatMap_singleton, receipt, hno]
  exact .nil

theorem handled_account : Account (HandledTo (X := X) (σ := σ)) where
  refl p := ⟨[], (List.append_nil _).symm, .nil⟩
  trans := by
    rintro p p' p'' m n tr tr' ⟨frames, hframes, h⟩ ⟨frames', hframes', h'⟩
    refine ⟨frames ++ frames', ?_, ?_⟩
    · rw [hframes', hframes, List.append_assoc]
    · rw [receipts_append]
      exact h.append h'
  aside {t} hno haside := by
    refine handledTo_quiet (by rw [haside.io]) ?_
    cases hact : t.act with
    | protocol move => exact absurd hact (hno move)
    | _ => rfl
  returned {t move} hact hreturns hio := by
    refine handledTo_quiet (by rw [hio]) ?_
    rw [hact]
    cases move with
    | event e => rfl
    | handshake key => rfl
    | _ => exact hreturns.elim

/-! ## One poll -/

section

variable {s : Session X (Noted σ)} {p p' : Protocol X (Noted σ)}

theorem Accounts.quiet {move : Move X} (h : Accounts HandledTo s p) (hs : Inv s)
    (hmove : protocol_step p move p') (hframes : p'.io.stream.frames = p.io.stream.frames)
    (hno : move.messages = []) :
    Makes (HandledTo s.protocol 0) s p' move.gives (Action.protocol move).sight := by
  refine h.step handled_account hs hmove fun t _ hact _ => handledTo_quiet hframes ?_
  rw [hact]
  exact hno

/-- A handler of anything but a message adds nothing to the account, and no frame is read for
it. -/
theorem Accounts.handler {move : Move X} (h : Accounts HandledTo s p) (hs : Inv s)
    (hmove : protocol_step p move p') (hio : move ≠ .io) (hno : move.messages = []) :
    Makes (HandledTo s.protocol 0) s p' move.gives (Action.protocol move).sight := by
  have hm : p.channels.Wf := (h.inv hs).wf
  exact h.quiet hs hmove (congrArg Noted.frames (protocol_step_stream hm hmove hio)) hno

/-- What the connection does when nothing is read: the frames are the same, and so is the
account. -/
theorem Accounts.stream {io : MessageIo X (Noted σ)} (h : Accounts HandledTo s p) (hs : Inv s)
    (hkeeps : KeepsHandshake p.io.stream io.stream) (hqueue : io.write_queue <:+ p.io.write_queue)
    (hframes : io.stream.frames = p.io.stream.frames) :
    Accounts HandledTo s { p with io := io } := by
  have hmove : protocol_step p .io { p with io := io } := .io hkeeps hqueue
  exact h.quiet hs hmove hframes rfl

/-- All frames since `q` are handled, but for the messages `left` of the last one. This holds
between two messages of a frame. -/
def Leaving (q : Protocol X (Noted σ)) (left : List (ChannelMessage X))
    (tr : List (Happening X (Noted σ))) (p : Protocol X (Noted σ)) : Prop :=
  ∃ frames bs old done rest, p.io.stream.frames = q.io.stream.frames ++ (frames ++ [bs]) ∧
    receipts tr = old ++ all_handled done ∧ Handled X frames old 0 ∧
    vec_decode X bs = .ok (done ++ left, rest)

theorem Leaving.all {q : Protocol X (Noted σ)} {tr : List (Happening X (Noted σ))}
    (h : Leaving q [] tr p) : HandledTo q 0 tr p := by
  obtain ⟨frames, bs, old, done, rest, hframes, hmessages, hold, hdec⟩ := h
  refine ⟨frames ++ [bs], hframes, ?_⟩
  rw [List.append_nil] at hdec
  rw [hmessages]
  exact hold.whole hdec

theorem handled_write (hcipher : LawfulCipher σ) (hs : Inv s) :
    Keeps (Accounts HandledTo s)
      (Protocol.poll_outbound_write : ProtocolMethod X (Noted σ) Unit) := by
  have hlawful := noted_lawful hcipher
  refine (Protocol.triple_poll_outbound_write (Protocol.keeps_on_io fun p =>
    MessageIo.keeps_poll_outbound ⟨?_, ?_, ?_⟩) fun p batch rest hp hq =>
      keeps_of_leaves fun q p' hq' hl => ?_).conseq (fun _ h => h) (fun _ _ h => h.1) fun _ h => h
  · exact fun io hio => hio.stream (p := { p with io := io }) hs (hlawful.poll_ready io.stream)
      (List.suffix_refl _) rfl
  · exact fun io hio => hio.stream (p := { p with io := io }) hs (hlawful.poll_flush io.stream)
      (List.suffix_refl _) rfl
  · intro io messages write_queue hio _ hframe
    have hsuffix : write_queue <:+ io.write_queue := by
      have h := next_frame_append [] io.write_queue
      rw [hframe, List.nil_append] at h
      exact ⟨messages, h⟩
    exact ⟨fun buf _ => hio.stream (p := { p with io := io }) hs
      (hlawful.start_send io.stream buf) hsuffix rfl,
      fun _ _ => hio.stream (p := { p with io := io }) hs (.refl _) hsuffix rfl⟩
  · rw [hq'] at hl
    have hstep : protocol_step p (.outbound batch) p' := .outbound hq hl
    exact hp.handler hs hstep (fun h => nomatch h) rfl

theorem handled_commands (hs : Inv s) :
    Keeps (Accounts HandledTo s) (Protocol.poll_commands : ProtocolMethod X (Noted σ) Unit) := by
  refine (Protocol.triple_poll_commands fun p c rest hp hq =>
    keeps_of_leaves fun q p' hq' hl => ?_).conseq (fun _ h => h) (fun _ _ h => h.1) fun _ h => h
  rw [hq'] at hl
  have hstep : protocol_step p (.command c) p' := .command hq hl
  exact hp.handler hs hstep (fun h => nomatch h) rfl

/-- A message in hand is handled with success, and the frame goes on. -/
theorem Leaving.succeeds {q : Protocol X (Noted σ)} {tr : List (Happening X (Noted σ))}
    {t : Happening X (Noted σ)} {msg : ChannelMessage X} {left : List (ChannelMessage X)}
    (h : Leaving q (msg :: left) tr p) (hpre : t.pre.protocol = p)
    (hact : t.act = .protocol (.inbound msg)) (hsame : p'.io.stream.frames = p.io.stream.frames)
    (hrun : (Protocol.on_inbound_message msg).run p = .ok () p') :
    Leaving q left (tr ++ [t]) p' := by
  obtain ⟨frames, bs, old, done, rest, hframes, hreceipts, hold, hdec⟩ := h
  refine ⟨frames, bs, old, done ++ [msg], rest, hsame.trans hframes, ?_, hold, ?_⟩
  · rw [receipts_snoc tr hpre hact, session.succeeds, hrun, hreceipts, List.append_assoc,
      all_handled, all_handled, List.map_append]
    rfl
  · rw [hdec, List.append_assoc, List.singleton_append]

/-- It fails, and without the messages that are left the frame is cut short. The poll fails with
it. -/
theorem Leaving.fails {q : Protocol X (Noted σ)} {tr : List (Happening X (Noted σ))}
    {t : Happening X (Noted σ)} {msg : ChannelMessage X} {left : List (ChannelMessage X)}
    {e : IoError} (h : Leaving q (msg :: left) tr p) (hpre : t.pre.protocol = p)
    (hact : t.act = .protocol (.inbound msg)) (hsame : p'.io.stream.frames = p.io.stream.frames)
    (hrun : (Protocol.on_inbound_message msg).run p = .error (.err e) p') :
    HandledTo q 1 (tr ++ [t]) p' := by
  obtain ⟨frames, bs, old, done, rest, hframes, hreceipts, hold, hdec⟩ := h
  refine ⟨frames ++ [bs], hsame.trans hframes, ?_⟩
  rw [receipts_snoc tr hpre hact, session.succeeds, hrun, hreceipts, List.append_assoc]
  exact hold.front hdec

/-- The frame goes on as long as its messages are handled with success. If one fails, one frame
is cut. -/
theorem handled_message {msg : ChannelMessage X} {left : List (ChannelMessage X)} (hs : Inv s) :
    Triple (fun p => Makes (Leaving s.protocol (msg :: left)) s p [] [])
      (Protocol.on_inbound_message msg : ProtocolMethod X (Noted σ) Unit)
      (fun _ p => Makes (Leaving s.protocol left) s p [] []) (Excepts HandledTo s) := by
  intro p hp
  have hstep : ∀ {p'}, Method.Leaves (Protocol.on_inbound_message msg) p p' →
      protocol_step p (.inbound msg) p' ∧ p'.io.stream.frames = p.io.stream.frames := by
    intro p' hl
    have hstep : protocol_step p (.inbound msg) p' := .inbound hl
    have hstream := protocol_step_stream (hp.inv hs).wf hstep fun h => nomatch h
    exact ⟨hstep, congrArg Noted.frames hstream⟩
  constructor
  · intro _ p' hrun
    obtain ⟨hmove, hsame⟩ := hstep (Or.inl ⟨(), hrun⟩)
    exact hp.step hs hmove fun tr t hpre hact _ h => h.succeeds hpre hact hsame hrun
  · intro e p' hrun
    obtain ⟨hmove, hsame⟩ := hstep (Or.inr ⟨e, hrun⟩)
    exact hp.step hs hmove fun tr t hpre hact _ h =>
      ⟨1, Nat.le_refl _, h.fails hpre hact hsame hrun⟩

theorem handled_read (hcipher : LawfulCipher σ) (hs : Inv s) (fuel : ℕ) :
    Triple (Accounts HandledTo s)
      (Protocol.poll_inbound_read fuel : ProtocolMethod X (Noted σ) Unit)
      (fun _ => Accounts HandledTo s) (Excepts HandledTo s) := by
  have hlawful := noted_lawful hcipher
  -- an answer without a frame
  have hquiet : ∀ (p : Protocol X (Noted σ)) io, Accounts HandledTo s { p with io := io } →
      Noted.frame (CipherTrait.poll_next io.stream).1 = [] → Accounts HandledTo s
        { p with io := { io with stream := (CipherTrait.poll_next io.stream).2 } } := by
    intro p io hio hno
    refine hio.stream (p := { p with io := io }) hs (hlawful.poll_next io.stream)
      (List.suffix_refl _) ?_
    show io.stream.frames ++ Noted.frame (CipherTrait.poll_next io.stream).1 = io.stream.frames
    rw [hno, List.append_nil]
  refine Protocol.triple_poll_inbound_read_round
    (D := fun left p => Makes (Leaving s.protocol left) s p [] []) (fun p => ⟨?_, ?_, ?_, ?_⟩)
    (fun messages => ?_) fuel
  · exact fun io payload hio hans => hquiet p io hio (by rw [hans]; rfl)
  · exact fun io e hio hans => (hquiet p io hio (by rw [hans]; rfl)).excepts
  · refine fun io hio hans => hquiet p io hio ?_
    rcases hans with hans | hans
    · rw [hans]
      rfl
    · rw [hans]
      rfl
  · intro io bs hio hbs
    -- the frame is noted, and nothing of it is handled yet
    have hmove : protocol_step { p with io := io } .io
        { p with io := { io with stream := (CipherTrait.poll_next io.stream).2 } } :=
      .io (hlawful.poll_next io.stream) (List.suffix_refl _)
    have hnoted : (CipherTrait.poll_next io.stream).2.frames = io.stream.frames ++ [bs] := by
      show io.stream.frames ++ Noted.frame (CipherTrait.poll_next io.stream).1 = _
      rw [hbs]
      rfl
    have hread : ∀ {tr : List (Happening X (Noted σ))} {t : Happening X (Noted σ)},
        t.act = .protocol .io → HandledTo s.protocol 0 tr { p with io := io } →
        ∃ frames, (CipherTrait.poll_next io.stream).2.frames =
          s.protocol.io.stream.frames ++ (frames ++ [bs]) ∧
          Handled X frames (receipts (tr ++ [t])) 0 := by
      rintro tr t hact ⟨frames, hframes, h⟩
      refine ⟨frames, ?_, ?_⟩
      · rw [hnoted, hframes, List.append_assoc]
      · rw [receipts_append, receipts, receipts, List.flatMap_singleton, receipt, hact]
        exact (List.append_nil _).symm ▸ h
    refine ⟨fun messages rest hdec => Makes.step hio hs hmove fun tr t _ hact _ h => ?_,
      fun e hdec => Makes.step hio hs hmove fun tr t _ hact _ h => ?_⟩
    · obtain ⟨frames, hframes, hold⟩ := hread hact h
      exact ⟨frames, bs, _, [], rest, hframes, (List.append_nil _).symm, hold, hdec⟩
    · obtain ⟨frames, hframes, hold⟩ := hread hact h
      exact ⟨1, Nat.le_refl _, _, hframes, hold.undecoded hdec⟩
  · exact (Protocol.triple_channel_messages
      (D := fun left p => Makes (Leaving s.protocol left) s p [] [])
      (fun msg left => handled_message hs) messages).conseq (fun _ h => h)
      (fun _ _ h => h.mono fun _ h => h.all) fun _ h => h

end

/-! ## A session -/

theorem polls_handled {s : Session X (Noted σ)} (hcipher : LawfulCipher σ) {stream : σ}
    {polls : List (Transition (Session X (Noted σ)) (PollAction X))}
    (run : Run PollStep (Session.new ⟨stream, []⟩) polls s)
    (hnet : ∀ t ∈ polls, t.act = .net →
      t.post.protocol.io.stream.frames = t.pre.protocol.io.stream.frames) :
    ∃ tr cut, Run Step (Session.new ⟨stream, []⟩) tr s ∧
      (tr.flatMap fun t => t.act.sight) = (polls.flatMap fun t => t.act.sight) ∧
      HandledTo (Protocol.new ⟨stream, []⟩) cut tr s.protocol ∧ cut ≤ failures polls :=
  polls_account handled_account (fun _ hs fuel =>
    poll_next_accounts handled_account hs (handled_read hcipher hs fuel)
      ((handled_commands hs).conseq (fun _ h => h) (fun _ _ h => h) fun _ h => h.excepts)
      ((handled_write hcipher hs).conseq (fun _ h => h) (fun _ _ h => h) fun _ h => h.excepts))
    run fun t ht hact _ => handledTo_quiet (hnet t ht hact) rfl

/-- **Everything that is heard is handled, in order.** Over every run of calls and polls on a
connection that notes the frames it gives, and that nobody else reads from: there is a run
of moves to the same session that shows the application the same, and the messages it
handles are those of the frames that were read, in the order of the frames and of the
messages in them, each of them once and with success. For each poll that failed, of one frame
at most only the messages up to the first one that fails are handled, or the frame did not
decode. So if no poll failed, every frame decoded and nothing is missing. -/
theorem frames_handled_in_order {s : Session X (Noted σ)} (hcipher : LawfulCipher σ) {stream : σ}
    {polls : List (Transition (Session X (Noted σ)) (PollAction X))}
    (run : Run PollStep (Session.new ⟨stream, []⟩) polls s)
    (hnet : ∀ t ∈ polls, t.act = .net →
      t.post.protocol.io.stream.frames = t.pre.protocol.io.stream.frames) :
    ∃ tr cut, Run Step (Session.new ⟨stream, []⟩) tr s ∧
      (tr.flatMap fun t => t.act.sight) = (polls.flatMap fun t => t.act.sight) ∧
      Handled X s.protocol.io.stream.frames (receipts tr) cut ∧ cut ≤ failures polls := by
  obtain ⟨tr, cut, run', hseen, ⟨frames, hframes, hhandled⟩, hcut⟩ := polls_handled hcipher run hnet
  have hall : s.protocol.io.stream.frames = frames := hframes
  exact ⟨tr, cut, run', hseen, hall ▸ hhandled, hcut⟩

/-- A connection with two frames: the remote opens a key, and sends two messages on its
channel that nobody has opened here. -/
def unasked : Memory :=
  { Memory.connected false with incoming :=
      [frame_of [remote_open 1 (sample 1)], frame_of [⟨1, .Cancel ⟨5⟩⟩, ⟨1, .Cancel ⟨6⟩⟩]] }

/-- The second poll fails at the first of the two messages, and the other one is lost. -/
theorem frames_handled_in_order_cut : ∃ polls, ∃ s : Session deps (Noted Memory),
    Run PollStep (Session.new ⟨unasked, []⟩) polls s ∧ failures polls = 1 ∧
    s.protocol.io.stream.frames.length = 2 ∧
    ∃ tr cut, Run Step (Session.new ⟨unasked, []⟩) tr s ∧
      (tr.flatMap fun t => t.act.sight) = (polls.flatMap fun t => t.act.sight) ∧
      Handled deps s.protocol.io.stream.frames (receipts tr) cut ∧ cut ≤ failures polls := by
  have hcomputed : ((poll_times 3 2 (Session.new ⟨unasked, []⟩ : Session deps (Noted Memory))).any
      fun r => failures r.1 == 1 && r.2.protocol.io.stream.frames.length == 2) = true := by
    decide +kernel
  obtain ⟨⟨polls, s⟩, hpolls, hfinal⟩ := (Option.any_eq_true _ _).mp hcomputed
  rw [Bool.and_eq_true, beq_iff_eq, beq_iff_eq] at hfinal
  obtain ⟨run, hall⟩ := poll_times_run hpolls
  refine ⟨polls, s, run, hfinal.1, hfinal.2, frames_handled_in_order memory_lawful run ?_⟩
  intro t ht hact
  obtain ⟨result, hpoll⟩ := hall t ht
  cases hact.symm.trans hpoll

end hypercore_protocol.session
