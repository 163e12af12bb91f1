/-
What is put into the write queue is written.

Messages get into the write queue in two ways: a command to open a key puts its `Open`
there, and a batch of the application everything in it that is no local signal. From there
they are taken frame by frame, encoded and passed to the sink, in a loop that is left at the
first error. A frame that does not encode is gone then, and so is one that the sink refuses,
since nothing is put back.

`queue_written_in_order` is the account of a whole session over a connection whose sink
writes its calls down (`Logged`), and which may fail at any call: what was put into the queue
is what was taken out frame by frame, in order, and what waits; the frames that encode are
the frames that the sink was given; and there are no more frames that do not encode, and no
more failed calls, than polls that failed.
-/
import HypercoreProtocol.Accounts
import HypercoreProtocol.Outbound
import HypercoreProtocol.Returning

set_option autoImplicit false

namespace hypercore_protocol.mqueue

open Rust Method Wire schema message

variable {X : Deps} {σ : Type} [CipherTrait σ]

/-! ## Calls that fail -/

/-- The sink refuses a frame or fails to flush, and the poll fails with it. That `poll_ready`
fails is not noticed, so it is not counted. -/
def SinkCall.breaks : SinkCall → Bool
  | .start_send _ (.error _) => true
  | .poll_flush (.ready (.error _)) => true
  | _ => false

/-- A frame as it is passed on, if it encodes. Otherwise its messages are lost, and the poll
fails. -/
def frame_bytes (messages : List (ChannelMessage X)) : Option Bytes :=
  (to_encoded_bytes messages).toOption

/-- The frames of a queue with the calls that were made for them: those that encode are the
frames the sink was given, and `cut` of them did not encode or were followed by a call that
failed. -/
structure Passed (frames : List (List (ChannelMessage X))) (calls : List SinkCall) (cut : ℕ) :
    Prop where
  frame : ∀ L ∈ frames, IsFrame L
  bytes : frames.filterMap frame_bytes = sent calls
  cut : (frames.countP fun L => (frame_bytes L).isNone) + calls.countP SinkCall.breaks = cut

theorem Passed.nil {calls : List SinkCall} (hsent : sent calls = [])
    (hok : calls.countP SinkCall.breaks = 0) :
    Passed ([] : List (List (ChannelMessage X))) calls 0 :=
  ⟨fun _ hL => absurd hL List.not_mem_nil, hsent.symm, by rw [hok]; rfl⟩

theorem Passed.append {frames frames' : List (List (ChannelMessage X))}
    {calls calls' : List SinkCall} {cut cut' : ℕ} (h : Passed frames calls cut)
    (h' : Passed frames' calls' cut') :
    Passed (frames ++ frames') (calls ++ calls') (cut + cut') where
  frame L hL := (List.mem_append.mp hL).elim (h.frame L) (h'.frame L)
  bytes := by rw [List.filterMap_append, sent_append, h.bytes, h'.bytes]
  cut := by
    rw [List.countP_append, List.countP_append, ← h.cut, ← h'.cut]
    omega

namespace MessageIo

variable {pending : Bool} {io io' : MessageIo X σ} {calls : List SinkCall}
  {r : Res IoError (Poll Unit)}

/-- A frame that is passed on, with the calls that follow. -/
theorem Passes.passed {buf : Bytes} (h : io.Passes buf) {answer : Except IoError Unit}
    {flush : List SinkCall} {cut : ℕ} (hsent : sent flush = [])
    (hcut : (SinkCall.start_send buf answer :: flush).countP SinkCall.breaks = cut) :
    Passed [io.frame] (.poll_ready (.ready (.ok ())) :: .start_send buf answer :: flush) cut := by
  have hbytes : frame_bytes io.frame = some buf := by
    rw [frame_bytes, h.encoded]
    rfl
  refine ⟨?_, ?_, ?_⟩
  · intro L hL
    rw [List.mem_singleton.mp hL]
    exact next_frame_is_frame h.queue
  · rw [List.filterMap_cons_some hbytes]
    exact congrArg (buf :: ·) hsent.symm
  · rw [List.countP_singleton, hbytes, ← hcut]
    exact Nat.zero_add _

/-- One call of `poll_outbound`: it takes frames off the queue, and it has an exception
exactly if it ends with a fault. -/
theorem Drives.passed (h : Drives pending io calls r io') :
    ∃ frames, frames.flatten ++ io'.write_queue = io.write_queue ∧
      Passed frames calls (if r.isOk then 0 else 1) := by
  have hone : ∀ (io : MessageIo X σ), [io.frame].flatten ++ io.behind = io.write_queue := by
    intro io
    rw [List.flatten_singleton]
    exact io.frame_append_behind
  induction h with
  | @not_ready pending io h => exact ⟨[], rfl, .nil rfl rfl⟩
  | done h hq => exact ⟨[], rfl, .nil rfl rfl⟩
  | @unencoded pending io f h hq hf =>
    have hnone : frame_bytes io.frame = none := by
      rw [frame_bytes]
      cases henc : to_encoded_bytes io.frame with
      | ok buf =>
        rw [henc] at hf
        cases hf
      | error f => rfl
    refine ⟨[io.frame], hone io, ?_, ?_, ?_⟩
    · intro L hL
      rw [List.mem_singleton.mp hL]
      exact next_frame_is_frame hq
    · rw [List.filterMap_cons_none hnone]
      rfl
    · rw [List.countP_singleton, hnone]
      rfl
  | unsent h hsend => exact ⟨_, hone _, h.passed rfl rfl⟩
  | unflushed h hsend hflush => exact ⟨_, hone _, h.passed rfl rfl⟩
  | flushing h hsend hflush => exact ⟨_, hone _, h.passed rfl rfl⟩
  | @round pending io io' buf calls r h hsend hflush hrest ih =>
    obtain ⟨frames, hqueue, hpassed⟩ := ih
    refine ⟨[io.frame] ++ frames, ?_, ?_⟩
    · rw [List.flatten_append, List.append_assoc, hqueue]
      exact hone io
    · have hfirst : Passed [io.frame] [.poll_ready (.ready (.ok ())), .start_send buf (.ok ()),
          .poll_flush (.ready (.ok ()))] 0 := h.passed rfl rfl
      rw [← Nat.zero_add (if r.isOk then 0 else 1)]
      exact hfirst.append hpassed

end MessageIo

end hypercore_protocol.mqueue

namespace hypercore_protocol.session

open Rust Method Wire Runs schema message channels mqueue protocol compact_encoding

variable {X : Deps} {σ : Type} [CipherTrait σ]

/-! ## The account -/

/-- What a step puts into the write queue: what is no local signal in a batch, and what a
command adds to it. -/
def adds (t : Happening X σ) : List (ChannelMessage X) :=
  match t.act with
  | .protocol (.outbound batch) => written batch
  | .protocol (.command _) =>
    t.post.protocol.io.write_queue.drop t.pre.protocol.io.write_queue.length
  | _ => []

/-- A command adds nothing, or it is one to open a key and adds its `Open`. Other commands tell
the remote nothing. -/
def AddsOpen (t : Happening X σ) : Prop :=
  ∀ c, t.act = .protocol (.command c) → adds t = [] ∨
    ∃ key i cap, c = .Open key ∧ adds t = [open_message i (discovery_key_of X key) cap]

section Adds

variable {t : Happening X σ} {move : Move X}

/-- The local id of an entry is a channel number other than 0, since the first slot of the table
is never given. -/
theorem local_id_numbered {m : ChannelMap X} (hm : m.Wf) {d : DiscoveryKey} {h : ChannelHandle}
    {ls : LocalState} (hd : m.channels d = some h) (hl : h.local_state = some ls) :
    1 ≤ UInt64.ofNat ls.local_id := by
  have hid : h.local_id = some ls.local_id := by
    rw [ChannelHandle.local_id, hl]
    rfl
  obtain ⟨hpos, hslot⟩ := (hm.fits hd).local_slot hid
  have hlt := Vec.lt_len_of_slot hslot
  have hle := m.local_id.len_le
  simp only [Vec.len, USIZE_MAX] at hlt hle
  rw [UInt64.le_iff_toNat_le, UInt64.toNat_ofNat', Nat.mod_eq_of_lt (by omega)]
  exact hpos

/-- What a command adds can be written, and is on a channel other than 0, so that a frame of it
is read back. -/
theorem command_adds {p p' : Protocol X σ} (hm : p.channels.Wf) {c : Command}
    (h : protocol_step p (.command c) p') :
    ∃ msgs, p'.io.write_queue = p.io.write_queue ++ msgs ∧
      (msgs = [] ∨ ∃ key i cap, c = .Open key ∧
        msgs = [open_message i (discovery_key_of X key) cap]) ∧
      ∀ msg ∈ msgs, msg.message.Encodable ∧ 1 ≤ msg.channel := by
  obtain ⟨rest, result, -, heff⟩ := command_effect hm h
  have hnone : ∀ msg ∈ ([] : List (ChannelMessage X)), msg.message.Encodable ∧ 1 ≤ msg.channel :=
    fun _ h => absurd h List.not_mem_nil
  cases heff with
  | opened hmap hd hl _ hcap =>
    exact ⟨_, rfl, Or.inr ⟨_, _, _, rfl, rfl⟩, List.forall_mem_singleton.mpr
      ⟨offers_encodable hcap _ _, local_id_numbered (hmap.wf hm) hd hl⟩⟩
  | accepted hmap hd hl _ _ hcap =>
    exact ⟨_, rfl, Or.inr ⟨_, _, _, rfl, rfl⟩, List.forall_mem_singleton.mpr
      ⟨offers_encodable hcap _ _, local_id_numbered (hmap.wf hm) hd hl⟩⟩
  | refused => exact ⟨[], (List.append_nil _).symm, Or.inl rfl, hnone⟩
  | close_absent => exact ⟨[], (List.append_nil _).symm, Or.inl rfl, hnone⟩
  | closed => exact ⟨[], (List.append_nil _).symm, Or.inl rfl, hnone⟩
  | signalled => exact ⟨[], (List.append_nil _).symm, Or.inl rfl, hnone⟩

omit [CipherTrait σ] in
theorem adds_command {c : Command} (hact : t.act = .protocol (.command c))
    {msgs : List (ChannelMessage X)}
    (hqueue : t.post.protocol.io.write_queue = t.pre.protocol.io.write_queue ++ msgs) :
    adds t = msgs := by
  rw [adds, hact]
  show t.post.protocol.io.write_queue.drop t.pre.protocol.io.write_queue.length = msgs
  rw [hqueue, List.drop_left]

/-- Every move but those of the connection adds to the queue what it puts there, behind what
waits. -/
theorem write_queue_adds (hm : t.pre.protocol.channels.Wf) (hact : t.act = .protocol move)
    (h : protocol_step t.pre.protocol move t.post.protocol) (hio : move ≠ .io) :
    t.post.protocol.io.write_queue = t.pre.protocol.io.write_queue ++ adds t := by
  cases move with
  | command c =>
    obtain ⟨msgs, hqueue, -⟩ := command_adds hm h
    rw [adds_command hact hqueue, hqueue]
  | inbound msg =>
    obtain ⟨result, heff⟩ := inbound_effect hm h
    rw [adds, hact, heff.io]
    exact (List.append_nil _).symm
  | outbound batch =>
    obtain ⟨rest, kept, q, -, heff, hpost⟩ := outbound_effect hm h
    obtain ⟨rfl, -⟩ := Protocol.BatchEffect.partitions heff
    rw [adds, hact, hpost]
    show q.io.write_queue ++ written batch = _
    rw [heff.io]
  | io => exact absurd rfl hio
  | handshake key =>
    rw [adds, hact]
    generalize t.post.protocol = p' at h
    cases h
    exact (List.append_nil _).symm
  | event e =>
    rw [adds, hact]
    generalize t.post.protocol = p' at h
    cases h
    exact (List.append_nil _).symm

theorem adds_open {s s' : Session X σ} {a : Action X} (hs : Inv s) (h : Step s a s') :
    AddsOpen (⟨s, a, s'⟩ : Happening X σ) := by
  rintro c rfl
  rcases h.move_or_aside with ⟨move, hact, hmove⟩ | ⟨hno, -⟩
  · obtain rfl := Action.protocol.inj hact
    obtain ⟨msgs, hqueue, hmsgs, -⟩ := command_adds hs.wf hmove
    rwa [adds_command rfl hqueue]
  · exact absurd rfl (hno _)

end Adds

/-- From `p` to `p'` the sink was called, and what `tr` put into the queue was written. -/
def WrittenTo (p : Protocol X (Logged σ)) (cut : ℕ) (tr : List (Happening X (Logged σ)))
    (p' : Protocol X (Logged σ)) : Prop :=
  ∃ calls frames, p'.io.stream.calls = p.io.stream.calls ++ calls ∧
    frames.flatten ++ p'.io.write_queue = p.io.write_queue ++ tr.flatMap adds ∧
    Passed frames calls cut

omit [CipherTrait σ] in
/-- A step without a call on the sink. -/
theorem writtenTo_quiet {t : Happening X (Logged σ)} {p p' : Protocol X (Logged σ)}
    (hcalls : p'.io.stream.calls = p.io.stream.calls)
    (hqueue : p'.io.write_queue = p.io.write_queue ++ adds t) : WrittenTo p 0 [t] p' := by
  refine ⟨[], [], hcalls.trans (List.append_nil _).symm, ?_, .nil rfl rfl⟩
  rw [List.flatMap_singleton]
  exact hqueue

omit [CipherTrait σ] in
theorem written_account : Account (WrittenTo (X := X) (σ := σ)) where
  refl p := ⟨[], [], (List.append_nil _).symm, (List.append_nil _).symm, .nil rfl rfl⟩
  trans := by
    rintro p p' p'' m n tr tr' ⟨calls, frames, hcalls, hqueue, h⟩
      ⟨calls', frames', hcalls', hqueue', h'⟩
    refine ⟨calls ++ calls', frames ++ frames', ?_, ?_, h.append h'⟩
    · rw [hcalls', hcalls, List.append_assoc]
    · calc (frames ++ frames').flatten ++ p''.io.write_queue
          = frames.flatten ++ (frames'.flatten ++ p''.io.write_queue) := by
            rw [List.flatten_append, List.append_assoc]
        _ = (frames.flatten ++ p'.io.write_queue) ++ tr'.flatMap adds := by
            rw [hqueue', List.append_assoc]
        _ = p.io.write_queue ++ (tr ++ tr').flatMap adds := by
            rw [hqueue, List.append_assoc, List.flatMap_append]
  aside {t} hno haside := by
    refine writtenTo_quiet (by rw [haside.io]) ?_
    rw [haside.io, adds]
    cases hact : t.act with
    | protocol move => exact absurd hact (hno move)
    | _ => exact (List.append_nil _).symm
  returned {t move} hact hreturns hio := by
    refine writtenTo_quiet (by rw [hio]) ?_
    rw [hio, adds, hact]
    cases move with
    | event e => exact (List.append_nil _).symm
    | handshake key => exact (List.append_nil _).symm
    | _ => exact hreturns.elim

/-! ## One poll -/

section

variable {s : Session X (Logged σ)} {p p' : Protocol X (Logged σ)}

/-- A handler calls nothing and puts into the queue what it puts there. -/
theorem Accounts.handled {move : Move X} (h : Accounts WrittenTo s p) (hs : Inv s)
    (hmove : protocol_step p move p') (hio : move ≠ .io) :
    Makes (WrittenTo s.protocol 0) s p' move.gives (Action.protocol move).sight := by
  have hm : p.channels.Wf := (h.inv hs).wf
  refine h.step written_account hs hmove fun t hpre hact hpost => ?_
  refine writtenTo_quiet (congrArg Logged.calls (protocol_step_stream hm hmove hio)) ?_
  rw [← hpre] at hm
  rw [← hpre, ← hpost] at hmove ⊢
  exact write_queue_adds hm hact hmove hio

/-- The connection does something that is no call on the sink. -/
theorem Accounts.received {stream : Logged σ} (h : Accounts WrittenTo s p) (hs : Inv s)
    (hkeeps : KeepsHandshake p.io.stream stream) (hcalls : stream.calls = p.io.stream.calls) :
    Accounts WrittenTo s { p with io := { p.io with stream := stream } } := by
  have hmove : protocol_step p .io { p with io := { p.io with stream := stream } } :=
    .io hkeeps (List.suffix_refl _)
  refine h.step written_account hs hmove fun t _ hact _ => writtenTo_quiet hcalls ?_
  rw [adds, hact]
  exact (List.append_nil _).symm

/-- A call of `poll_outbound` writes frames of the queue. -/
theorem written_poll_outbound (hcipher : LawfulCipher σ) (hs : Inv s) :
    Triple (Accounts WrittenTo s)
      (Protocol.on_io MessageIo.poll_outbound : ProtocolMethod X (Logged σ) (Poll Unit))
      (fun _ => Accounts WrittenTo s) (Excepts WrittenTo s) := by
  refine Protocol.triple_on_io fun p io hio => ?_
  obtain ⟨calls, r, io', hdrives, hrun, -, hcalls⟩ := MessageIo.poll_outbound_logged io
  obtain ⟨frames, hqueue, hpassed⟩ := hdrives.passed
  have hmove : protocol_step { p with io := io } .io { p with io := io' } :=
    .io ((logged_lawful hcipher).drives hdrives) ⟨_, hqueue⟩
  have hmakes : Makes (fun tr p => WrittenTo s.protocol (if r.isOk then 0 else 1) tr p) s
      { p with io := io' } [] [] := by
    refine Makes.step hio hs hmove fun tr t _ hact _ h => ?_
    rw [← Nat.zero_add (if r.isOk then 0 else 1)]
    refine written_account.trans h ⟨calls, frames, hcalls, ?_, hpassed⟩
    rw [List.flatMap_singleton, adds, hact]
    exact hqueue.trans (List.append_nil _).symm
  rw [hrun]
  cases r with
  | ok answer =>
    refine ⟨fun a io₁ h => ?_, fun e io₁ h => nomatch h⟩
    injection h with _ hio₁
    rw [← hio₁]
    exact hmakes
  | error f =>
    refine ⟨(fun a io₁ h => nomatch h), fun e io₁ h => ?_⟩
    injection h with _ hio₁
    rw [← hio₁]
    exact hmakes.mono fun _ h => ⟨1, Nat.le_refl _, h⟩

theorem written_write (hcipher : LawfulCipher σ) (hs : Inv s) :
    Triple (Accounts WrittenTo s)
      (Protocol.poll_outbound_write : ProtocolMethod X (Logged σ) Unit)
      (fun _ => Accounts WrittenTo s) (Excepts WrittenTo s) := by
  refine (Protocol.triple_poll_outbound_write_last (written_poll_outbound hcipher hs)
    fun p batch rest hp hq => ?_).conseq (fun _ h => h) (fun _ _ h => h.1) fun _ h => h
  refine (keeps_of_leaves (E := Accounts WrittenTo s) fun q p' hq' hl => ?_).conseq
    (fun _ h => h) (fun _ _ h => h) fun _ h => h.excepts
  rw [hq'] at hl
  have hstep : protocol_step p (.outbound batch) p' := .outbound hq hl
  exact hp.handled hs hstep fun h => nomatch h

theorem written_commands (hs : Inv s) :
    Keeps (Accounts WrittenTo s) (Protocol.poll_commands : ProtocolMethod X (Logged σ) Unit) := by
  refine (Protocol.triple_poll_commands fun p c rest hp hq =>
    keeps_of_leaves fun q p' hq' hl => ?_).conseq (fun _ h => h) (fun _ _ h => h.1) fun _ h => h
  rw [hq'] at hl
  have hstep : protocol_step p (.command c) p' := .command hq hl
  exact hp.handled hs hstep fun h => nomatch h

theorem written_read (hcipher : LawfulCipher σ) (hs : Inv s) (fuel : ℕ) :
    Keeps (Accounts WrittenTo s)
      (Protocol.poll_inbound_read fuel : ProtocolMethod X (Logged σ) Unit) := by
  have hlawful := logged_lawful hcipher
  refine Protocol.keeps_poll_inbound_read (D := fun _ => Accounts WrittenTo s) (fun p => ⟨?_, ?_⟩)
    (Protocol.triple_on_inbound_channel_messages (fun msg _ => keeps_of_leaves fun p p' hp hl => ?_)
      fun _ hp => hp) fuel
  · exact fun io hio _ =>
      hio.received (p := { p with io := io }) hs (hlawful.poll_next io.stream) rfl
  · intro io bs hio _
    have h := hio.received (p := { p with io := io }) hs (hlawful.poll_next io.stream) rfl
    exact ⟨fun _ _ _ => h, fun _ _ => h⟩
  · have hstep : protocol_step p (.inbound msg) p' := .inbound hl
    exact hp.handled hs hstep fun h => nomatch h

end

/-! ## A session -/

theorem polls_written {s : Session X (Logged σ)} (hcipher : LawfulCipher σ) {stream : σ}
    {polls : List (Transition (Session X (Logged σ)) (PollAction X))}
    (run : Run PollStep (Session.new ⟨stream, []⟩) polls s)
    (hnet : ∀ t ∈ polls, t.act = .net →
      t.post.protocol.io.stream.calls = t.pre.protocol.io.stream.calls) :
    ∃ tr cut, Run Step (Session.new ⟨stream, []⟩) tr s ∧
      (tr.flatMap fun t => t.act.sight) = (polls.flatMap fun t => t.act.sight) ∧
      WrittenTo (Protocol.new ⟨stream, []⟩) cut tr s.protocol ∧ cut ≤ failures polls :=
  polls_account written_account (fun _ hs fuel =>
    poll_next_accounts written_account hs
      ((written_read hcipher hs fuel).conseq (fun _ h => h) (fun _ _ h => h) fun _ h => h.excepts)
      ((written_commands hs).conseq (fun _ h => h) (fun _ _ h => h) fun _ h => h.excepts)
      (written_write hcipher hs))
    run fun t ht hact hqueue =>
      writtenTo_quiet (hnet t ht hact) (hqueue.trans (List.append_nil _).symm)

/-- A connection whose sink is ready and refuses every frame. -/
structure Refusing where
  stream : Memory

instance : CipherTrait Refusing where
  is_initiator self := CipherTrait.is_initiator self.stream
  local_public_key self := CipherTrait.local_public_key self.stream
  remote_public_key self := CipherTrait.remote_public_key self.stream
  handshake_hash self := CipherTrait.handshake_hash self.stream
  poll_next self := (.pending, self)
  poll_ready self := (.ready (.ok ()), self)
  start_send self _ := (.error ⟨.BrokenPipe, "broken pipe"⟩, self)
  poll_flush self := (.ready (.ok ()), self)

theorem refusing_lawful : LawfulCipher Refusing where
  poll_next _ := .refl _
  poll_ready _ := .refl _
  start_send _ _ := .refl _
  poll_flush _ := .refl _

/-- The application has asked for two keys. -/
def asks_two (stream : σ) : Session deps σ :=
  let s : Session deps σ := Session.new stream
  { s with protocol := { s.protocol with command_rx := [.Open (sample 1), .Open (sample 2)] } }

theorem asks_two_run (stream : σ) : ∃ calls, Run PollStep (Session.new stream) calls
    (asks_two stream) ∧ ∀ t ∈ calls, ∃ c, t.act = .app (.queue_command c) := by
  have run₀ : Run PollStep (Session.new stream : Session deps σ) [] (Session.new stream) := .nil
  have run₁ := run₀.snoc (.app
    (.queue_command (.Open (sample 1)) (show 0 < CHANNEL_CAP by decide)) (fun _ h => nomatch h))
  have run₂ := run₁.snoc (.app
    (.queue_command (.Open (sample 2)) (show 1 < CHANNEL_CAP by decide)) (fun _ h => nomatch h))
  exact ⟨_, run₂, List.forall_mem_cons.mpr ⟨⟨_, rfl⟩, List.forall_mem_singleton.mpr ⟨_, rfl⟩⟩⟩

omit [CipherTrait σ] in
theorem failures_of_commands {calls polls : List (Transition (Session X σ) (PollAction X))}
    (h : ∀ t ∈ calls, ∃ c, t.act = .app (.queue_command c)) :
    failures (calls ++ polls) = failures polls := by
  have hnone : failures calls = 0 := by
    refine List.countP_eq_zero.mpr fun t ht => ?_
    obtain ⟨c, hact⟩ := h t ht
    rw [hact]
    exact Bool.false_ne_true
  rw [failures, List.countP_append, ← failures, ← failures, hnone, Nat.zero_add]

omit [CipherTrait σ] in
/-- Neither commands nor polls are moves of the connection, and nothing is sent. -/
theorem not_net_or_send {calls polls : List (Transition (Session X σ) (PollAction X))}
    (h : ∀ t ∈ calls, ∃ c, t.act = .app (.queue_command c))
    (h' : ∀ t ∈ polls, ∃ result, t.act = .poll result) :
    ∀ t ∈ calls ++ polls, t.act ≠ .net ∧ ∀ c messages, t.act ≠ .app (.send c messages) := by
  intro t ht
  rcases List.mem_append.mp ht with ht | ht
  · obtain ⟨c, hact⟩ := h t ht
    rw [hact]
    exact ⟨(fun h => nomatch h), fun _ _ h => nomatch h⟩
  · obtain ⟨result, hact⟩ := h' t ht
    rw [hact]
    exact ⟨(fun h => nomatch h), fun _ _ h => nomatch h⟩

end hypercore_protocol.session
