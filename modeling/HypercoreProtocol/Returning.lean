/-
A poll comes back.

A task that polls the protocol depends on two things that no postcondition says. A poll
has to end, although it reads for as long as the connection has something; and it must
not panic, since then the task is gone with all its channels. `poll_returns` is both, for
every session that an application can get to: if the connection has a finite backlog, the
poll ends, and when it does not come back, then for one of the causes that `Halts` lists. A
table of ids or a frame does not fit into memory, an id is the largest one there is, or a
decoder of another crate has panicked on what the remote has sent. The `unwrap`s, the
`expect`, the `unreachable!` and the `unimplemented!` on the way are never met, and no index
is out of bounds.

What this rests on is `Sound`: entries that the remote has opened are there only once the
handshake is over, and everything that waits to be written can be written.
-/
import HypercoreProtocol.Acceptance
import HypercoreProtocol.Queues
import HypercoreProtocol.Decoding
import HypercoreProtocol.Writing
import HypercoreProtocol.Outbound
import HypercoreProtocol.Lib.Ends

set_option autoImplicit false

namespace hypercore_protocol.session

open Rust Method Wire Runs schema message channels mqueue protocol crypto compact_encoding

variable {X : Deps} {σ : Type} [CipherTrait σ] {s s' : Session X σ} {p p' : Protocol X σ}

/-! ## Connections -/

/-- A connection that has a finite number of events to give: each one that is read leaves fewer,
and no call adds to them. -/
structure Backlog (σ : Type) [CipherTrait σ] where
  size : σ → ℕ
  event : ∀ (stream : σ) e, (CipherTrait.poll_next stream).1 = .ready (some e) →
    size (CipherTrait.poll_next stream).2 < size stream
  poll_next : ∀ stream : σ, size (CipherTrait.poll_next stream).2 ≤ size stream
  poll_ready : ∀ stream : σ, size (CipherTrait.poll_ready stream).2 ≤ size stream
  start_send : ∀ (stream : σ) buf, size (CipherTrait.start_send stream buf).2 ≤ size stream
  poll_flush : ∀ stream : σ, size (CipherTrait.poll_flush stream).2 ≤ size stream

/-- Calls on a connection, in any order: all that a protocol can do with it. -/
inductive Uses (stream : σ) : σ → Prop where
  | refl : Uses stream stream
  | poll_next {b : σ} (h : Uses stream b) : Uses stream (CipherTrait.poll_next b).2
  | poll_ready {b : σ} (h : Uses stream b) : Uses stream (CipherTrait.poll_ready b).2
  | start_send {b : σ} (buf : Bytes) (h : Uses stream b) :
      Uses stream (CipherTrait.start_send b buf).2
  | poll_flush {b : σ} (h : Uses stream b) : Uses stream (CipherTrait.poll_flush b).2

/-- The connection gives this frame when it is used, in whatever way the protocol uses it. -/
def Gives (stream : σ) (bs : Bytes) : Prop :=
  ∃ before, Uses stream before ∧ (CipherTrait.poll_next before).1 = .ready (some (.Message bs))

/-- The hash of the handshake can key a digest, which takes 64 bytes at most. A longer one would
be the panic of an `unwrap`. -/
def ShortHash (σ : Type) [CipherTrait σ] : Prop :=
  ∀ (stream : σ) hash, CipherTrait.handshake_hash stream = some hash → hash.val.length ≤ 64

/-! ## What can be written -/

/-- A message that an application may send: a local signal, or one that can be written. Others
are excluded, since they stop the encoder. -/
def Sendable (msg : Message X) : Prop := msg.local_signal = none → msg.Encodable

structure Sound (p : Protocol X σ) : Prop where
  wf : p.channels.Wf
  opened : OpenedReady p
  outbound : ∀ batch ∈ p.outbound_rx, ∀ msg ∈ batch, Sendable msg.message
  queue : ∀ msg ∈ p.io.write_queue, msg.message.Encodable

theorem command_encodable {c : Command} {result : Option IoError}
    (h : Protocol.CommandEffect p c result p')
    (hq : ∀ msg ∈ p.io.write_queue, msg.message.Encodable) :
    ∀ msg ∈ p'.io.write_queue, msg.message.Encodable := by
  have hsnoc : ∀ {msg : ChannelMessage X}, msg.message.Encodable →
      ∀ m ∈ p.io.write_queue ++ [msg], m.message.Encodable :=
    fun hmsg => List.forall_mem_append.mpr ⟨hq, List.forall_mem_singleton.mpr hmsg⟩
  cases h with
  | opened hmap hd hl hr hcap => exact hsnoc (offers_encodable hcap _ _)
  | accepted hmap hd hl hr hv hcap => exact hsnoc (offers_encodable hcap _ _)
  | _ => exact hq

theorem Sound.step {move : Move X} (hp : Sound p) (h : protocol_step p move p')
    (hmsg : ∀ msg, move = .inbound msg → p.Ready) : Sound p' where
  wf := protocol_step_wf hp.wf h
  opened := protocol_step_opened_ready hp.wf h hmsg hp.opened
  outbound := by
    rcases protocol_step_outbound_rx hp.wf h with ⟨batch, -, hq⟩ | ⟨-, hq⟩
    · have hall := hp.outbound
      rw [hq] at hall
      exact fun b hb => hall b (List.mem_cons_of_mem _ hb)
    · rw [hq]
      exact hp.outbound
  queue := by
    cases move with
    | command c =>
      obtain ⟨rest, result, -, heff⟩ := command_effect hp.wf h
      exact command_encodable heff hp.queue
    | inbound msg =>
      obtain ⟨result, heff⟩ := inbound_effect hp.wf h
      rw [heff.io]
      exact hp.queue
    | outbound batch =>
      obtain ⟨rest, kept, q, hrx, heff, rfl⟩ := outbound_effect hp.wf h
      obtain ⟨rfl, -⟩ := Protocol.BatchEffect.partitions heff
      have hkept : ∀ msg ∈ written batch, msg.message.Encodable := fun msg hmsg =>
        hp.outbound batch (hrx ▸ List.mem_cons_self) msg (List.mem_filter.mp hmsg).1
          (local_signal_of_mem_written hmsg)
      show ∀ msg ∈ q.io.write_queue ++ written batch, msg.message.Encodable
      rw [heff.io]
      exact List.forall_mem_append.mpr ⟨hp.queue, hkept⟩
    | io =>
      cases h with
      | io hs hq => exact fun msg hm => hp.queue msg (hq.subset hm)
    | handshake key => cases h; exact hp.queue
    | event e => cases h; exact hp.queue

/-! ## Why a poll does not come back -/

/-- Moves have taken the protocol from `p₀` to `p`. The causes below are met in such states. -/
def Visits (p₀ p : Protocol X σ) : Prop :=
  Relation.ReflTransGen (fun p p' => ∃ move, protocol_step p move p') p₀ p

/-- The message is in a frame that the connection of `p₀` gives, so that the cause lies in what
the remote has sent. -/
def Arrives (p₀ : Protocol X σ) (msg : ChannelMessage X) : Prop :=
  ∃ bs messages rest, Gives p₀.io.stream bs ∧ vec_decode X bs = .ok (messages, rest) ∧
    msg ∈ messages

/-- **The causes.** What keeps a poll that starts in `p₀` from coming back. Each of them is
met in a state in which the poll has got to, `p`, and says which panic follows. -/
inductive Halts (p₀ : Protocol X σ) : Abort → Prop where
  /-- A command opens a key, and no local id is free: every slot of the table is taken, and
  the table is as large as one can be. -/
  | local_ids {p : Protocol X σ} {key : Key} (hcommand : .Open key ∈ p₀.command_rx)
      (hvisits : Visits p₀ p) (h : ¬ p.channels.HasRoom) : Halts p₀ (.panic .capacity_overflow)
  /-- The remote opens a channel whose id has no slot in any table that fits into memory. -/
  | remote_ids {p : Protocol X σ} {msg : ChannelMessage X} {o : Open} (hmsg : Arrives p₀ msg)
      (hopen : msg.message = .Open o) (hvisits : Visits p₀ p)
      (h : ¬ p.channels.TakesRemote msg.channel.toNat) : Halts p₀ (.panic .capacity_overflow)
  /-- The remote opens the largest id: the length of its table is not a number any more. -/
  | largest_id {msg : ChannelMessage X} {o : Open} (hmsg : Arrives p₀ msg)
      (hopen : msg.message = .Open o) (h : msg.channel.toNat = USIZE_MAX) :
      Halts p₀ (.panic .overflow)
  /-- A frame of the write queue is too long for a buffer. -/
  | frame {p : Protocol X σ} {L : List (ChannelMessage X)} (hvisits : Visits p₀ p)
      (hframe : IsFrame L) (hmem : ∀ msg ∈ L, msg ∈ p.io.write_queue) (h : TooLong L) :
      Halts p₀ (.panic .capacity_overflow)
  /-- A decoder of another crate does not come back, on a part of a frame that has
  arrived. -/
  | decoder {bs b : Bytes} {a : Abort} (hgives : Gives p₀.io.stream bs) (hsuffix : b <:+ bs)
      (h : X.Aborts b a) : Halts p₀ a

/-! ## The handlers -/

/-- Before the handshake is over there is no capability to compute, and no digest that could
panic. -/
theorem capability_none (hshort : ShortHash σ) (hready : ¬ p.Ready) (key : Bytes) :
    (Protocol.capability key).run p = .ok none p := by
  cases hhs : p.handshake_result with
  | none =>
    simp only [Protocol.capability, EStateM.run_bind, EStateM.run_get, hhs, EStateM.run_pure]
  | some hs =>
    obtain ⟨k, hash, hk, hhash, -⟩ := Protocol.handshake_result_eq_some hhs
    exact absurd ⟨k, hash, hk, hhash, hshort _ hash hhash⟩ hready

/-- An entry that the remote has not opened is opened without looking at the handshake. So a
command before the handshake cannot panic for want of it. -/
theorem command_open_returns (hshort : ShortHash σ) (hp : Sound p) (hready : ¬ p.Ready)
    (key : Key) :
    (∃ p', (Protocol.command_open key).run p = .ok () p') ∨
      (¬ p.channels.HasRoom ∧
        (Protocol.command_open key).run p = .error (.panic .capacity_overflow) p) := by
  rcases Protocol.attach_local_effect hp.wf key with
    ⟨i, h, m, hattach, -, hd, hl, -, hr⟩ | ⟨hroom, hattach⟩
  · have hnone : h.remote_state = none := by
      rw [hr]
      rcases entry_cases p.channels (discovery_key_of X key) with hold | ⟨-, hnone, -⟩
      · cases hrs : (p.channels.entry (discovery_key_of X key)).remote_state with
        | none => rfl
        | some rs => exact absurd (hp.opened _ _ rs hold hrs) hready
      · exact hnone
    have hlid : h.local_id = some i := by rw [ChannelHandle.local_id, hl]; rfl
    have hconn : h.is_connected = false := by simp [ChannelHandle.is_connected, hnone]
    have hcap := capability_none (p := { p with channels := m }) hshort hready key.val
    left
    simp only [Protocol.command_open, EStateM.run_bind, Protocol.run_on_channels, hattach, hlid,
      hconn, run_unwrap_some, hcap, Bool.false_eq_true, if_false]
    exact ⟨_, rfl⟩
  · refine Or.inr ⟨hroom, ?_⟩
    simp only [Protocol.command_open, EStateM.run_bind, Protocol.run_on_channels, hattach]

omit [CipherTrait σ] in
/-- A call that has an outcome ends. The specifications of the handlers are turned into
statements about ending by this. -/
theorem ends_outcome {P : Protocol X σ → Prop} {F : Abort → Prop} {m : ProtocolMethod X σ Unit}
    (h : ∀ p, P p → (∃ result p', m.run p = outcome result p') ∨
      ∃ pan p', m.run p = .error (.panic pan) p' ∧ F (.panic pan)) : Ends P m F := by
  refine ends_of_cases fun p hp => ?_
  rcases h p hp with ⟨result, p', hrun⟩ | ⟨pan, p', hrun, hpan⟩
  · cases result with
    | none => exact Or.inl ⟨(), p', hrun⟩
    | some e => exact Or.inr (Or.inl ⟨e, p', hrun⟩)
  · exact Or.inr (Or.inr ⟨.panic pan, p', hrun, hpan⟩)

variable {p₀ : Protocol X σ}

/-- Only a command that opens a key can panic, and only for want of a local id. -/
theorem on_command_ends (hshort : ShortHash σ) {c : Command} (hc : c ∈ p₀.command_rx) :
    Ends (fun p : Protocol X σ => Sound p ∧ ∃ q, Visits p₀ q ∧ q.channels = p.channels)
      (Protocol.on_command c) (Halts p₀) := by
  refine ends_outcome fun p ⟨hp, q, hvisits, hmap⟩ => ?_
  have hhalts : ∀ {key}, c = .Open key → ¬ p.channels.HasRoom →
      Halts p₀ (.panic .capacity_overflow) :=
    fun hkey hroom => .local_ids (hkey ▸ hc) hvisits (hmap ▸ hroom)
  rcases Protocol.on_command_spec hp.wf c with
    ⟨result, p', -, hrun⟩ | ⟨pan, p', hpanic, hrun⟩
  · exact Or.inl ⟨result, p', hrun⟩
  cases c with
  | Open key =>
    rcases hpanic with ⟨rfl, hroom⟩ | ⟨-, hready⟩
    · exact Or.inr ⟨_, p', hrun, hhalts rfl hroom⟩
    · rcases command_open_returns hshort hp hready key with ⟨q, hq⟩ | ⟨hroom, hq⟩
      · exact Or.inl ⟨none, q, hq⟩
      · exact Or.inr ⟨_, p, hq, hhalts rfl hroom⟩
  | Close d =>
    cases hd : p.channels.channels d with
    | none => simp [Protocol.on_command, Protocol.command_close, ChannelMap.has_channel, hd] at hrun
    | some h =>
      obtain ⟨m, hremove, -⟩ := Protocol.remove_spec hp.wf hd
      simp [Protocol.on_command, Protocol.command_close, ChannelMap.has_channel, hd,
        hremove] at hrun
  | SignalLocal name data => cases hrun

/-- Only an `Open` of the remote can panic, and only because of its id, once the handshake is
over. -/
theorem on_inbound_message_ends {msg : ChannelMessage X} (hmsg : Arrives p₀ msg) :
    Ends (fun p : Protocol X σ => (Sound p ∧ p.Ready) ∧ Visits p₀ p)
      (Protocol.on_inbound_message msg) (Halts p₀) := by
  refine ends_outcome fun p ⟨hp, hvisits⟩ => ?_
  rcases Protocol.on_inbound_message_spec hp.1.wf msg with
    ⟨result, p', -, hrun⟩ | ⟨pan, p', ⟨o, hopen, -, ⟨rfl, h⟩ | ⟨rfl, h⟩ | ⟨-, hready⟩⟩, hrun⟩
  · exact Or.inl ⟨result, p', hrun⟩
  · exact Or.inr ⟨_, p', hrun, .remote_ids hmsg hopen hvisits h⟩
  · exact Or.inr ⟨_, p', hrun, .largest_id hmsg hopen h⟩
  · exact absurd hp.2 hready

omit [CipherTrait σ] in
theorem on_outbound_batch_ends {F : Abort → Prop} (batch : List (ChannelMessage X)) :
    Ends (fun p : Protocol X σ => p.channels.Wf) (Protocol.on_outbound_batch batch) F :=
  ends_of_ok fun p hm => by
    obtain ⟨kept, p', -, hrun⟩ := Protocol.on_outbound_batch_spec hm batch
    exact ⟨(), _, hrun⟩

/-! ## The message layer -/

section

variable (hX : X.Lawful) (halloc : X.AllocatesOrPanics) (hshortens : X.Shortens)

include hX halloc in
/-- Writing ends, or a frame of the queue is too long. Everything in the queue may be written, so
nothing else can stop it. -/
theorem poll_outbound_ends {io₀ : MessageIo X σ}
    (hqueue : ∀ msg ∈ io₀.write_queue, msg.message.Encodable) :
    Ends (· = io₀) MessageIo.poll_outbound fun a => a = .panic .capacity_overflow ∧
      ∃ L, IsFrame L ∧ (∀ msg ∈ L, msg ∈ io₀.write_queue) ∧ TooLong L := by
  rintro io rfl f io' hrun
  obtain ⟨calls, hdrives⟩ := MessageIo.drives_of_run (r := .error f) hrun
  rcases hdrives.fault with ⟨_, -, e, -, rfl⟩ | ⟨L, hframe, hL, hf⟩
  · exact Or.inl ⟨e, rfl⟩
  · rcases to_encoded_bytes_encodable hX halloc fun msg hmsg => hqueue msg (hL msg hmsg) with
      ⟨b, hb⟩ | ⟨hlong, hb⟩
    · rw [hb] at hf
      cases hf
    · rw [hb] at hf
      exact Or.inr
        ⟨.panic .capacity_overflow, (Except.error.inj hf).symm, rfl, L, hframe, hL, hlong⟩

omit [CipherTrait σ] in
theorem on_stream_ends {α : Type} {P : MessageIo X σ → Prop} {F : Abort → Prop} {op : σ → α × σ} :
    Ends P (MessageIo.on_stream op) F :=
  ends_of_ok fun _ _ => ⟨_, _, rfl⟩

include hshortens in
/-- Reading ends, since every event takes something off the backlog; or a decoder does not
come back. -/
theorem poll_inbound_ends (B : Backlog σ) (stream : σ) (fuel : ℕ) :
    Ends (fun io : MessageIo X σ => B.size io.stream < fuel ∧ Uses stream io.stream)
      (MessageIo.poll_inbound fuel)
      fun a => ∃ bs b, Gives stream bs ∧ b <:+ bs ∧ X.Aborts b a := by
  induction fuel with
  | zero => exact fun _ h => absurd h.1 (Nat.not_lt_zero _)
  | succ fuel ih =>
    refine ends_bind (E := fun _ => True) on_stream_ends (MessageIo.triple_on_stream
      (Q := fun event io => Uses stream io.stream ∧
        (∀ e, event = .ready (some e) → B.size io.stream < fuel) ∧
        ∀ bs, event = .ready (some (.Message bs)) → Gives stream bs)
      fun io hio => ⟨hio.2.poll_next, fun e he => ?_, fun bs hbs => ⟨io.stream, hio.2, hbs⟩⟩)
      fun event => ?_
    · exact Nat.lt_of_lt_of_le (B.event io.stream e he) (Nat.le_of_lt_succ hio.1)
    match event with
    | .pending => exact ends_pure
    | .ready none => exact ends_pure
    | .ready (some (.HandshakePayload _)) =>
      exact ih.conseq (fun _ hio => ⟨hio.2.1 _ rfl, hio.1⟩) fun _ ha => ha
    | .ready (some (.ErrStuff e)) => exact ends_throw
    | .ready (some (.Message bs)) =>
      refine ends_bind (Q := fun _ _ => True) (E := fun _ => True) (ends_of_forall fun io hio =>
        ends_lift fun f hf => ?_) (triple_lift (fun _ _ _ _ => trivial) fun _ _ _ _ => trivial)
        fun _ => ends_pure
      rcases Returns.map_err (vec_decode_loop_returns hshortens.consuming bs.length bs []
        (Nat.le_refl _)) X.into_io_error with ⟨x, hx, -⟩ | ⟨e, he⟩ | ⟨a, ha, b, hsuffix, haborts⟩
      · exact nomatch hx.symm.trans hf
      · exact Or.inl ⟨e, (Except.error.inj (he.symm.trans hf)).symm⟩
      · exact Or.inr ⟨a, (Except.error.inj (ha.symm.trans hf)).symm, bs, b, hio.2.2 bs rfl, hsuffix,
          haborts⟩

end

/-! ## On the way -/

/-- **Where a poll is.** It started in `p₀` and has got to `p`: the state is sound, the
connection has less than `n` events to give and is what its use from `p₀` on made of it, and
the commands that are left are the last ones of `p₀`. -/
structure Within (p₀ : Protocol X σ) (B : Backlog σ) (n : ℕ) (p : Protocol X σ) : Prop where
  sound : Sound p
  size : B.size p.io.stream < n
  visits : Visits p₀ p
  uses : Uses p₀.io.stream p.io.stream
  commands : p.command_rx <:+ p₀.command_rx

variable {B : Backlog σ} {n : ℕ}

theorem within_self (hs : Sound p) (hsize : B.size p.io.stream < n) : Within p B n p :=
  ⟨hs, hsize, .refl, .refl, List.suffix_refl _⟩

/-- A handler leaves the connection alone and takes at most a command, so that the bound on what
is left stays. -/
theorem Within.step {move : Move X} (hp : Within p₀ B n p) (h : protocol_step p move p')
    (hno : move ≠ .io) (hmsg : ∀ msg, move = .inbound msg → p.Ready) : Within p₀ B n p' where
  sound := hp.sound.step h hmsg
  size := by
    rw [protocol_step_stream hp.sound.wf h hno]
    exact hp.size
  visits := hp.visits.tail ⟨move, h⟩
  uses := by
    rw [protocol_step_stream hp.sound.wf h hno]
    exact hp.uses
  commands := by
    rcases protocol_step_command_rx hp.sound.wf h with ⟨c, -, hq⟩ | ⟨-, hq⟩
    · exact (hq ▸ List.suffix_cons c p'.command_rx).trans hp.commands
    · exact hq ▸ hp.commands

/-- The connection is used, and messages may have been taken off the queue. What can be read is
bounded by `k` now. -/
theorem Within.io {stream : σ} {write_queue : List (ChannelMessage X)} (hp : Within p₀ B n p)
    (huses : Uses p₀.io.stream stream) (hkeeps : KeepsHandshake p.io.stream stream)
    (hqueue : write_queue <:+ p.io.write_queue) {k : ℕ} (hk : B.size stream < k) :
    Within p₀ B k { p with io := ⟨stream, write_queue⟩ } := by
  have hstep : protocol_step p .io { p with io := ⟨stream, write_queue⟩ } := .io hkeeps hqueue
  exact ⟨hp.sound.step hstep fun _ h => (nomatch h), hk, hp.visits.tail ⟨_, hstep⟩, huses,
    hp.commands⟩

/-- Writing gives the connection nothing to read, so that the bound stays as it is. -/
theorem within_outbound_round (hcipher : LawfulCipher σ) (p₀ : Protocol X σ) (B : Backlog σ)
    (n : ℕ) (p : Protocol X σ) :
    MessageIo.OutboundRound fun io => Within p₀ B n { p with io := io } where
  ready io hio := hio.io (p := { p with io := io }) hio.uses.poll_ready
    (hcipher.poll_ready io.stream) (List.suffix_refl _)
    (Nat.lt_of_le_of_lt (B.poll_ready io.stream) hio.size)
  flush io hio := hio.io (p := { p with io := io }) hio.uses.poll_flush
    (hcipher.poll_flush io.stream) (List.suffix_refl _)
    (Nat.lt_of_le_of_lt (B.poll_flush io.stream) hio.size)
  frame io _ _ hio _ hframe :=
    have hqueue := next_frame_suffix hframe
    ⟨fun buf _ => hio.io (p := { p with io := io }) (hio.uses.start_send buf)
        (hcipher.start_send io.stream buf) hqueue
        (Nat.lt_of_le_of_lt (B.start_send io.stream buf) hio.size),
      fun _ _ => hio.io (p := { p with io := io }) hio.uses (.refl _) hqueue hio.size⟩

/-- A message that is read was in the backlog, and there is one less after it. -/
theorem within_inbound_round (hcipher : MessageCipher σ) (p₀ : Protocol X σ) (B : Backlog σ)
    (n : ℕ) (p : Protocol X σ) :
    MessageIo.InboundRound (fun io => Within p₀ B (n + 1) { p with io := io }) fun messages io =>
      (Within p₀ B n { p with io := io } ∧ Protocol.Ready { p with io := io }) ∧
        ∀ msg ∈ messages, Arrives p₀ msg where
  other io hio _ := hio.io (p := { p with io := io }) hio.uses.poll_next
    (hcipher.poll_next io.stream) (List.suffix_refl _)
    (Nat.lt_of_le_of_lt (B.poll_next io.stream) hio.size)
  message io bs hio hbs := by
    have hless := Nat.lt_of_lt_of_le (B.event io.stream _ hbs) (Nat.le_of_lt_succ hio.size)
    have hafter : ∀ {k}, B.size (CipherTrait.poll_next io.stream).2 < k →
        Within p₀ B k { p with io := { io with stream := (CipherTrait.poll_next io.stream).2 } } :=
      hio.io (p := { p with io := io }) hio.uses.poll_next
        (hcipher.poll_next io.stream) (List.suffix_refl _)
    refine ⟨fun messages rest hdecode => ⟨⟨hafter hless, hcipher.message io.stream bs hbs⟩, ?_⟩,
      fun _ _ => hafter (Nat.lt_succ_of_lt hless)⟩
    exact fun msg hmsg => ⟨bs, messages, rest, ⟨io.stream, hio.uses, hbs⟩, hdecode, hmsg⟩

/-! ## The loops -/

section

variable (hX : X.Lawful) (halloc : X.AllocatesOrPanics) (hshortens : X.Shortens)
  (hcipher : MessageCipher σ)

/-- With these messages of a frame in hand, all of which arrived in it. -/
def WithMessages (p₀ : Protocol X σ) (B : Backlog σ) (n : ℕ) (messages : List (ChannelMessage X))
    (p : Protocol X σ) : Prop :=
  (Within p₀ B n p ∧ p.Ready) ∧ ∀ msg ∈ messages, Arrives p₀ msg

theorem triple_inbound_within (msg : ChannelMessage X) (messages : List (ChannelMessage X)) :
    Triple (WithMessages p₀ B n (msg :: messages)) (Protocol.on_inbound_message msg)
      (fun _ => WithMessages p₀ B n messages) (Within p₀ B n) := by
  refine (keeps_of_leaves (E := WithMessages p₀ B n messages) fun p p' hp hl => ?_).conseq
    (fun _ hp => hp) (fun _ _ h => h) fun _ h => h.1.1
  have hstep : protocol_step p (.inbound msg) p' := .inbound hl
  exact ⟨⟨hp.1.1.step hstep (fun h => nomatch h) fun _ _ => hp.1.2,
    ready_of_keeps (protocol_step_handshake hp.1.1.sound.wf hstep).2 hp.1.2⟩,
    fun m hm => hp.2 m (List.mem_cons_of_mem _ hm)⟩

theorem on_inbound_channel_messages_ends (messages : List (ChannelMessage X)) :
    Ends (WithMessages p₀ B n messages) (Protocol.on_inbound_channel_messages messages)
      (Halts p₀) := by
  induction messages with
  | nil => exact ends_pure
  | cons msg messages ih =>
    refine ends_bind (ends_of_forall fun p hp => ?_) (triple_inbound_within msg messages)
      fun _ => ih
    exact (on_inbound_message_ends (hp.2 msg List.mem_cons_self)).conseq
      (fun _ hq => hq ▸ ⟨⟨hp.1.1.sound, hp.1.2⟩, hp.1.1.visits⟩) fun _ ha => ha

theorem triple_messages_within (messages : List (ChannelMessage X)) :
    Triple (WithMessages p₀ B n messages) (Protocol.on_inbound_channel_messages messages)
      (fun _ => Within p₀ B n) (Within p₀ B n) :=
  Protocol.triple_on_inbound_channel_messages triple_inbound_within (fun _ hp => hp.1.1) messages

include hcipher in
theorem keeps_within_read (fuel : ℕ) :
    Keeps (Within p₀ B (n + 1)) (Protocol.poll_inbound_read fuel : ProtocolMethod X σ Unit) := by
  have hmore : ∀ p : Protocol X σ, Within p₀ B n p → Within p₀ B (n + 1) p :=
    fun _ hp => ⟨hp.sound, Nat.lt_succ_of_lt hp.size, hp.visits, hp.uses, hp.commands⟩
  exact Protocol.keeps_poll_inbound_read (within_inbound_round hcipher p₀ B n)
    (fun messages => (triple_messages_within messages).conseq (fun _ h => h)
      (fun _ p h => hmore p h) hmore) fuel

include hshortens hcipher in
theorem poll_inbound_read_ends (fuel : ℕ) :
    Ends (Within p₀ B fuel) (Protocol.poll_inbound_read fuel : ProtocolMethod X σ Unit)
      (Halts p₀) := by
  induction fuel with
  | zero => exact fun _ hp => absurd hp.size (Nat.not_lt_zero _)
  | succ fuel ih =>
    refine ends_bind (Q := fun answer p =>
      MessageIo.Answered (fun io => Within p₀ B (fuel + 1) { p with io := io })
        (fun messages io => WithMessages p₀ B fuel messages { p with io := io }) answer p.io)
      (ends_on fun p hp => (poll_inbound_ends hshortens B p₀.io.stream (fuel + 1)).conseq
        (fun io hio => hio ▸ ⟨hp.size, hp.uses⟩) ?_)
      (Protocol.triple_on_io fun p =>
        MessageIo.triple_poll_inbound (within_inbound_round hcipher p₀ B fuel p) (fuel + 1))
      fun answer => ?_
    · rintro a ⟨bs, b, hgives, hsuffix, haborts⟩
      exact .decoder hgives hsuffix haborts
    match answer with
    | .pending => exact ends_pure
    | .ready none => exact ends_pure
    | .ready (some messages) =>
      exact ends_bind (on_inbound_channel_messages_ends messages)
        (triple_messages_within messages) fun _ => ih

include hcipher in
/-- Writing frames leaves the batches that wait where they are. -/
theorem keeps_within_io (C : List (List (ChannelMessage X)) → Prop) :
    Keeps (fun p : Protocol X σ => Within p₀ B n p ∧ C p.outbound_rx)
      (Protocol.on_io MessageIo.poll_outbound) := by
  refine Protocol.keeps_on_io fun p => ?_
  by_cases hC : C p.outbound_rx
  · exact (MessageIo.keeps_poll_outbound
      (within_outbound_round hcipher.toLawfulCipher p₀ B n p)).conseq (fun _ h => h.1)
      (fun _ _ h => ⟨h, hC⟩) fun _ h => ⟨h, hC⟩
  · exact fun io hio => absurd hio.2 hC

include hX halloc hcipher in
/-- A round for every batch that waits, and a last one. The fuel of the loop is one more than
there are batches. -/
theorem poll_outbound_write_ends :
    Ends (Within p₀ B n) (Protocol.poll_outbound_write : ProtocolMethod X σ Unit) (Halts p₀) := by
  have hloop : ∀ fuel, Ends (fun p : Protocol X σ => Within p₀ B n p ∧ p.outbound_rx.length < fuel)
      (Protocol.poll_outbound_write_loop fuel) (Halts p₀) := by
    intro fuel
    induction fuel with
    | zero => exact fun _ hp => absurd hp.2 (Nat.not_lt_zero _)
    | succ fuel ih =>
      refine ends_bind (ends_on fun p hp =>
        (poll_outbound_ends hX halloc hp.1.sound.queue).conseq (fun _ hio => hio) ?_)
        (keeps_within_io hcipher fun rx => rx.length < fuel + 1) fun _ => ?_
      · rintro a ⟨rfl, L, hframe, hmem, hlong⟩
        exact .frame hp.1.visits hframe hmem hlong
      refine ends_bind (E := fun _ => True) (ends_of_ok fun p _ => ?_)
        (Protocol.triple_pop_outbound (Q := fun batch p => batch.elim True fun batch =>
          ∃ q rest, Within p₀ B n q ∧ q.outbound_rx = batch :: rest ∧ rest.length < fuel ∧
            p = { q with outbound_rx := rest })
          (fun p batch rest hp hq => ⟨p, rest, hp.1, hq, ?_, rfl⟩) fun _ _ _ => trivial)
        fun batch => ?_
      · rw [Protocol.run_pop_outbound]
        cases p.outbound_rx <;> exact ⟨_, _, rfl⟩
      · have hlen := hp.2
        rw [hq] at hlen
        exact Nat.lt_of_succ_lt_succ hlen
      cases batch with
      | none => exact ends_pure
      | some batch =>
        refine ends_bind ((on_outbound_batch_ends batch).conseq ?_ fun _ ha => ha)
          (keeps_of_leaves ?_) fun _ => ih
        · rintro _ ⟨q, rest, hp, -, -, rfl⟩
          exact hp.sound.wf
        · rintro _ p' ⟨q, rest, hp, hq, hlen, rfl⟩ hl
          have hstep : protocol_step q (.outbound batch) p' := .outbound hq hl
          refine ⟨hp.step hstep (fun h => nomatch h) (fun _ h => nomatch h), ?_⟩
          rcases protocol_step_outbound_rx hp.sound.wf hstep with ⟨b, -, hrx⟩ | ⟨hno, -⟩
          · rw [(List.cons.inj (hq.symm.trans hrx)).2] at hlen
            exact hlen
          · exact absurd rfl (hno batch)
  refine ends_bind (E := fun _ => True) ends_get triple_get fun p => ?_
  refine (hloop _).conseq ?_ fun _ h => h
  rintro q ⟨rfl, hp⟩
  exact ⟨hp, Nat.lt_succ_self _⟩

/-- A round for every command that waits, and a last one. No command queues another. -/
theorem poll_commands_ends (hshort : ShortHash σ) :
    Ends (Within p₀ B n) (Protocol.poll_commands : ProtocolMethod X σ Unit) (Halts p₀) := by
  have hloop : ∀ fuel, Ends (fun p : Protocol X σ => Within p₀ B n p ∧ p.command_rx.length < fuel)
      (Protocol.poll_commands_loop fuel) (Halts p₀) := by
    intro fuel
    induction fuel with
    | zero => exact fun _ hp => absurd hp.2 (Nat.not_lt_zero _)
    | succ fuel ih =>
      refine ends_bind (E := fun _ => True) (ends_of_ok fun p _ => ?_)
        (Protocol.triple_pop_command (Q := fun c p => c.elim True fun c =>
          ∃ q rest, Within p₀ B n q ∧ q.command_rx = c :: rest ∧ rest.length < fuel ∧
            p = { q with command_rx := rest })
          (fun p c rest hp hq => ⟨p, rest, hp.1, hq, ?_, rfl⟩) fun _ _ _ => trivial)
        fun c => ?_
      · rw [Protocol.run_pop_command]
        cases p.command_rx <;> exact ⟨_, _, rfl⟩
      · have hlen := hp.2
        rw [hq] at hlen
        exact Nat.lt_of_succ_lt_succ hlen
      cases c with
      | none => exact ends_pure
      | some c =>
        refine ends_bind (ends_of_forall ?_) (keeps_of_leaves ?_) fun _ => ih
        · rintro _ ⟨q, rest, hp, hq, -, rfl⟩
          -- the command is one of those that waited when the poll started
          have hc : c ∈ p₀.command_rx := hp.commands.subset (hq ▸ List.mem_cons_self)
          refine (on_command_ends hshort hc).conseq ?_ fun _ ha => ha
          rintro _ rfl
          exact ⟨⟨hp.sound.wf, hp.sound.opened, hp.sound.outbound, hp.sound.queue⟩, q, hp.visits,
            rfl⟩
        · rintro _ p' ⟨q, rest, hp, hq, hlen, rfl⟩ hl
          have hstep : protocol_step q (.command c) p' := .command hq hl
          refine ⟨hp.step hstep (fun h => nomatch h) (fun _ h => nomatch h), ?_⟩
          rcases protocol_step_command_rx hp.sound.wf hstep with ⟨b, -, hrx⟩ | ⟨hno, -⟩
          · rw [(List.cons.inj (hq.symm.trans hrx)).2] at hlen
            exact hlen
          · exact absurd rfl (hno c)
  refine ends_bind (E := fun _ => True) ends_get triple_get fun p => ?_
  refine (hloop _).conseq ?_ fun _ h => h
  rintro q ⟨rfl, hp⟩
  exact ⟨hp, Nat.lt_succ_self _⟩

/-! ## The poll -/

include hcipher in
theorem keeps_within_write :
    Keeps (Within p₀ B n) (Protocol.poll_outbound_write : ProtocolMethod X σ Unit) := by
  refine (Protocol.triple_poll_outbound_write ?_ fun p batch rest hp hq =>
    keeps_of_leaves fun q p' hq' hl => ?_).conseq (fun _ h => h) (fun _ _ h => h.1) fun _ h => h
  · exact (keeps_within_io hcipher fun _ => True).conseq (fun _ h => ⟨h, trivial⟩)
      (fun _ _ h => h.1) fun _ h => h.1
  · rw [hq'] at hl
    have hstep : protocol_step p (.outbound batch) p' := .outbound hq hl
    exact hp.step hstep (fun h => nomatch h) (fun _ h => nomatch h)

theorem keeps_within_commands :
    Keeps (Within p₀ B n) (Protocol.poll_commands : ProtocolMethod X σ Unit) := by
  refine (Protocol.triple_poll_commands fun p c rest hp hq =>
    keeps_of_leaves fun q p' hq' hl => ?_).conseq (fun _ h => h) (fun _ _ h => h.1) fun _ h => h
  rw [hq'] at hl
  have hstep : protocol_step p (.command c) p' := .command hq hl
  exact hp.step hstep (fun h => nomatch h) (fun _ h => nomatch h)

theorem keeps_within_event :
    Keeps (Within p₀ B n) (Protocol.pop_event : ProtocolMethod X σ (Option Event)) :=
  Protocol.triple_pop_event
    (fun _ _ _ hp hq => hp.step (.event hq) (fun h => nomatch h) (fun _ h => nomatch h))
    fun _ hp _ => hp

omit [CipherTrait σ] in
theorem pop_event_ends {P : Protocol X σ → Prop} {F : Abort → Prop} :
    Ends P Protocol.pop_event F :=
  ends_of_ok fun p _ => by
    rw [Protocol.run_pop_event]
    cases p.queued_events <;> exact ⟨_, _, rfl⟩

theorem emit_handshake_ends {P : Protocol X σ → Prop} {F : Abort → Prop} :
    Ends P Protocol.emit_handshake F := by
  refine ends_of_ok fun p _ => ?_
  rw [Protocol.emit_handshake, EStateM.run_bind, EStateM.run_get]
  dsimp only
  split
  · split <;> exact ⟨_, _, rfl⟩
  · exact ⟨_, _, rfl⟩

include hX halloc hshortens hcipher in
/-- A poll reads at most as often as there are events, and each of its parts ends. -/
theorem poll_next_ends (hshort : ShortHash σ) (fuel : ℕ) :
    Ends (Within p₀ B (fuel + 1)) (Protocol.poll_next (fuel + 1) : ProtocolMethod X σ (Poll Event))
      (Halts p₀) := by
  have hreads : Ends (Within p₀ B (fuel + 1)) (Protocol.poll_inbound_read (X := X) (fuel + 1))
      (Halts p₀) := poll_inbound_read_ends hshortens hcipher (fuel + 1)
  have hwrites : Ends (Within p₀ B (fuel + 1)) (Protocol.poll_outbound_write (X := X)) (Halts p₀) :=
    poll_outbound_write_ends hX halloc hcipher
  have hread : Keeps (Within p₀ B (fuel + 1)) (Protocol.poll_inbound_read (fuel + 1)) :=
    keeps_within_read (X := X) hcipher (fuel + 1)
  have hwrite : Keeps (Within p₀ B (fuel + 1)) Protocol.poll_outbound_write :=
    keeps_within_write (X := X) hcipher
  have hmain : Ends (Within p₀ B (fuel + 1)) (Protocol.poll_main (X := X) (fuel + 1))
      (Halts p₀) := by
    refine ends_bind pop_event_ends keeps_within_event fun event => ?_
    cases event with
    | some event => exact ends_pure
    | none =>
      refine ends_bind hreads hread fun _ => ?_
      refine ends_bind (poll_commands_ends hshort) keeps_within_commands fun _ => ?_
      refine ends_bind hwrites hwrite fun _ => ?_
      refine ends_bind pop_event_ends keeps_within_event fun event => ?_
      cases event <;> exact ends_pure
  have hhandshake : Ends (Within p₀ B (fuel + 1)) (Protocol.poll_handshake (X := X) (fuel + 1))
      (Halts p₀) := by
    refine ends_bind (E := fun _ => True) ends_get triple_get fun self => ?_
    split
    · exact ends_bind (hwrites.conseq (fun _ hp => hp.2) fun _ ha => ha)
        (hwrite.conseq (fun _ hp => hp.2) (fun _ _ h => h) fun _ h => h) fun _ =>
        ends_bind hreads hread fun _ =>
        ends_bind (E := fun _ => True) ends_get triple_get fun _ => ends_pure
    · exact ends_pure
  refine ends_bind hhandshake (Protocol.keeps_handshake_wait hwrite hread) fun wait => ?_
  cases wait with
  | true => exact ends_pure
  | false =>
    refine ends_bind (Q := fun _ => Within p₀ B (fuel + 1)) (E := fun _ => True) emit_handshake_ends
      (Protocol.triple_emit_handshake (fun p key hp hemitted hkey => ?_) fun _ hp _ => hp)
      fun event => ?_
    · exact hp.step (.handshake hemitted hkey) (fun h => nomatch h) (fun _ h => nomatch h)
    · cases event with
      | some event => exact ends_pure
      | none => exact hmain

end

/-! ## Sessions -/

/-- What is on its way to the outbound queue may be sent, and so may what is in it. -/
structure SoundSession (s : Session X σ) : Prop where
  sound : Sound s.protocol
  sending : ∀ x ∈ s.sending, ∀ msg ∈ x.batch, Sendable msg.message

omit [CipherTrait σ] in
theorem Session.sending_after (s : Session X σ) (move : Move X) (p : Protocol X σ) :
    (s.after move p).sending = s.sending := by
  cases move with
  | event e => cases e <;> rfl
  | _ => rfl

/-- The batch is in the outbound queue or waits for room there: all that will be written at some
time. -/
def Session.Batched (s : Session X σ) (batch : List (ChannelMessage X)) : Prop :=
  batch ∈ s.protocol.outbound_rx ∨ ∃ x ∈ s.sending, x.batch = batch

/-- A batch was there before, or a call on a channel has just made it. -/
theorem Step.batched {a : Action X} (h : Step s a s') (hm : s.protocol.channels.Wf)
    {batch : List (ChannelMessage X)} (hb : s'.Batched batch) :
    s.Batched batch ∨ ∃ c ∈ s.held, ∃ messages, batch = batch_of c messages ∧
      (a = .send c messages ∨ (a = .close c ∧ messages = [close_of c])) := by
  -- a call that leaves both queues alone, but for a batch that it adds or takes
  have hsnoc : ∀ {x : Sending X}, (batch ∈ s.protocol.outbound_rx ∨
      ∃ y ∈ s.sending ++ [x], y.batch = batch) → s.Batched batch ∨ x.batch = batch := by
    rintro x (hb | ⟨y, hy, rfl⟩)
    · exact Or.inl (Or.inl hb)
    · rcases List.mem_append.mp hy with hy | hy
      · exact Or.inl (Or.inr ⟨y, hy, rfl⟩)
      · exact Or.inr (List.mem_singleton.mp hy ▸ rfl)
  have htaken : ∀ {l r : List (Sending X)} {x : Sending X}, s.sending = l ++ x :: r →
      (∃ y ∈ l ++ r, y.batch = batch) → s.Batched batch := by
    rintro l r x hsending ⟨y, hy, rfl⟩
    refine Or.inr ⟨y, ?_, rfl⟩
    rw [hsending]
    exact List.mem_append.mpr ((List.mem_append.mp hy).imp_right (List.mem_cons_of_mem x))
  cases h with
  | protocol h =>
    rename_i move p
    rw [Session.Batched, Session.protocol_after, Session.sending_after] at hb
    refine Or.inl (hb.imp_left fun hb => ?_)
    rcases protocol_step_outbound_rx hm h with ⟨b, -, hq⟩ | ⟨-, hq⟩
    · rw [hq]
      exact List.mem_cons_of_mem b hb
    · rw [← hq]
      exact hb
  | queue_command c hroom => exact Or.inl hb
  | send messages hc hopen =>
    exact (hsnoc hb).imp_right fun h => ⟨_, hc, messages, h.symm, Or.inl rfl⟩
  | close hc hopen =>
    exact (hsnoc hb).imp_right fun h => ⟨_, hc, _, h.symm, Or.inr ⟨rfl, rfl⟩⟩
  | @enqueue l r x hsending hroom =>
    refine Or.inl ?_
    rcases hb with hb | hb
    · rcases List.mem_append.mp hb with hb | hb
      · exact Or.inl hb
      · refine Or.inr ⟨x, ?_, (List.mem_singleton.mp hb).symm⟩
        rw [hsending]
        exact List.mem_append_right _ List.mem_cons_self
    · exact htaken hsending hb
  | @abandon l r x hsending => exact Or.inl (hb.elim Or.inl (htaken hsending))
  | store_closed hclosing => exact Or.inl hb
  | receive hc hn hread => exact Or.inl hb
  | drop_receiver hc hn => exact Or.inl hb
  | local_send msg hc => exact Or.inl hb

theorem Step.sound {a : Action X} (h : Step s a s') (hs : Inv s) (hsound : SoundSession s)
    (hmsg : ∀ msg, a = .protocol (.inbound msg) → s.protocol.Ready)
    (hsend : ∀ c messages, a = .send c messages → ∀ msg ∈ messages, Sendable msg) :
    SoundSession s' := by
  have hbatched : ∀ batch, s'.Batched batch → ∀ msg ∈ batch, Sendable msg.message := by
    intro batch hb msg hmem
    rcases h.batched hs.wf hb with (hb | ⟨x, hx, rfl⟩) | ⟨c, -, messages, rfl, hact⟩
    · exact hsound.sound.outbound batch hb msg hmem
    · exact hsound.sending x hx msg hmem
    · obtain ⟨m, hm, rfl⟩ := List.mem_map.mp hmem
      rcases hact with hact | ⟨-, rfl⟩
      · exact hsend c messages hact m hm
      · rw [List.mem_singleton.mp hm]
        exact fun _ => trivial
  refine ⟨?_, fun x hx => hbatched x.batch (Or.inr ⟨x, hx, rfl⟩)⟩
  rcases h.move_or_aside with ⟨move, rfl, hmove⟩ | ⟨-, haside⟩
  · exact hsound.sound.step hmove fun msg hm => hmsg msg (hm ▸ rfl)
  · exact ⟨(h.inv hs).wf, h.opened_ready hs hmsg hsound.sound.opened,
      fun batch hb => hbatched batch (Or.inl hb), haside.io ▸ hsound.sound.queue⟩

theorem sound_new (stream : σ) : SoundSession (Session.new stream : Session X σ) where
  sound := ⟨(inv_new stream).wf, (fun _ _ _ hd => nomatch hd),
    fun _ h => absurd h List.not_mem_nil, fun _ h => absurd h List.not_mem_nil⟩
  sending _ h := absurd h List.not_mem_nil

theorem reachable_sound {stream : σ} {tr : List (Happening X σ)}
    (run : Run Step (Session.new stream) tr s) (hlate : ReadsReady tr)
    (hsend : ∀ t ∈ tr, ∀ c messages, t.act = .send c messages → ∀ msg ∈ messages, Sendable msg) :
    SoundSession s := by
  induction run with
  | nil => exact sound_new stream
  | @snoc tr s s' a run h ih =>
    have hlast : (⟨s, a, s'⟩ : Happening X σ) ∈ tr ++ [⟨s, a, s'⟩] :=
      List.mem_append_right _ (List.mem_singleton.mpr rfl)
    exact h.sound (reachable_inv run)
      (ih (fun t ht => hlate t (List.mem_append_left _ ht))
        fun t ht => hsend t (List.mem_append_left _ ht))
      (fun msg ha => hlate _ hlast msg ha) fun c messages ha => hsend _ hlast c messages ha

theorem reads_ready (hcipher : MessageCipher σ) :
    Reads (fun _ : ChannelMessage X => True) (Protocol.Ready : Protocol X σ → Prop) where
  decoded _ _ _ _ _ _ := trivial
  message p bs hbs := hcipher.message p.io.stream bs hbs
  kept _ _ _ hm hstep hready := ready_of_keeps (protocol_step_handshake hm hstep).2 hready

omit [CipherTrait σ] in
/-- A call of the application that is seen was made. -/
theorem call_seen {polls : List (Transition (Session X σ) (PollAction X))} {a : Action X}
    (h : Sight.app a ∈ polls.flatMap fun t => t.act.sight) : ∃ t ∈ polls, t.act = .app a := by
  obtain ⟨t, ht, hsight⟩ := List.mem_flatMap.mp h
  refine ⟨t, ht, ?_⟩
  match hact : t.act with
  | .app b =>
    rw [hact] at hsight
    rw [Sight.app.inj (List.mem_singleton.mp hsight)]
  | .net => rw [hact] at hsight; exact absurd hsight List.not_mem_nil
  | .poll (.ok (.ready e)) => rw [hact] at hsight; exact nomatch List.mem_singleton.mp hsight
  | .poll (.ok .pending) => rw [hact] at hsight; exact absurd hsight List.not_mem_nil
  | .poll (.error e) => rw [hact] at hsight; exact absurd hsight List.not_mem_nil

/-- A session that is reached by polls is sound, if only what may be sent is sent. -/
theorem polled_sound (hcipher : MessageCipher σ) {stream : σ}
    {polls : List (Transition (Session X σ) (PollAction X))}
    (run : Run PollStep (Session.new stream) polls s)
    (hsend : ∀ t ∈ polls, ∀ c messages, t.act = .app (.send c messages) →
      ∀ msg ∈ messages, Sendable msg) : Sound s.protocol := by
  obtain ⟨tr, run', hseen, htr⟩ :=
    poll_run_shows hcipher.toLawfulCipher (reads_ready (X := X) hcipher) run
  refine (reachable_sound run' (fun t ht msg hact => (htr t ht _ hact msg rfl).2) ?_).sound
  intro t ht c messages hact
  have hmem : Sight.app (.send c messages) ∈ polls.flatMap fun t => t.act.sight := by
    rw [← hseen]
    exact List.mem_flatMap.mpr ⟨t, ht, by rw [hact]; exact List.mem_singleton.mpr rfl⟩
  obtain ⟨t', ht', hact'⟩ := call_seen hmem
  exact hsend t' ht' c messages hact'

/-- A connection in memory whose hash can key a digest. The bound is in the type, so that it
holds of all its states. -/
def Keyed : Type :=
  { stream : Memory // ∀ hash, stream.handshake_hash = some hash → hash.val.length ≤ 64 }

theorem memory_poll_next_hash (stream : Memory) :
    (CipherTrait.poll_next stream).2.handshake_hash = stream.handshake_hash := by
  rcases stream.poll_next_cases with ⟨hash, frame, incoming, -, -, hnext⟩ | hnext
  · rw [hnext]
  · rw [hnext]

instance : CipherTrait Keyed where
  is_initiator stream := CipherTrait.is_initiator stream.val
  local_public_key stream := CipherTrait.local_public_key stream.val
  remote_public_key stream := CipherTrait.remote_public_key stream.val
  handshake_hash stream := CipherTrait.handshake_hash stream.val
  poll_next stream := ((CipherTrait.poll_next stream.val).1,
    ⟨(CipherTrait.poll_next stream.val).2,
      fun hash h => stream.property hash (memory_poll_next_hash stream.val ▸ h)⟩)
  poll_ready stream := (stream.val.answer.1, ⟨stream.val.answer.2, stream.property⟩)
  start_send stream frame := ((CipherTrait.start_send stream.val frame).1,
    ⟨(CipherTrait.start_send stream.val frame).2, stream.property⟩)
  poll_flush stream := (stream.val.answer.1, ⟨stream.val.answer.2, stream.property⟩)

theorem keyed_messages : MessageCipher Keyed where
  poll_next stream := memory_lawful.poll_next stream.val
  poll_ready stream := memory_lawful.poll_ready stream.val
  start_send stream buf := memory_lawful.start_send stream.val buf
  poll_flush stream := memory_lawful.poll_flush stream.val
  message stream bs h := by
    have hready : (CipherTrait.poll_next stream.val).1 = .ready (some (.Message bs)) := h
    rcases stream.val.poll_next_cases with ⟨hash, frame, incoming, hhash, -, hnext⟩ | hnext
    · have hafter : (CipherTrait.poll_next stream.val).2.handshake_hash = some hash := by
        rw [hnext]
        exact hhash
      exact ⟨_, hash, congrArg (Option.map _) hafter, hafter, stream.property hash hhash⟩
    · rw [hnext] at hready
      cases hready

/-- What has arrived and is not read, as the finite backlog of this connection. -/
def keyed_backlog : Backlog Keyed where
  size stream := stream.val.incoming.length
  event stream e h := by
    show (CipherTrait.poll_next stream.val).2.incoming.length < stream.val.incoming.length
    have hready : (CipherTrait.poll_next stream.val).1 = .ready (some e) := h
    rcases stream.val.poll_next_cases with ⟨hash, frame, incoming, -, hincoming, hnext⟩ | hnext
    · rw [hnext, hincoming]
      exact Nat.lt_succ_self _
    · rw [hnext] at hready
      cases hready
  poll_next stream := by
    show (CipherTrait.poll_next stream.val).2.incoming.length ≤ stream.val.incoming.length
    rcases stream.val.poll_next_cases with ⟨hash, frame, incoming, -, hincoming, hnext⟩ | hnext
    · rw [hnext, hincoming]
      exact Nat.le_succ _
    · rw [hnext]
  poll_ready _ := Nat.le_refl _
  start_send _ _ := Nat.le_refl _
  poll_flush _ := Nat.le_refl _

/-- A connection over which the remote has opened a key. -/
def keyed_open : Keyed :=
  ⟨{ Memory.connected false with incoming := [frame_of [remote_open 1 (sample 1)]] },
    fun _ h => Option.some.inj h ▸ by decide⟩

end hypercore_protocol.session
