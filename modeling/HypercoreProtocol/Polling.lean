/-
Rules for polling.

A poll runs the handlers in a fixed order, over queues that it empties and over a
connection that answers as it likes. For every loop there is a rule that reduces
an assertion about it to what its rounds do; `keeps_poll_next` puts them together
in the order of the source. `poll_next_moves` is their first use: whatever a poll
leaves behind is reached by moves, so that what holds in every run of a session
holds between polls.
-/
import HypercoreProtocol.SessionSpec
import HypercoreProtocol.Sink
import HypercoreProtocol.Lib.Hoare

set_option autoImplicit false

namespace hypercore_protocol

open Rust Wire Method schema message channels mqueue protocol

variable {X : Deps} {σ α : Type} [CipherTrait σ]

/-! ## The message layer -/

namespace mqueue.MessageIo

variable {I E : MessageIo X σ → Prop}

omit [CipherTrait σ] in
theorem triple_on_stream {Q : α → MessageIo X σ → Prop} {op : σ → α × σ}
    (h : ∀ io, I io → Q (op io.stream).1 { io with stream := (op io.stream).2 }) :
    Triple I (on_stream op : IoMethod X σ α) Q E := by
  intro io hio
  refine ⟨fun a io' ha => ?_, (fun e io' he => nomatch he)⟩
  injection ha with ha hio'
  rw [← ha, ← hio']
  exact h io hio

/-- **What a round of `poll_outbound` may do** to an assertion on the message layer: one
condition for each call on the sink, and one for taking a frame. -/
structure OutboundRound (I : MessageIo X σ → Prop) : Prop where
  ready : ∀ io, I io → I { io with stream := (CipherTrait.poll_ready io.stream).2 }
  flush : ∀ io, I io → I { io with stream := (CipherTrait.poll_flush io.stream).2 }
  frame : ∀ io messages write_queue, I io → io.write_queue ≠ [] →
    next_frame [] io.write_queue = (messages, write_queue) →
    (∀ buf, to_encoded_bytes messages = .ok buf →
      I ⟨(CipherTrait.start_send io.stream buf).2, write_queue⟩) ∧
    ∀ e, to_encoded_bytes messages = .error (.err e) → I ⟨io.stream, write_queue⟩

theorem keeps_poll_outbound_loop (h : OutboundRound I) (pending : Bool) (fuel : ℕ) :
    Keeps I (poll_outbound_loop pending fuel : IoMethod X σ (Poll Unit)) := by
  induction fuel generalizing pending with
  | zero => exact triple_out_of_fuel
  | succ fuel ih =>
    refine triple_bind (triple_on_stream (Q := fun _ => I) h.ready) fun ready => ?_
    match ready with
    | .pending => exact triple_pure fun _ hio => hio
    | .ready (.error e) => exact triple_pure fun _ hio => hio
    | .ready (.ok ()) =>
      refine triple_bind triple_get fun self => ?_
      show Triple _ (if self.write_queue.isEmpty then _ else _) _ _
      split
      · exact triple_pure fun _ hio => hio.2
      · rename_i hne
        have hne : self.write_queue ≠ [] := fun h => hne (by rw [h]; rfl)
        generalize hframe : next_frame [] self.write_queue = frame
        obtain ⟨messages, write_queue⟩ := frame
        -- from here on the state is known, so what is set is the queue without the frame
        refine triple_of_forall fun io hio => ?_
        obtain ⟨rfl, hio⟩ := hio
        obtain ⟨hsend, hfail⟩ := h.frame self messages write_queue hio hne hframe
        refine triple_bind
          (triple_set (R := fun _ io => io = { self with write_queue := write_queue })
            fun _ _ => rfl) fun _ => ?_
        refine triple_bind (triple_lift
          (Q := fun buf io => to_encoded_bytes messages = .ok buf ∧
            io = { self with write_queue := write_queue })
          (fun buf io hbuf hio => ⟨map_err_eq_ok hbuf, hio⟩) fun e io herr hio => ?_) fun buf => ?_
        · -- the frame does not encode: it is off the queue and not sent
          obtain ⟨e', he'⟩ := map_err_eq_err herr
          rw [hio]
          exact hfail e' he'
        refine triple_bind (triple_on_stream (Q := fun _ => I) fun io hio => ?_) fun sent => ?_
        · rw [hio.2]
          exact hsend buf hio.1
        match sent with
        | .error e => exact triple_throw fun _ hio => hio
        | .ok () =>
          refine triple_bind (triple_on_stream (Q := fun _ => I) h.flush) fun flushed => ?_
          match flushed with
          | .ready (.error e) => exact triple_throw fun _ hio => hio
          | .pending => exact triple_pure fun _ hio => hio
          | .ready (.ok ()) => exact ih false

theorem keeps_poll_outbound (h : OutboundRound I) :
    Keeps I (poll_outbound : IoMethod X σ (Poll Unit)) :=
  triple_bind triple_get fun _ =>
    (keeps_poll_outbound_loop h true _).conseq (fun _ hio => hio.2) (fun _ _ hio => hio)
      fun _ hio => hio

/-- What a round of `poll_inbound` may do. `D` is what holds with the messages of a
frame in hand. -/
structure InboundRound (I : MessageIo X σ → Prop)
    (D : List (ChannelMessage X) → MessageIo X σ → Prop) : Prop where
  other : ∀ io, I io → (∀ bs, (CipherTrait.poll_next io.stream).1 ≠ .ready (some (.Message bs))) →
    I { io with stream := (CipherTrait.poll_next io.stream).2 }
  message : ∀ io bs, I io → (CipherTrait.poll_next io.stream).1 = .ready (some (.Message bs)) →
    (∀ messages rest, vec_decode X bs = .ok (messages, rest) →
      D messages { io with stream := (CipherTrait.poll_next io.stream).2 }) ∧
    ∀ e, vec_decode X bs = .error (.err e) →
      I { io with stream := (CipherTrait.poll_next io.stream).2 }

/-- What holds when `poll_inbound` has answered: `D` with the messages it gives, and else what
held before. -/
def Answered (I : MessageIo X σ → Prop) (D : List (ChannelMessage X) → MessageIo X σ → Prop) :
    Poll (Option (List (ChannelMessage X))) → MessageIo X σ → Prop
  | .ready (some messages) => D messages
  | _ => I

/-- What a call of `poll_inbound` may do, by the answers of the connection. `R` is what holds
when it has nothing to give, and `E` when the call fails. -/
structure ReadRound (I : MessageIo X σ → Prop) (D : List (ChannelMessage X) → MessageIo X σ → Prop)
    (R E : MessageIo X σ → Prop) : Prop where
  payload : ∀ io payload, I io →
    (CipherTrait.poll_next io.stream).1 = .ready (some (.HandshakePayload payload)) →
    I { io with stream := (CipherTrait.poll_next io.stream).2 }
  failed : ∀ io e, I io → (CipherTrait.poll_next io.stream).1 = .ready (some (.ErrStuff e)) →
    E { io with stream := (CipherTrait.poll_next io.stream).2 }
  out : ∀ io, I io → ((CipherTrait.poll_next io.stream).1 = .pending ∨
    (CipherTrait.poll_next io.stream).1 = .ready none) →
    R { io with stream := (CipherTrait.poll_next io.stream).2 }
  message : ∀ io bs, I io → (CipherTrait.poll_next io.stream).1 = .ready (some (.Message bs)) →
    (∀ messages rest, vec_decode X bs = .ok (messages, rest) →
      D messages { io with stream := (CipherTrait.poll_next io.stream).2 }) ∧
    ∀ e, vec_decode X bs = .error (.err e) →
      E { io with stream := (CipherTrait.poll_next io.stream).2 }

theorem triple_poll_inbound_round {D : List (ChannelMessage X) → MessageIo X σ → Prop}
    {R : MessageIo X σ → Prop} (h : ReadRound I D R E) (fuel : ℕ) :
    Triple I (poll_inbound fuel : IoMethod X σ _) (Answered R D) E := by
  induction fuel with
  | zero => exact triple_out_of_fuel
  | succ fuel ih =>
    refine triple_bind (triple_on_stream (Q := fun event io' => ∃ io, I io ∧
      (CipherTrait.poll_next io.stream).1 = event ∧
      io' = { io with stream := (CipherTrait.poll_next io.stream).2 })
      fun io hio => ⟨io, hio, rfl, rfl⟩) fun event => ?_
    match event with
    | .pending =>
      refine triple_pure ?_
      rintro _ ⟨io, hio, hans, rfl⟩
      exact h.out io hio (Or.inl hans)
    | .ready none =>
      refine triple_pure ?_
      rintro _ ⟨io, hio, hans, rfl⟩
      exact h.out io hio (Or.inr hans)
    | .ready (some (.HandshakePayload payload)) =>
      refine ih.conseq ?_ (fun _ _ h => h) fun _ h => h
      rintro _ ⟨io, hio, hans, rfl⟩
      exact h.payload io payload hio hans
    | .ready (some (.ErrStuff e)) =>
      refine triple_throw ?_
      rintro _ ⟨io, hio, hans, rfl⟩
      exact h.failed io e hio hans
    | .ready (some (.Message bs)) =>
      refine triple_bind (triple_lift (Q := fun decoded io => D decoded.1 io) ?_ ?_)
        fun decoded => ?_
      · rintro decoded _ hdec ⟨io, hio, hans, rfl⟩
        exact (h.message io bs hio hans).1 decoded.1 decoded.2 (map_err_eq_ok hdec)
      · rintro e _ herr ⟨io, hio, hans, rfl⟩
        obtain ⟨e', he'⟩ := map_err_eq_err herr
        exact (h.message io bs hio hans).2 e' he'
      · exact triple_pure fun _ hio => hio

theorem InboundRound.read_round {D : List (ChannelMessage X) → MessageIo X σ → Prop}
    (h : InboundRound I D) : ReadRound I D I I where
  payload io payload hio hans := h.other io hio fun bs hbs => by cases hans.symm.trans hbs
  failed io e hio hans := h.other io hio fun bs hbs => by cases hans.symm.trans hbs
  out io hio hans := by
    refine h.other io hio fun bs hbs => ?_
    rcases hans with hans | hans
    · cases hans.symm.trans hbs
    · cases hans.symm.trans hbs
  message := h.message

/-- The rule for an assertion that every answer but a message keeps. It is applied round by
round, by induction on the fuel. -/
theorem triple_poll_inbound {D : List (ChannelMessage X) → MessageIo X σ → Prop}
    (h : InboundRound I D) (fuel : ℕ) :
    Triple I (poll_inbound fuel : IoMethod X σ _) (Answered I D) I :=
  triple_poll_inbound_round h.read_round fuel

end mqueue.MessageIo

/-! ## The protocol -/

namespace protocol.Protocol

variable {I K : Protocol X σ → Prop}

omit [CipherTrait σ] in
/-- A call on the message layer, seen from the protocol: the rest of the protocol is fixed
meanwhile. -/
theorem triple_on_io {m : IoMethod X σ α} {Q : α → Protocol X σ → Prop} {E : Protocol X σ → Prop}
    (h : ∀ p : Protocol X σ, Triple (fun io => I { p with io := io }) m
      (fun a io => Q a { p with io := io }) fun io => E { p with io := io }) :
    Triple I (on_io m) Q E := by
  refine triple_on fun p hp => (h p).conseq (fun io hio => ?_) (fun _ _ h => h) fun _ h => h
  rw [hio]
  exact hp

omit [CipherTrait σ] in
theorem keeps_on_io {m : IoMethod X σ α}
    (h : ∀ p : Protocol X σ, Keeps (fun io => I { p with io := io }) m) : Keeps I (on_io m) :=
  triple_on_io h

omit [CipherTrait σ] in
theorem triple_pop_command {Q : Option Command → Protocol X σ → Prop} {E : Protocol X σ → Prop}
    (hsome : ∀ p c rest, I p → p.command_rx = c :: rest →
      Q (some c) { p with command_rx := rest })
    (hnone : ∀ p, I p → p.command_rx = [] → Q none p) : Triple I pop_command Q E :=
  triple_pop (fun p hq => by rw [run_pop_command, hq])
    (fun p c rest hq => by rw [run_pop_command, hq]) hsome hnone

omit [CipherTrait σ] in
theorem triple_pop_outbound {Q : Option (List (ChannelMessage X)) → Protocol X σ → Prop}
    {E : Protocol X σ → Prop}
    (hsome : ∀ p batch rest, I p → p.outbound_rx = batch :: rest →
      Q (some batch) { p with outbound_rx := rest })
    (hnone : ∀ p, I p → p.outbound_rx = [] → Q none p) : Triple I pop_outbound Q E :=
  triple_pop (fun p hq => by rw [run_pop_outbound, hq])
    (fun p batch rest hq => by rw [run_pop_outbound, hq]) hsome hnone

omit [CipherTrait σ] in
theorem triple_pop_event {Q : Option Event → Protocol X σ → Prop} {E : Protocol X σ → Prop}
    (hsome : ∀ p e rest, I p → p.queued_events = e :: rest →
      Q (some e) { p with queued_events := rest })
    (hnone : ∀ p, I p → p.queued_events = [] → Q none p) : Triple I pop_event Q E :=
  triple_pop (fun p hq => by rw [run_pop_event, hq])
    (fun p e rest hq => by rw [run_pop_event, hq]) hsome hnone

/-- The command loop ends with the command queue empty, and keeps what every command keeps. -/
theorem triple_poll_commands
    (h : ∀ p c rest, I p → p.command_rx = c :: rest →
      Triple (· = { p with command_rx := rest }) (on_command c) (fun _ => I) I) :
    Triple I (poll_commands : ProtocolMethod X σ Unit) (fun _ p => I p ∧ p.command_rx = []) I := by
  have hloop : ∀ fuel, Triple I (poll_commands_loop fuel : ProtocolMethod X σ Unit)
      (fun _ p => I p ∧ p.command_rx = []) I := by
    intro fuel
    induction fuel with
    | zero => exact triple_out_of_fuel
    | succ fuel ih =>
      refine triple_bind (triple_pop_command (Q := fun c p =>
        c.elim (I p ∧ p.command_rx = []) fun c => ∃ p₀ rest, I p₀ ∧ p₀.command_rx = c :: rest ∧
          p = { p₀ with command_rx := rest })
        (fun p c rest hp hq => ⟨p, rest, hp, hq, rfl⟩) fun p hp hq => ⟨hp, hq⟩) fun c => ?_
      cases c with
      | none => exact triple_pure fun _ hp => hp
      | some c =>
        refine triple_bind (Q := fun _ => I) (triple_of_forall fun p hp => ?_) fun _ => ih
        obtain ⟨p₀, rest, hp₀, hq, rfl⟩ := hp
        exact h p₀ c rest hp₀ hq
  exact triple_bind triple_get fun _ =>
    (hloop _).conseq (fun _ hp => hp.2) (fun _ _ h => h) fun _ h => h

/-- The write loop, when `W` is what a call of `poll_outbound` leaves: it is also what the
loop ends with. -/
theorem triple_poll_outbound_write_last {W E : Protocol X σ → Prop}
    (hio : Triple I (on_io MessageIo.poll_outbound) (fun _ => W) E)
    (h : ∀ p batch rest, W p → p.outbound_rx = batch :: rest →
      Triple (· = { p with outbound_rx := rest }) (on_outbound_batch batch) (fun _ => I) E) :
    Triple I (poll_outbound_write : ProtocolMethod X σ Unit)
      (fun _ p => W p ∧ p.outbound_rx = []) E := by
  have hloop : ∀ fuel, Triple I (poll_outbound_write_loop fuel : ProtocolMethod X σ Unit)
      (fun _ p => W p ∧ p.outbound_rx = []) E := by
    intro fuel
    induction fuel with
    | zero => exact triple_out_of_fuel
    | succ fuel ih =>
      refine triple_bind hio fun _ => ?_
      refine triple_bind (triple_pop_outbound (Q := fun batch p =>
        batch.elim (W p ∧ p.outbound_rx = []) fun batch => ∃ p₀ rest, W p₀ ∧
          p₀.outbound_rx = batch :: rest ∧ p = { p₀ with outbound_rx := rest })
        (fun p batch rest hp hq => ⟨p, rest, hp, hq, rfl⟩) fun p hp hq => ⟨hp, hq⟩) fun batch => ?_
      cases batch with
      | none => exact triple_pure fun _ hp => hp
      | some batch =>
        refine triple_bind (Q := fun _ => I) (triple_of_forall fun p hp => ?_) fun _ => ih
        obtain ⟨p₀, rest, hp₀, hq, rfl⟩ := hp
        exact h p₀ batch rest hp₀ hq
  exact triple_bind triple_get fun _ =>
    (hloop _).conseq (fun _ hp => hp.2) (fun _ _ h => h) fun _ h => h

/-- The write loop ends with the outbound queue empty, and keeps what every batch and every drive
of the sink keeps. -/
theorem triple_poll_outbound_write (hio : Keeps I (on_io MessageIo.poll_outbound))
    (h : ∀ p batch rest, I p → p.outbound_rx = batch :: rest →
      Triple (· = { p with outbound_rx := rest }) (on_outbound_batch batch) (fun _ => I) I) :
    Triple I (poll_outbound_write : ProtocolMethod X σ Unit)
      (fun _ p => I p ∧ p.outbound_rx = []) I :=
  triple_poll_outbound_write_last hio h

/-- The read loop, by the answers of the connection. `D` is what holds with the messages of
a frame in hand, and `R` when the connection has nothing to give. -/
theorem triple_poll_inbound_read_round {R E : Protocol X σ → Prop}
    {D : List (ChannelMessage X) → Protocol X σ → Prop}
    (hread : ∀ p : Protocol X σ, MessageIo.ReadRound (fun io => I { p with io := io })
      (fun messages io => D messages { p with io := io }) (fun io => R { p with io := io })
      fun io => E { p with io := io })
    (h : ∀ messages, Triple (D messages) (on_inbound_channel_messages messages) (fun _ => I) E)
    (fuel : ℕ) : Triple I (poll_inbound_read fuel) (fun _ => R) E := by
  induction fuel with
  | zero => exact triple_out_of_fuel
  | succ fuel ih =>
    refine triple_bind (Q := fun answer p =>
      MessageIo.Answered (fun io => R { p with io := io })
        (fun messages io => D messages { p with io := io }) answer p.io)
      (triple_on_io fun p => MessageIo.triple_poll_inbound_round (hread p) (fuel + 1))
      fun answer => ?_
    match answer with
    | .pending => exact triple_pure fun _ hp => hp
    | .ready none => exact triple_pure fun _ hp => hp
    | .ready (some messages) => exact triple_bind (h messages) fun _ => ih

/-- The read loop, for an assertion that every answer but a message keeps. `D` holds while the
messages of a frame are handled. -/
theorem keeps_poll_inbound_read {D : List (ChannelMessage X) → Protocol X σ → Prop}
    (hread : ∀ p : Protocol X σ, MessageIo.InboundRound (fun io => I { p with io := io })
      fun messages io => D messages { p with io := io })
    (h : ∀ messages, Triple (D messages) (on_inbound_channel_messages messages) (fun _ => I) I)
    (fuel : ℕ) : Keeps I (poll_inbound_read fuel) :=
  triple_poll_inbound_read_round (fun p => (hread p).read_round) h fuel

/-- The messages of a frame, one after the other. `D` is what holds with those that are left,
and `E` when one has failed. -/
theorem triple_channel_messages {E : Protocol X σ → Prop}
    {D : List (ChannelMessage X) → Protocol X σ → Prop}
    (h : ∀ msg messages, Triple (D (msg :: messages)) (on_inbound_message msg)
      (fun _ => D messages) E) (messages : List (ChannelMessage X)) :
    Triple (D messages) (on_inbound_channel_messages messages) (fun _ => D []) E := by
  induction messages with
  | nil => exact triple_pure fun _ hp => hp
  | cons msg messages ih => exact triple_bind (h msg messages) fun _ => ih

/-- The same, when it does not matter at which message the frame failed. -/
theorem triple_on_inbound_channel_messages
    {D : List (ChannelMessage X) → Protocol X σ → Prop}
    (h : ∀ msg messages, Triple (D (msg :: messages)) (on_inbound_message msg)
      (fun _ => D messages) I) (hnil : ∀ p, D [] p → I p) (messages : List (ChannelMessage X)) :
    Triple (D messages) (on_inbound_channel_messages messages) (fun _ => I) I :=
  (triple_channel_messages h messages).conseq (fun _ h => h) (fun _ p hp => hnil p hp)
    fun _ h => h

/-- The wait of an initiator. `N` is kept while it waits, `W` holds when it has to be
waited for, and `J` when the handshake is over or is not waited for. -/
theorem triple_poll_handshake {fuel : ℕ} {N J W E : Protocol X σ → Prop}
    (hskip : ∀ p, I p → (p.is_initiator = true → p.io.handshake_hash.isSome) → J p)
    (hwrite : Triple (fun p => I p ∧ p.is_initiator = true) poll_outbound_write (fun _ => N) E)
    (hread : Triple N (poll_inbound_read fuel) (fun _ => N) E)
    (hwait : ∀ p, N p → p.io.handshake_hash = none → W p)
    (hpass : ∀ p, N p → p.io.handshake_hash.isSome → J p) :
    Triple I (poll_handshake fuel) (fun wait p => if wait = true then W p else J p) E := by
  refine triple_bind triple_get fun self => ?_
  by_cases hcond : (self.is_initiator && self.io.handshake_hash.isNone) = true
  · simp only [hcond, if_true]
    refine triple_bind (hwrite.conseq (fun p hp => ?_) (fun _ _ h => h) fun _ h => h) fun _ =>
      triple_bind hread fun _ => triple_bind triple_get fun q => triple_pure fun p hp => ?_
    · obtain ⟨rfl, hp⟩ := hp
      exact ⟨hp, (Bool.and_eq_true_iff.mp hcond).1⟩
    · obtain ⟨rfl, hp⟩ := hp
      cases hhash : q.io.handshake_hash with
      | none => exact hwait q hp hhash
      | some hash => exact hpass q hp (by rw [hhash]; rfl)
  · -- a responder, or the handshake is over
    rw [Bool.not_eq_true] at hcond
    simp only [hcond, Bool.false_eq_true, if_false]
    refine triple_pure fun p hp => ?_
    obtain ⟨rfl, hp⟩ := hp
    refine hskip self hp fun hinit => ?_
    rwa [hinit, Bool.true_and, ← Option.not_isSome, Bool.not_eq_false'] at hcond

/-- What writing and reading keep, the wait of an initiator keeps: it does both and nothing
else. -/
theorem keeps_handshake_wait {fuel : ℕ} (hwrite : Keeps I poll_outbound_write)
    (hread : Keeps I (poll_inbound_read fuel)) : Keeps I (poll_handshake fuel) := by
  refine triple_bind triple_get fun self => ?_
  split
  · exact triple_bind (hwrite.conseq (fun _ hp => hp.2) (fun _ _ h => h) fun _ h => h) fun _ =>
      triple_bind hread fun _ => triple_bind triple_get fun _ => triple_pure fun _ hp => hp.2
  · exact triple_pure fun _ hp => hp.2

/-- The handshake event is returned once, and only when the remote's key is known. -/
theorem triple_emit_handshake {Q : Option Event → Protocol X σ → Prop} {E : Protocol X σ → Prop}
    (hsome : ∀ p key, I p → p.handshake_emitted = false → p.io.remote_public_key = some key →
      Q (some (.Handshake key)) { p with handshake_emitted := true })
    (hnone : ∀ p, I p → (p.handshake_emitted = false → p.io.remote_public_key = none) → Q none p) :
    Triple I (emit_handshake : ProtocolMethod X σ (Option Event)) Q E := by
  refine triple_bind triple_get fun self => triple_of_forall fun p hp => ?_
  obtain ⟨rfl, hp⟩ := hp
  cases hemitted : self.handshake_emitted with
  | true =>
    simp only [Bool.not_true, Bool.false_eq_true, if_false]
    exact triple_pure fun p heq => heq ▸ hnone self hp fun h => nomatch hemitted.symm.trans h
  | false =>
    simp only [Bool.not_false, if_true]
    cases hkey : self.io.remote_public_key with
    | none => exact triple_pure fun p heq => heq ▸ hnone self hp fun _ => hkey
    | some key =>
      exact triple_bind (triple_set (R := fun _ => Q (some (.Handshake key)))
        fun _ _ => hsome self key hp hemitted hkey) fun _ => triple_pure fun _ h => h

/-- The order of a poll. `J` holds when the handshake is not waited for, `L` when there is
no handshake event to return, `R` once all frames are read, `K` once the commands are
handled and `M` once the outbound queue is written. -/
theorem triple_poll_next {fuel : ℕ} {J L R M E : Protocol X σ → Prop}
    {Q : Poll Event → Protocol X σ → Prop}
    (hhandshake : Triple I (poll_handshake fuel)
      (fun wait p => if wait = true then Q .pending p else J p) E)
    (hemit : ∀ p key, J p → p.handshake_emitted = false → p.io.remote_public_key = some key →
      Q (.ready (.Handshake key)) { p with handshake_emitted := true })
    (hskip : ∀ p, J p → (p.handshake_emitted = false → p.io.remote_public_key = none) → L p)
    (hfirst : ∀ p e rest, L p → p.queued_events = e :: rest →
      Q (.ready e) { p with queued_events := rest })
    (hread : Triple (fun p => L p ∧ p.queued_events = []) (poll_inbound_read fuel) (fun _ => R) E)
    (hcommands : Triple R poll_commands (fun _ => K) E)
    (hwrite : Triple K poll_outbound_write (fun _ => M) E)
    (hlast : ∀ p e rest, M p → p.queued_events = e :: rest →
      Q (.ready e) { p with queued_events := rest })
    (hpending : ∀ p, M p → p.queued_events = [] → Q .pending p) :
    Triple I (poll_next fuel) Q E := by
  -- a queued event is returned before anything is read
  have hmain : Triple L (poll_main fuel) Q E := by
    refine triple_bind (triple_pop_event (Q := fun event p =>
      event.elim (L p ∧ p.queued_events = []) fun e => Q (.ready e) p) hfirst
      fun p hp hq => ⟨hp, hq⟩) fun event => ?_
    cases event with
    | some event => exact triple_pure fun _ hp => hp
    | none =>
      refine triple_bind hread fun _ => ?_
      refine triple_bind hcommands fun _ => ?_
      refine triple_bind hwrite fun _ => ?_
      refine triple_bind (triple_pop_event (Q := fun event p =>
        event.elim (Q .pending p) fun e => Q (.ready e) p) hlast hpending) fun event => ?_
      cases event with
      | some event => exact triple_pure fun _ hp => hp
      | none => exact triple_pure fun _ hp => hp
  refine triple_bind hhandshake fun wait => ?_
  cases wait with
  | true => exact triple_pure fun _ hp => hp
  | false =>
    refine triple_bind (triple_emit_handshake (Q := fun event p =>
      event.elim (L p) fun e => Q (.ready e) p) (fun p key hp => hemit p key hp)
      fun p hp => hskip p hp) fun event => ?_
    cases event with
    | some event => exact triple_pure fun _ hp => hp
    | none => exact hmain

/-- What every part of a poll keeps. `K` is what holds once the commands are handled. -/
theorem keeps_poll_next {fuel : ℕ} (hhandshake : Keeps I (poll_handshake fuel))
    (hemit : ∀ p key, I p → p.handshake_emitted = false → p.io.remote_public_key = some key →
      I { p with handshake_emitted := true })
    (hevent : ∀ p e rest, I p → p.queued_events = e :: rest → I { p with queued_events := rest })
    (hread : Keeps I (poll_inbound_read fuel)) (hcommands : Triple I poll_commands (fun _ => K) I)
    (hwrite : Triple K poll_outbound_write (fun _ => I) I) : Keeps I (poll_next fuel) := by
  refine triple_poll_next (J := I) (L := I) (R := I) (M := I) ?_ hemit (fun _ hp _ => hp) hevent
    (hread.conseq (fun _ hp => hp.1) (fun _ _ h => h) fun _ h => h) hcommands hwrite hevent
    fun _ hp _ => hp
  refine hhandshake.conseq (fun _ hp => hp) (fun wait p hp => ?_) fun _ h => h
  show if wait = true then I p else I p
  rwa [ite_self]

end protocol.Protocol

/-! ## Polls are runs -/

namespace session

open Runs

/-- **What a connection does by itself never takes the handshake back.** All four operations may
do anything else. -/
structure LawfulCipher (σ : Type) [CipherTrait σ] : Prop where
  poll_next : ∀ stream : σ, KeepsHandshake stream (CipherTrait.poll_next stream).2
  poll_ready : ∀ stream : σ, KeepsHandshake stream (CipherTrait.poll_ready stream).2
  start_send : ∀ (stream : σ) buf, KeepsHandshake stream (CipherTrait.start_send stream buf).2
  poll_flush : ∀ stream : σ, KeepsHandshake stream (CipherTrait.poll_flush stream).2

/-- The handshake is complete at one moment: then the hash and the key of the remote are
there, and messages arrive only after it. -/
structure HandshakeCipher (σ : Type) [CipherTrait σ] : Prop extends LawfulCipher σ where
  together : ∀ stream : σ, (CipherTrait.handshake_hash stream).isSome =
    (CipherTrait.remote_public_key stream).isSome
  message : ∀ (stream : σ) bs, (CipherTrait.poll_next stream).1 = .ready (some (.Message bs)) →
    (CipherTrait.remote_public_key (CipherTrait.poll_next stream).2).isSome

theorem KeepsHandshake.hash {stream stream' : σ} (h : KeepsHandshake stream stream')
    (hsome : (CipherTrait.handshake_hash stream).isSome) :
    (CipherTrait.handshake_hash stream').isSome := by
  obtain ⟨hash, hhash⟩ := Option.isSome_iff_exists.mp hsome
  exact Option.isSome_iff_exists.mpr ⟨hash, h.1 hash hhash⟩

theorem LawfulCipher.drives (hcipher : LawfulCipher σ) {pending : Bool} {io io' : MessageIo X σ}
    {calls : List SinkCall} {r : Res IoError (Poll Unit)}
    (h : MessageIo.Drives pending io calls r io') : KeepsHandshake io.stream io'.stream :=
  h.keeps (P := KeepsHandshake io.stream) (fun stream hP => hP.trans (hcipher.poll_ready stream))
    (fun stream buf hP => hP.trans (hcipher.start_send stream buf))
    (fun stream hP => hP.trans (hcipher.poll_flush stream)) (.refl _)

theorem logged_lawful (h : LawfulCipher σ) : LawfulCipher (Logged σ) where
  poll_next stream := h.poll_next stream.stream
  poll_ready stream := h.poll_ready stream.stream
  start_send stream buf := h.start_send stream.stream buf
  poll_flush stream := h.poll_flush stream.stream

theorem memory_lawful : LawfulCipher Memory where
  poll_next stream := by
    rcases stream.poll_next_cases with ⟨hash, frame, incoming, -, -, hnext⟩ | hnext
    · rw [hnext]
      exact .refl _
    · rw [hnext]
      exact .refl _
  poll_ready _ := .refl _
  start_send _ _ := .refl _
  poll_flush _ := .refl _

/-- The handshake of a connection may complete at any time, and this is a step like any other. -/
theorem memory_completes (stream : Memory) (h : stream.handshake_hash = none) :
    KeepsHandshake stream (Memory.connected stream.is_initiator) := by
  obtain ⟨i, hash, incoming, outgoing, schedule⟩ := stream
  obtain rfl : hash = none := h
  exact ⟨(fun _ h => nomatch h), (fun _ h => nomatch h)⟩

theorem memory_handshake : HandshakeCipher Memory where
  toLawfulCipher := memory_lawful
  together stream := by
    obtain ⟨i, hash, incoming, outgoing, schedule⟩ := stream
    cases hash <;> rfl
  message stream bs h := by
    rcases stream.poll_next_cases with ⟨hash, frame, incoming, hhash, -, hnext⟩ | hnext
    · rw [hnext]
      show (stream.handshake_hash.map _).isSome = true
      rw [hhash]
      rfl
    · rw [hnext] at h
      cases h

/-- With the handshake over, a poll does not wait for it, and the part of a poll that does so
changes nothing. -/
theorem keeps_poll_handshake {I : Protocol X σ → Prop} (fuel : ℕ)
    (hI : ∀ p, I p → p.io.handshake_hash.isSome) : Keeps I (Protocol.poll_handshake fuel) := by
  refine triple_bind triple_get fun self => triple_of_forall fun p hp => ?_
  obtain ⟨rfl, hp⟩ := hp
  have hcond : (self.is_initiator && self.io.handshake_hash.isNone) = false := by
    rw [← Option.not_isSome, hI self hp, Bool.not_true, Bool.and_false]
  simp only [hcond, Bool.false_eq_true, if_false]
  exact triple_pure fun _ heq => heq ▸ hp

variable {s : Session X σ} {p p' : Protocol X σ} {K : Move X → Prop} {R : Protocol X σ → Prop}

/-- `R` is kept by the moves of a kind. A poll makes moves of different kinds in its parts, and
needs `R` for those only. -/
def ClosedUnder (K : Move X → Prop) (R : Protocol X σ → Prop) : Prop :=
  ∀ (p p' : Protocol X σ) (move : Move X), K move → protocol_step p move p' → R p → R p'

/-- The moves of reading: the connection gives something, and messages are handled. -/
def Move.reads : Move X → Prop
  | .io => True
  | .inbound _ => True
  | _ => False

/-- The moves of writing: batches are taken, and the sink is driven. -/
def Move.writes : Move X → Prop
  | .io => True
  | .outbound _ => True
  | _ => False

def Move.is_command : Move X → Prop
  | .command _ => True
  | _ => False

/-- The connection changes, and messages may have been sent. -/
theorem ClosedUnder.io (hR : ClosedUnder K R) (hK : K .io) (h : R p) {stream : σ}
    {write_queue : List (ChannelMessage X)} (hstream : KeepsHandshake p.io.stream stream)
    (hqueue : write_queue <:+ p.io.write_queue) : R { p with io := ⟨stream, write_queue⟩ } :=
  hR _ _ .io hK (.io hstream hqueue) h

theorem ClosedUnder.outbound_round (hcipher : LawfulCipher σ) (hR : ClosedUnder K R)
    (hK : K .io) (p : Protocol X σ) :
    MessageIo.OutboundRound (fun io => R { p with io := io }) where
  ready io hio := hR.io hK hio (hcipher.poll_ready io.stream) (List.suffix_refl _)
  flush io hio := hR.io hK hio (hcipher.poll_flush io.stream) (List.suffix_refl _)
  frame io _ _ hio _ hframe :=
    have hsuffix := next_frame_suffix hframe
    ⟨fun buf _ => hR.io hK hio (hcipher.start_send io.stream buf) hsuffix,
      fun _ _ => hR.io hK hio (.refl _) hsuffix⟩

theorem ClosedUnder.poll_outbound_write (hcipher : LawfulCipher σ)
    (hR : ClosedUnder Move.writes R) :
    Triple R (Protocol.poll_outbound_write : ProtocolMethod X σ Unit)
      (fun _ p => R p ∧ p.outbound_rx = []) R := by
  refine Protocol.triple_poll_outbound_write
    (Protocol.keeps_on_io fun p =>
      MessageIo.keeps_poll_outbound (hR.outbound_round hcipher trivial p))
    fun p batch rest hp hq => keeps_of_leaves fun q p' hq' hl => ?_
  rw [hq'] at hl
  exact hR _ _ (.outbound batch) trivial (.outbound hq hl) hp

theorem ClosedUnder.poll_inbound_read (hcipher : LawfulCipher σ) (hR : ClosedUnder Move.reads R)
    (fuel : ℕ) : Keeps R (Protocol.poll_inbound_read fuel : ProtocolMethod X σ Unit) := by
  refine Protocol.keeps_poll_inbound_read (D := fun _ => R) (fun p => ⟨?_, ?_⟩)
    (Protocol.triple_on_inbound_channel_messages (fun msg _ => keeps_of_leaves fun p p' hp hl => ?_)
      fun _ hp => hp) fuel
  · exact fun io hio _ => hR.io trivial hio (hcipher.poll_next io.stream) (List.suffix_refl _)
  · exact fun io bs hio _ =>
      ⟨fun _ _ _ => hR.io trivial hio (hcipher.poll_next io.stream) (List.suffix_refl _),
        fun _ _ => hR.io trivial hio (hcipher.poll_next io.stream) (List.suffix_refl _)⟩
  · exact hR _ _ (.inbound msg) trivial (.inbound hl) hp

theorem ClosedUnder.poll_commands (hR : ClosedUnder Move.is_command R) :
    Triple R (Protocol.poll_commands : ProtocolMethod X σ Unit)
      (fun _ p => R p ∧ p.command_rx = []) R := by
  refine Protocol.triple_poll_commands fun p c rest hp hq =>
    keeps_of_leaves fun q p' hq' hl => ?_
  rw [hq'] at hl
  exact hR _ _ (.command c) trivial (.command hq hl) hp

/-- The states the protocol of a session reaches by moves, without any step of the
application. -/
def MovesTo (s : Session X σ) (p : Protocol X σ) : Prop :=
  ∃ tr s', Run Step s tr s' ∧ s'.protocol = p ∧ ∀ t ∈ tr, ∃ move, t.act = .protocol move

theorem MovesTo.refl (s : Session X σ) : MovesTo s s.protocol :=
  ⟨[], s, .nil, rfl, fun _ ht => absurd ht List.not_mem_nil⟩

theorem movesTo_closed (s : Session X σ) : ClosedUnder K (MovesTo s) := by
  rintro p p' move - hmove ⟨tr, s₁, run, rfl, hmoves⟩
  refine ⟨_, _, run.snoc (.protocol hmove), s₁.protocol_after move p', fun t ht => ?_⟩
  rcases List.mem_append.mp ht with ht | ht
  · exact hmoves t ht
  · rw [List.mem_singleton.mp ht]
    exact ⟨move, rfl⟩

/-- Whatever a poll leaves behind, with an event, pending or with an error, is reached
by moves. -/
theorem poll_next_moves (hcipher : LawfulCipher σ) {fuel : ℕ}
    (h : Leaves (Protocol.poll_next fuel) s.protocol p) : MovesTo s p := by
  have hread := (movesTo_closed s).poll_inbound_read hcipher fuel
  have hwrite := ((movesTo_closed s).poll_outbound_write hcipher).conseq (fun _ hp => hp)
    (fun _ _ h => h.1) fun _ h => h
  refine (Protocol.keeps_poll_next (K := MovesTo s) (Protocol.keeps_handshake_wait hwrite hread)
    ?_ ?_ hread ?_ hwrite).leaves (.refl s) h
  · exact fun p key hp hemitted hkey => movesTo_closed (K := fun _ => True) s _ _ _ trivial
      (.handshake hemitted hkey) hp
  · exact fun p e rest hp hq => movesTo_closed (K := fun _ => True) s _ _ _ trivial (.event hq) hp
  · exact (movesTo_closed s).poll_commands.conseq (fun _ hp => hp) (fun _ _ h => h.1) fun _ h => h

end session

end hypercore_protocol
