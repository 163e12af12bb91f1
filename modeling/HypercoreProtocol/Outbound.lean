/-
What becomes of the outbound queue.

A batch that a channel has sent waits in the outbound queue until `poll_outbound_write`
takes it. Its local signals become events and everything else goes to the write queue, in
the order of the batch; a `Close` among them also removes its channel on the way. Between
two batches frames are taken off the write queue and passed to the sink, so what is said
about a whole call accounts for three things at once: the batches that were taken, the
frames that were passed on, and the events (`Moved`).

Commands put nothing but an `Open` into the write queue. So no local signal ever stands
there, and the two places of the encoder that are not implemented for local signals are
not reached.
-/
import HypercoreProtocol.Implemented
import HypercoreProtocol.Outgoing
import HypercoreProtocol.Memory

set_option autoImplicit false

namespace hypercore_protocol

open Rust Wire Runs schema message channels mqueue protocol

/-! ## Local signals -/

def protocol.Event.local_signal : Event → Option (Str × Vec UInt8)
  | .LocalSignal name data => some (name, data)
  | _ => none

namespace protocol

variable {X : Deps} {σ : Type}

/-- What of the messages goes to the write queue: all but the local signals, in their order. -/
def written (messages : List (ChannelMessage X)) : List (ChannelMessage X) :=
  messages.filter fun msg => msg.message.local_signal.isNone

/-- The local signals among the messages, in their order. They become events of this side. -/
def signals (messages : List (ChannelMessage X)) : List (Str × Vec UInt8) :=
  messages.filterMap fun msg => msg.message.local_signal

theorem written_append (l r : List (ChannelMessage X)) :
    written (l ++ r) = written l ++ written r :=
  List.filter_append l r

theorem signals_append (l r : List (ChannelMessage X)) :
    signals (l ++ r) = signals l ++ signals r :=
  List.filterMap_append

theorem local_signal_of_mem_written {messages : List (ChannelMessage X)} {msg : ChannelMessage X}
    (h : msg ∈ written messages) : msg.message.local_signal = none :=
  Option.isNone_iff_eq_none.mp (List.mem_filter.mp h).2

namespace Protocol

variable {p p' : Protocol X σ}

/-- One message: it is kept unless it is a local signal, and then it is the event. -/
theorem OutboundEffect.partitions {msg : ChannelMessage X} {keep : Bool}
    (h : OutboundEffect p msg keep p') :
    keep = msg.message.local_signal.isNone ∧ ∃ es, p'.queued_events = p.queued_events ++ es ∧
      es.filterMap Event.local_signal = signals [msg] := by
  cases h with
  | close_unknown => exact ⟨rfl, [], (List.append_nil _).symm, rfl⟩
  | closed => exact ⟨rfl, _, rfl, rfl⟩
  | signalled => exact ⟨rfl, _, rfl, rfl⟩
  | @passed ch message hclose hsignal =>
    have hnone : message.local_signal = none := by
      cases message with
      | LocalSignal name data => exact absurd rfl (hsignal name data)
      | _ => rfl
    refine ⟨by rw [hnone]; rfl, [], (List.append_nil _).symm, ?_⟩
    simp only [signals, List.filterMap_cons, hnone, List.filterMap_nil]

/-- A batch, message by message. By induction over the effect, with the events put together on
the way. -/
theorem BatchEffect.partitions {msgs kept : List (ChannelMessage X)}
    (h : BatchEffect p msgs kept p') :
    kept = written msgs ∧ ∃ es, p'.queued_events = p.queued_events ++ es ∧
      es.filterMap Event.local_signal = signals msgs := by
  induction h with
  | nil p => exact ⟨rfl, [], (List.append_nil _).symm, rfl⟩
  | @cons p p₁ p' msg msgs kept keep head tail ih =>
    obtain ⟨rfl, es, hes, hsignals⟩ := OutboundEffect.partitions head
    obtain ⟨rfl, es', hes', hsignals'⟩ := ih
    refine ⟨?_, es ++ es', by rw [hes', hes, List.append_assoc], ?_⟩
    · simp only [written, List.filter_cons]
    · rw [List.filterMap_append, hsignals, hsignals']
      exact (signals_append [msg] msgs).symm

/-- One batch, from the front of the outbound queue: its messages are written, its signals are
events, and handling it never fails. -/
theorem on_outbound_batch_partitions [CipherTrait σ] (hm : p.channels.Wf)
    (batch : List (ChannelMessage X)) :
    ∃ p', (on_outbound_batch batch).run p = .ok () p' ∧ p'.channels.Wf ∧ SameFrame p p' ∧
      p'.io.write_queue = p.io.write_queue ++ written batch ∧
      ∃ es, p'.queued_events = p.queued_events ++ es ∧
        es.filterMap Event.local_signal = signals batch := by
  obtain ⟨kept, q, heff, hrun⟩ := on_outbound_batch_spec hm batch
  obtain ⟨rfl, es, hes, hsignals⟩ := BatchEffect.partitions heff
  have hf := heff.frame
  refine ⟨_, hrun, heff.wf hm, ⟨hf.stream, hf.is_initiator, hf.command_rx, hf.outbound_rx,
    hf.handshake_emitted⟩, ?_, es, hes, hsignals⟩
  show q.io.write_queue ++ written batch = _
  rw [heff.io]

/-! ## A call of `poll_outbound_write` -/

/-- From `p` to `p'` these batches were taken from the outbound queue, and these calls were
made on the sink. What was in the write queue, and behind it what the batches hold, are the
frames that were passed on, then what is lost, then the write queue as it is now; and the
local signals of the batches are events. -/
structure Moved (p p' : Protocol X (Logged σ)) (batches : List (List (ChannelMessage X)))
    (calls : List SinkCall) (lost : List (ChannelMessage X)) : Prop where
  taken : p.outbound_rx = batches ++ p'.outbound_rx
  log : p'.io.stream.calls = p.io.stream.calls ++ calls
  queue : ∃ frames, List.Forall₂ (fun L buf => to_encoded_bytes L = .ok buf) frames (sent calls) ∧
    frames.flatten ++ (lost ++ p'.io.write_queue) =
      p.io.write_queue ++ written batches.flatten
  events : ∃ es, p'.queued_events = p.queued_events ++ es ∧
    es.filterMap Event.local_signal = signals batches.flatten

theorem Moved.trans {p p' p'' : Protocol X (Logged σ)}
    {batches batches' : List (List (ChannelMessage X))} {calls calls' : List SinkCall}
    {lost : List (ChannelMessage X)} (h : Moved p p' batches calls [])
    (h' : Moved p' p'' batches' calls' lost) :
    Moved p p'' (batches ++ batches') (calls ++ calls') lost := by
  obtain ⟨frames, hbytes, hqueue⟩ := h.queue
  obtain ⟨frames', hbytes', hqueue'⟩ := h'.queue
  obtain ⟨es, hes, hsignals⟩ := h.events
  obtain ⟨es', hes', hsignals'⟩ := h'.events
  refine ⟨?_, ?_, ⟨frames ++ frames', ?_, ?_⟩, es ++ es', ?_, ?_⟩
  · rw [h.taken, h'.taken, List.append_assoc]
  · rw [h'.log, h.log, List.append_assoc]
  · rw [sent_append]
    exact List.rel_append hbytes hbytes'
  · calc (frames ++ frames').flatten ++ (lost ++ p''.io.write_queue)
        = frames.flatten ++ (frames'.flatten ++ (lost ++ p''.io.write_queue)) := by
          rw [List.flatten_append, List.append_assoc]
      _ = frames.flatten ++ ([] ++ p'.io.write_queue) ++ written batches'.flatten := by
          rw [hqueue', List.nil_append, List.append_assoc]
      _ = p.io.write_queue ++ written (batches ++ batches').flatten := by
          rw [hqueue, List.flatten_append, written_append, List.append_assoc]
  · rw [hes', hes, List.append_assoc]
  · rw [List.filterMap_append, hsignals, hsignals', List.flatten_append, signals_append]

/-- How the call ended: with the outbound queue empty, or with an error of the sink, or with
a frame that could not be encoded. Only such a frame is lost. -/
def EndsWith (r : Res IoError Unit) (p' : Protocol X (Logged σ)) (calls : List SinkCall)
    (lost : List (ChannelMessage X)) : Prop :=
  match r with
  | .ok _ => lost = [] ∧ p'.outbound_rx = []
  | .error f => (lost = [] ∧ ∃ call ∈ calls, ∃ e, call.error = some e ∧ f = .err e) ∨
      map_err X.into_io_error (to_encoded_bytes lost) = .error f

theorem EndsWith.later {r : Res IoError Unit} {p' : Protocol X (Logged σ)}
    {calls : List SinkCall} {lost : List (ChannelMessage X)} (h : EndsWith r p' calls lost)
    (before : List SinkCall) : EndsWith r p' (before ++ calls) lost := by
  cases r with
  | ok _ => exact h
  | error f =>
    refine h.imp_left fun hl => ⟨hl.1, ?_⟩
    obtain ⟨call, hcall, he⟩ := hl.2
    exact ⟨call, List.mem_append_right _ hcall, he⟩

variable [CipherTrait σ]

/-- Writing frames takes them off the write queue. If a frame could not be encoded, its messages
are lost, and then the call ends with this error. -/
theorem moved_poll_outbound (p : Protocol X (Logged σ)) :
    ∃ r p₁ calls lost, (on_io MessageIo.poll_outbound).run p = MessageIo.ends r p₁ ∧
      Moved p p₁ [] calls lost ∧ p₁.channels = p.channels ∧
      ((∃ a, r = .ok a) → lost = []) ∧
      ∀ f, r = .error f → EndsWith (.error f) p₁ calls lost := by
  obtain ⟨calls, r, io', hdrives, hrun, -, hcalls⟩ := MessageIo.poll_outbound_logged p.io
  obtain ⟨frames, lost, hbytes, hqueue, -, hlost⟩ := hdrives.conserves
  refine ⟨r, { p with io := io' }, calls, lost, ?_,
    ⟨rfl, hcalls, ⟨frames, hbytes, ?_⟩, [], ?_, rfl⟩, rfl, ?_, ?_⟩
  · rw [on_io, Method.run_on, hrun]
    cases r <;> rfl
  · exact hqueue.trans (List.append_nil _).symm
  · exact (List.append_nil _).symm
  · rintro ⟨a, rfl⟩
    exact (hlost.resolve_right (by rintro ⟨f, ⟨⟩, -⟩)).1
  · rintro f rfl
    rcases hlost with ⟨hnil, hfault⟩ | ⟨f', hf', -, henc⟩
    · exact Or.inl ⟨hnil, hfault f rfl⟩
    · exact Or.inr (Except.error.inj hf' ▸ henc)

/-- The rounds of the loop. The induction is on the fuel, which is more than there are
batches, and the channel map stays well-formed from one batch to the next. -/
theorem moved_poll_outbound_write_loop (fuel : ℕ) {p : Protocol X (Logged σ)}
    (hm : p.channels.Wf) (hfuel : p.outbound_rx.length < fuel) :
    ∃ r p' batches calls lost,
      (poll_outbound_write_loop fuel : ProtocolMethod X (Logged σ) Unit).run p
        = MessageIo.ends r p' ∧ Moved p p' batches calls lost ∧ EndsWith r p' calls lost := by
  induction fuel generalizing p with
  | zero => exact absurd hfuel (Nat.not_lt_zero _)
  | succ fuel ih =>
    obtain ⟨r, p₁, calls, lost, hrun, hmoved, hchannels, hok, herror⟩ := moved_poll_outbound p
    rw [poll_outbound_write_loop, EStateM.run_bind, hrun]
    cases r with
    -- the sink has failed or the frame does not encode: the loop ends, with what was lost
    | error f => exact ⟨.error f, p₁, [], calls, lost, rfl, hmoved, herror f rfl⟩
    | ok answer =>
      obtain rfl := hok ⟨answer, rfl⟩
      show ∃ r p' batches calls lost, (pop_outbound >>= _).run p₁ = _ ∧ _ ∧ _
      rw [EStateM.run_bind, run_pop_outbound]
      cases hrx : p₁.outbound_rx with
      | nil =>
        exact ⟨.ok (), p₁, [], calls, [], rfl, hmoved, rfl, hrx⟩
      | cons batch rest =>
        obtain ⟨p₂, hbatch, hm₂, hframe, hqueue, hevents⟩ :=
          on_outbound_batch_partitions (p := { p₁ with outbound_rx := rest }) (hchannels ▸ hm) batch
        have hmoved₂ : Moved p₁ p₂ [batch] [] [] := by
          refine ⟨?_, ?_, ⟨[], .nil, ?_⟩, ?_⟩
          · rw [hframe.outbound_rx]
            exact hrx
          · rw [hframe.stream, List.append_nil]
          · rw [List.flatten_singleton]
            exact hqueue
          · rw [List.flatten_singleton]
            exact hevents
        -- writing takes no batch, so taking one leaves fewer than before
        have hshort : p₂.outbound_rx.length < fuel := by
          have htaken := congrArg List.length hmoved.taken
          rw [hrx] at htaken
          rw [hframe.outbound_rx]
          simp only [List.nil_append, List.length_cons] at htaken ⊢
          omega
        obtain ⟨r, p', batches, calls', lost, hloop, hmoved', hends⟩ := ih hm₂ hshort
        refine ⟨r, p', [batch] ++ batches, calls ++ calls', lost, ?_, ?_, hends.later calls⟩
        · show (on_outbound_batch batch >>= fun _ => poll_outbound_write_loop fuel).run
            { p₁ with outbound_rx := rest } = _
          rw [EStateM.run_bind, hbatch]
          exact hloop
        · exact hmoved.trans (hmoved₂.trans hmoved')

/-- A whole call: the loop is given enough fuel. -/
theorem moved_poll_outbound_write {p : Protocol X (Logged σ)} (hm : p.channels.Wf) :
    ∃ r p' batches calls lost,
      (poll_outbound_write : ProtocolMethod X (Logged σ) Unit).run p = MessageIo.ends r p' ∧
        Moved p p' batches calls lost ∧ EndsWith r p' calls lost :=
  moved_poll_outbound_write_loop _ hm (Nat.lt_succ_self _)

end Protocol

end protocol

/-! ## The write queue of a session -/

namespace session

variable {X : Deps} {σ : Type} [CipherTrait σ] {s s' : Session X σ} {p p' : Protocol X σ}
  {a : Action X} {tr : List (Happening X σ)} {c : Channel}

/-- A move that takes no batch adds an `Open` to the write queue, or takes messages off its
front. -/
theorem protocol_step_write_queue (hm : p.channels.Wf) {move : Move X}
    (h : protocol_step p move p') :
    (∃ batch, move = .outbound batch ∧
      p'.io.write_queue = p.io.write_queue ++ written batch) ∨
    (∃ i d cap, p'.io.write_queue = p.io.write_queue ++ [open_message i d cap]) ∨
      p'.io.write_queue <:+ p.io.write_queue := by
  cases move with
  | command cmd =>
    obtain ⟨rest, result, -, heff⟩ := command_effect hm h
    cases heff with
    | opened => exact Or.inr (Or.inl ⟨_, _, _, rfl⟩)
    | accepted => exact Or.inr (Or.inl ⟨_, _, _, rfl⟩)
    | refused => exact Or.inr (Or.inr (List.suffix_refl _))
    | close_absent => exact Or.inr (Or.inr (List.suffix_refl _))
    | closed => exact Or.inr (Or.inr (List.suffix_refl _))
    | signalled => exact Or.inr (Or.inr (List.suffix_refl _))
  | inbound msg =>
    obtain ⟨result, heff⟩ := inbound_effect hm h
    -- handling a message from the remote writes nothing
    have hio : p'.io = p.io := by cases heff <;> rfl
    rw [hio]
    exact Or.inr (Or.inr (List.suffix_refl _))
  | outbound batch =>
    obtain ⟨rest, kept, q, -, heff, rfl⟩ := outbound_effect hm h
    obtain ⟨rfl, -⟩ := Protocol.BatchEffect.partitions heff
    refine Or.inl ⟨batch, rfl, ?_⟩
    show q.io.write_queue ++ written batch = _
    rw [heff.io]
  | io =>
    cases h with
    | io hkeeps hsuffix => exact Or.inr (Or.inr hsuffix)
  | handshake key => cases h; exact Or.inr (Or.inr (List.suffix_refl _))
  | event e => cases h; exact Or.inr (Or.inr (List.suffix_refl _))

/-- No local signal waits to be written. The encoder has no bytes for one, and would panic. -/
def Unsignalled (p : Protocol X σ) : Prop :=
  ∀ msg ∈ p.io.write_queue, msg.message.local_signal = none

theorem Step.unsignalled (h : Step s a s') (hs : Inv s) (hu : Unsignalled s.protocol) :
    Unsignalled s'.protocol := by
  rcases h.move_or_aside with ⟨move, -, hmove⟩ | ⟨-, hq⟩
  · intro msg hmsg
    rcases protocol_step_write_queue hs.wf hmove with
      ⟨batch, -, hqueue⟩ | ⟨i, d, cap, hqueue⟩ | hsuffix
    · rw [hqueue] at hmsg
      exact (List.mem_append.mp hmsg).elim (hu msg) local_signal_of_mem_written
    · rw [hqueue] at hmsg
      rcases List.mem_append.mp hmsg with hmsg | hmsg
      · exact hu msg hmsg
      · rw [List.mem_singleton.mp hmsg]
        rfl
    · exact hu msg (hsuffix.subset hmsg)
  · rw [Unsignalled, hq.io]
    exact hu

theorem reachable_unsignalled {stream : σ} (run : Run Step (Session.new stream) tr s) :
    Unsignalled s.protocol :=
  Run.invariant (I := fun _ s => Unsignalled s.protocol) (fun _ h => absurd h List.not_mem_nil)
    (fun _ _ _ _ run hu h => h.unsignalled (reachable_inv run) hu) run

/-- The panic of code that is not there: `unimplemented!`, which the encoder calls for a local
signal. -/
def Unimplemented (pan : Panic) : Prop := ∃ message, pan = .unimplemented message

/-- The step takes its batch from the outbound queue, and this batch is partitioned: to the
end of the write queue goes what is no local signal, in order, and the local signals become
events, one for each, in order. -/
def Partitions (t : Happening X σ) : Prop :=
  ∀ batch, t.act = .protocol (.outbound batch) →
    t.pre.protocol.outbound_rx = batch :: t.post.protocol.outbound_rx ∧
    t.post.protocol.io.write_queue = t.pre.protocol.io.write_queue ++ written batch ∧
    ∃ es, t.post.protocol.queued_events = t.pre.protocol.queued_events ++ es ∧
      es.filterMap Event.local_signal = signals batch

theorem Step.partitions (h : Step s a s') (hs : Inv s) :
    Partitions (⟨s, a, s'⟩ : Happening X σ) := by
  rintro batch rfl
  cases h with
  | protocol h =>
    rename_i p
    show s.protocol.outbound_rx = batch :: p.outbound_rx ∧
      p.io.write_queue = s.protocol.io.write_queue ++ written batch ∧
      ∃ es, p.queued_events = s.protocol.queued_events ++ es ∧ _
    obtain ⟨rest, kept, q, hrx, heff, rfl⟩ := outbound_effect hs.wf h
    obtain ⟨rfl, hevents⟩ := Protocol.BatchEffect.partitions heff
    refine ⟨?_, ?_, hevents⟩
    · rw [hrx]
      exact congrArg _ heff.frame.outbound_rx.symm
    · show q.io.write_queue ++ written batch = _
      rw [heff.io]

/-- Outbound messages are partitioned without loss. In every run, each batch that is taken
from the outbound queue is; so is everything that one call of `poll_outbound_write` takes
from it, however the call ends, where what has left the write queue was passed to the sink
or is the frame that could not be encoded. No local signal is ever in the write queue, and
`poll_outbound` does not reach code that is not implemented, unless the other crates do. -/
theorem outbound_partitioned {σ : Type} [CipherTrait σ] {stream : Logged σ}
    {tr : List (Happening X (Logged σ))} {s : Session X (Logged σ)}
    (hX : X.NoPanic Unimplemented) (run : Run Step (Session.new stream) tr s) :
    (∀ t ∈ tr, Partitions t) ∧
    (∃ r p' batches calls lost,
      Protocol.poll_outbound_write.run s.protocol = MessageIo.ends r p' ∧
      Protocol.Moved s.protocol p' batches calls lost ∧ Protocol.EndsWith r p' calls lost) ∧
    (∀ msg ∈ s.protocol.io.write_queue, msg.message.local_signal = none) ∧
    ∀ message io', MessageIo.poll_outbound.run s.protocol.io
      ≠ .error (.panic (.unimplemented message)) io' := by
  have hu := reachable_unsignalled run
  refine ⟨?_, Protocol.moved_poll_outbound_write (reachable_inv run).wf, hu, fun message io' => ?_⟩
  · induction run with
    | nil => exact fun t ht => absurd ht List.not_mem_nil
    | @snoc tr s s' a run h ih =>
      intro t ht
      rcases List.mem_append.mp ht with ht | ht
      · exact ih (reachable_unsignalled run) t ht
      · rw [List.mem_singleton.mp ht]
        exact h.partitions (reachable_inv run)
  · exact MessageIo.poll_outbound_noPanic hX hu ⟨message, rfl⟩ io'

/-- The established session, over a connection whose sink writes its calls down. So it can be
seen what was sent. -/
def established_logged : Session compact_encoding.deps (Logged Memory) where
  protocol :=
    { io := ⟨⟨Memory.connected false, []⟩, established.protocol.io.write_queue⟩
      is_initiator := false
      channels := established.protocol.channels
      command_rx := []
      outbound_rx := []
      queued_events := []
      handshake_emitted := false }
  held := [first_channel]
  sending := []
  closing := []
  senders := []

theorem established_logged_reachable :
    ∃ tr, Run Step (Session.new ⟨Memory.connected false, []⟩) tr established_logged := by
  have run₀ : Run Step (Session.new ⟨Memory.connected false, []⟩ :
      Session compact_encoding.deps (Logged Memory)) [] _ := .nil
  have run₁ := run₀.snoc (.queue_command (.Open (compact_encoding.sample 1)) (by decide))
  have run₂ := run₁.snoc (.protocol (.command rfl (Or.inl ⟨(), rfl⟩)))
  have run₃ := run₂.snoc
    (a := .protocol (.inbound (remote_open 1 (compact_encoding.sample 1))))
    (.protocol (.inbound (Or.inl ⟨(), rfl⟩)))
  have run₄ := run₃.snoc (.protocol (.event rfl))
  exact ⟨_, run₄⟩

/-- The channel sends two cancellations with a local signal between them. The cancellations are
written, and the signal is an event. -/
theorem outbound_partitioned_signal :
    ∃ tr s, Run Step (Session.new ⟨Memory.connected false, []⟩ :
        Session compact_encoding.deps (Logged Memory)) tr s ∧
      s.protocol.io.write_queue.tail = [⟨1, .Cancel ⟨5⟩⟩, ⟨1, .Cancel ⟨6⟩⟩] ∧
      s.protocol.queued_events = [.LocalSignal PROTOCOL_NAME .empty] ∧ ∀ t ∈ tr, Partitions t := by
  obtain ⟨tr, run₀⟩ := established_logged_reachable
  have run₁ := run₀.snoc (.send (c := first_channel)
    [.Cancel ⟨5⟩, .LocalSignal PROTOCOL_NAME .empty, .Cancel ⟨6⟩] List.mem_cons_self rfl)
  have run₂ := run₁.snoc (.enqueue (l := []) rfl (by decide))
  have run₃ := run₂.snoc (.protocol (.outbound rfl (Or.inl ⟨(), rfl⟩)))
  refine ⟨_, _, run₃, rfl, rfl, (outbound_partitioned ?_ run₃).1⟩
  exact compact_encoding.deps_noPanic (by rintro ⟨message, ⟨⟩⟩)

end session

end hypercore_protocol
