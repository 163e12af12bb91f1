/-
Local signals stay local.

A `LocalSignal` is a message like the others, but it is not meant for the remote, nor
from it: it is how a channel signals its own protocol, and how an application puts a note
into the queue of a channel. Nothing in its type says where it came from, so an
application that acts on one relies on two things. The remote must not be able to make one
appear, neither as an event nor in a channel; and each that was issued must come out, once
and in order. The first rests on the decoder, which has no way to build the value
(`decoded_no_signal`), the second on the queues.
-/
import HypercoreProtocol.Queues
import HypercoreProtocol.Outbound
import HypercoreProtocol.MessageSpec

set_option autoImplicit false

namespace hypercore_protocol

open Rust Method Wire Runs schema message channels mqueue protocol compact_encoding

variable {X : Deps}

/-! ## The decoder -/

namespace message

/-- What a payload decodes to is a message of its own type. The type number was read before
it. -/
theorem decode_message_inv {α : Type} {c : Codec EncodingError α} {mk : α → Message X}
    {b rest : Bytes} {m : Message X} (h : Message.decode_message c mk b = .ok (m, rest)) :
    ∃ x, m = mk x := by
  obtain ⟨⟨x, rest₁⟩, -, h⟩ := bind_eq_ok h
  exact ⟨x, (Prod.mk.inj (Except.ok.inj h)).1.symm⟩

/-- Decoded messages are of the ten types that may share a frame. `Open` and `Close` have a frame
and a decoder of their own. -/
theorem Message.decode_is_data {b rest : Bytes} {m : Message X}
    (h : Message.decode X b = .ok (m, rest)) : m.is_data = true := by
  obtain ⟨⟨typ, rest₁⟩, -, h⟩ := bind_eq_ok h
  dsimp only at h
  -- a branch for each type, and one for all other numbers
  split at h
  case h_11 => cases h
  all_goals
    obtain ⟨x, rfl⟩ := decode_message_inv h
    rfl

theorem local_signal_of_is_data {m : Message X} (h : m.is_data = true) : m.local_signal = none := by
  cases m with
  | LocalSignal => cases h
  | _ => rfl

/-- No local signal is among the messages. This is kept when messages are added to it that were
decoded. -/
def Unsignalled (messages : List (ChannelMessage X)) : Prop :=
  ∀ msg ∈ messages, msg.message.local_signal = none

theorem unsignalled_singleton {msg : ChannelMessage X} (h : msg.message.local_signal = none) :
    Unsignalled [msg] :=
  List.forall_mem_singleton.mpr h

theorem Unsignalled.append {l r : List (ChannelMessage X)} (hl : Unsignalled l)
    (hr : Unsignalled r) : Unsignalled (l ++ r) :=
  List.forall_mem_append.mpr ⟨hl, hr⟩

theorem decode_with_channel_no_signal {buf rest : Bytes} {channel : UInt64}
    {msg : ChannelMessage X}
    (h : ChannelMessage.decode_with_channel X buf channel = .ok (msg, rest)) :
    msg.message.local_signal = none := by
  rw [ChannelMessage.decode_with_channel] at h
  split at h
  · cases h
  · obtain ⟨⟨m, rest₁⟩, hm, h⟩ := bind_eq_ok h
    obtain ⟨rfl, -⟩ := Prod.mk.inj (Except.ok.inj h)
    exact local_signal_of_is_data (Message.decode_is_data (map_err_eq_ok hm))

/-- The loop over a batch adds nothing but decoded messages. By induction over the fuel, with the
messages so far as the invariant. -/
theorem decode_batch_loop_no_signal (og_len fuel : ℕ) {channel : UInt64} {buf rest : Bytes}
    {messages decoded : List (ChannelMessage X)} (hmessages : Unsignalled messages)
    (h : decode_batch_loop X og_len fuel channel buf messages = .ok (decoded, rest)) :
    Unsignalled decoded := by
  induction fuel generalizing channel buf messages with
  | zero =>
    rw [decode_batch_loop] at h
    split at h
    · obtain ⟨rfl, -⟩ := Prod.mk.inj (Except.ok.inj h)
      exact hmessages
    · cases h
  | succ fuel ih =>
    rw [decode_batch_loop] at h
    split at h
    · obtain ⟨rfl, -⟩ := Prod.mk.inj (Except.ok.inj h)
      exact hmessages
    · obtain ⟨⟨length, buf₁⟩, -, h⟩ := bind_eq_ok h
      dsimp only at h
      split at h
      · cases h
      obtain ⟨⟨msg, buf₂⟩, hmsg, h⟩ := bind_eq_ok h
      have hmore : Unsignalled (messages ++ [msg]) :=
        hmessages.append (unsignalled_singleton (decode_with_channel_no_signal hmsg))
      dsimp only at h
      split at h
      · obtain ⟨⟨channel', buf₃⟩, -, h⟩ := bind_eq_ok h
        exact ih hmore h
      · exact ih hmore h

theorem decode_open_message_no_signal {buf : Bytes} {msg : ChannelMessage X} {n : ℕ}
    (h : ChannelMessage.decode_open_message X buf = .ok (msg, n)) :
    msg.message.local_signal = none := by
  rw [ChannelMessage.decode_open_message] at h
  dsimp only at h
  split at h
  · cases h
  · obtain ⟨⟨o, rest⟩, -, h⟩ := bind_eq_ok h
    obtain ⟨rfl, -⟩ := Prod.mk.inj (Except.ok.inj h)
    rfl

theorem decode_close_message_no_signal {buf : Bytes} {msg : ChannelMessage X} {n : ℕ}
    (h : ChannelMessage.decode_close_message X buf = .ok (msg, n)) :
    msg.message.local_signal = none := by
  rw [ChannelMessage.decode_close_message] at h
  dsimp only at h
  split at h
  · cases h
  · obtain ⟨⟨c, rest⟩, -, h⟩ := bind_eq_ok h
    obtain ⟨rfl, -⟩ := Prod.mk.inj (Except.ok.inj h)
    rfl

/-- **No frame decodes to a local signal**, whatever its bytes are: there is no type number for
them. -/
theorem decode_unframed_no_signal {buf : Bytes} {decoded : List (ChannelMessage X)} {n : ℕ}
    (h : decode_unframed_channel_messages X buf = .ok (decoded, n)) : Unsignalled decoded := by
  rw [decode_unframed_channel_messages] at h
  dsimp only at h
  split at h
  · obtain ⟨kind, -, h⟩ := bind_eq_ok h
    split at h
    · obtain ⟨⟨tag, buf₁⟩, -, h⟩ := bind_eq_ok h
      obtain ⟨⟨channel, buf₂⟩, -, h⟩ := bind_eq_ok h
      obtain ⟨⟨messages, buf₃⟩, hloop, h⟩ := bind_eq_ok h
      obtain ⟨rfl, -⟩ := Prod.mk.inj (Except.ok.inj h)
      exact decode_batch_loop_no_signal _ _ (fun _ h => absurd h List.not_mem_nil) hloop
    split at h
    · obtain ⟨rest, -, h⟩ := bind_eq_ok h
      obtain ⟨⟨msg, length⟩, hmsg, h⟩ := bind_eq_ok h
      obtain ⟨rfl, -⟩ := Prod.mk.inj (Except.ok.inj h)
      exact unsignalled_singleton (decode_open_message_no_signal hmsg)
    split at h
    · obtain ⟨rest, -, h⟩ := bind_eq_ok h
      obtain ⟨⟨msg, length⟩, hmsg, h⟩ := bind_eq_ok h
      obtain ⟨rfl, -⟩ := Prod.mk.inj (Except.ok.inj h)
      exact unsignalled_singleton (decode_close_message_no_signal hmsg)
    · cases h
  · split at h
    · obtain ⟨⟨msg, rest⟩, hmsg, h⟩ := bind_eq_ok h
      obtain ⟨rfl, -⟩ := Prod.mk.inj (Except.ok.inj h)
      obtain ⟨⟨channel, buf₁⟩, -, hmsg⟩ := bind_eq_ok (map_err_eq_ok hmsg)
      obtain ⟨⟨m, buf₂⟩, hm, hmsg⟩ := bind_eq_ok hmsg
      obtain ⟨rfl, -⟩ := Prod.mk.inj (Except.ok.inj hmsg)
      exact unsignalled_singleton (local_signal_of_is_data (Message.decode_is_data hm))
    · cases h

/-- Nothing that is decoded is a local signal. So a remote cannot make the application believe
that it has signalled itself. -/
theorem vec_decode_no_signal {bs rest : Bytes} {decoded : List (ChannelMessage X)}
    (h : vec_decode X bs = .ok (decoded, rest)) : Unsignalled decoded := by
  have hloop : ∀ fuel buf messages, Unsignalled messages →
      vec_decode_loop X fuel buf messages = .ok (decoded, rest) → Unsignalled decoded := by
    intro fuel
    induction fuel with
    | zero =>
      intro buf messages hmessages h
      rw [vec_decode_loop] at h
      split at h
      · obtain ⟨rfl, -⟩ := Prod.mk.inj (Except.ok.inj h)
        exact hmessages
      · cases h
    | succ fuel ih =>
      intro buf messages hmessages h
      rw [vec_decode_loop] at h
      split at h
      · obtain ⟨rfl, -⟩ := Prod.mk.inj (Except.ok.inj h)
        exact hmessages
      · obtain ⟨⟨frame, length⟩, hframe, h⟩ := bind_eq_ok h
        obtain ⟨buf₁, -, h⟩ := bind_eq_ok h
        exact ih buf₁ _ (hmessages.append (decode_unframed_no_signal (map_err_eq_ok hframe))) h
  exact hloop bs.length bs [] (fun _ h => absurd h List.not_mem_nil) h

end message

namespace session

variable {σ : Type} [CipherTrait σ] {s s' : Session X σ} {p p' : Protocol X σ} {a : Action X}

/-! ## Signals that are issued -/

/-- A local signal that the application gets as an event. One that it receives on a channel is a
message, and not among these. -/
def Sight.signal : Sight X → Option (Str × Vec UInt8)
  | .event e => e.local_signal
  | .app _ => none

/-- A message that the application puts into queue `n` itself, past the protocol. -/
def Sight.note (n : ℕ) : Sight X → Option (Message X)
  | .app (.local_send c msg) => if c.direct_inbound_tx = n then some msg else none
  | _ => none

/-- The local signals in a command that is handled, or in a batch that is taken. These are the
two ways to the event queue. -/
def Action.issued : Action X → List (Str × Vec UInt8)
  | .protocol (.command (.SignalLocal name data)) => [(name, data)]
  | .protocol (.outbound batch) => signals batch
  | _ => []

/-- The events that a move queues hold the signals that it issues, and no others. A move that
returns an event takes one off instead. -/
theorem protocol_step_signals (hm : p.channels.Wf) {move : Move X} (h : protocol_step p move p')
    (hno : ∀ e, move ≠ .event e) :
    ∃ es, p'.queued_events = p.queued_events ++ es ∧
      es.filterMap Event.local_signal = (Action.protocol move).issued := by
  have hnone : ∃ es, p.queued_events = p.queued_events ++ es ∧
      es.filterMap Event.local_signal = [] := ⟨[], (List.append_nil _).symm, rfl⟩
  cases move with
  | command c =>
    obtain ⟨rest, result, -, heff⟩ := command_effect hm h
    cases heff with
    | opened => exact hnone
    | accepted => exact ⟨_, rfl, rfl⟩
    | refused => exact hnone
    | close_absent => exact hnone
    | closed => exact ⟨_, rfl, rfl⟩
    | signalled => exact ⟨_, rfl, rfl⟩
  | inbound msg =>
    obtain ⟨result, heff⟩ := inbound_effect hm h
    cases heff with
    | announced => exact ⟨_, rfl, rfl⟩
    | accepted => exact ⟨_, rfl, rfl⟩
    | closed => exact ⟨_, rfl, rfl⟩
    | _ => exact hnone
  | outbound batch =>
    obtain ⟨rest, kept, q, -, heff, rfl⟩ := outbound_effect hm h
    exact (Protocol.BatchEffect.partitions heff).2
  | io => cases h; exact hnone
  | handshake key => cases h; exact hnone
  | event e => exact absurd rfl (hno e)

theorem announced_signal (x : Sight X) : x.announced.bind Event.local_signal = x.signal := by
  cases x with
  | app a => rfl
  | event e => cases e <;> rfl

/-- Signals: a step returns the first one as an event, or issues some. The events in between are
not counted here. -/
theorem Step.signals_conserved (h : Step s a s') (hs : Inv s)
    (hq : ∀ e ∈ s.protocol.queued_events, is_handshake e = false) :
    s.protocol.queued_events.filterMap Event.local_signal ++ a.issued =
      a.sight.filterMap Sight.signal ++ s'.protocol.queued_events.filterMap Event.local_signal := by
  have hqueued : (queued (⟨s, a, s'⟩ : Happening X σ)).filterMap Event.local_signal = a.issued := by
    rcases h.move_or_aside with ⟨move, rfl, hmove⟩ | ⟨hno, haside⟩
    · by_cases he : ∃ e, move = .event e
      · obtain ⟨e, rfl⟩ := he
        have hless : s.protocol.queued_events = e :: s'.protocol.queued_events := by
          generalize s'.protocol = p' at hmove
          cases hmove with
          | event he => exact he
        have hnil : queued (⟨s, .protocol (.event e), s'⟩ : Happening X σ) = [] := by
          rw [queued, hless]
          exact List.drop_eq_nil_of_le (Nat.le_succ _)
        rw [hnil]
        rfl
      · obtain ⟨es, hes, hsignals⟩ := protocol_step_signals hs.wf hmove fun e h => he ⟨e, h⟩
        rw [queued_eq hes, hsignals]
    · have hes : s'.protocol.queued_events = s.protocol.queued_events ++ [] := by
        rw [haside.queued_events, List.append_nil]
      rw [queued_eq hes]
      cases a with
      | protocol move => exact absurd rfl (hno move)
      | _ => rfl
  have hsight : (a.sight.filterMap Sight.announced).filterMap Event.local_signal =
      a.sight.filterMap Sight.signal := by
    rw [List.filterMap_filterMap]
    exact congrArg (List.filterMap · a.sight) (funext announced_signal)
  rw [← hqueued, ← hsight, ← List.filterMap_append, ← List.filterMap_append]
  exact congrArg _ (h.events_conserved hs hq)

omit [CipherTrait σ] in
/-- Of what is put into the queue of a channel, the signals are the application's own, as none
comes from the remote. -/
theorem puts_signals {t : Happening X σ} {n : ℕ}
    (h : ∀ msg, t.act = .protocol (.inbound msg) → msg.message.local_signal = none) :
    (puts n t).filterMap Message.local_signal =
      (t.act.sight.filterMap (Sight.note n)).filterMap Message.local_signal := by
  obtain ⟨s, a, s'⟩ := t
  cases a with
  | protocol move =>
    cases move with
    | inbound msg =>
      have hnone : [msg.message].filterMap Message.local_signal = [] := by
        rw [List.filterMap_cons, h msg rfl, List.filterMap_nil]
      show List.filterMap _ (if _ then _ else _) = _
      split
      · exact hnone
      · rfl
    | _ => rfl
  | local_send c msg =>
    have hnote : ([Sight.app (.local_send c msg)] : List (Sight X)).filterMap (Sight.note n) =
        if c.direct_inbound_tx = n then [msg] else [] := by
      by_cases hn : c.direct_inbound_tx = n
      · rw [List.filterMap_cons, Sight.note, if_pos hn, if_pos hn]
        rfl
      · rw [List.filterMap_cons, Sight.note, if_neg hn, if_neg hn]
        rfl
    exact congrArg _ hnote.symm
  | _ => rfl

theorem reads_no_signal : Reads (fun msg : ChannelMessage X => msg.message.local_signal = none)
    fun _ : Protocol X σ => True where
  decoded _ _ _ h := vec_decode_no_signal h
  message _ _ _ := trivial
  kept _ _ _ _ _ _ := trivial

/-- Local signals stay local. Over every run of calls and polls, seen as a run of moves: the
signals that polls have returned as events, and those that wait to be returned, are those
in the commands that were handled and in the batches that were taken, in that order; the
commands and batches are the application's own. And the signals that the application has
received from a channel, and those that wait in it, are those that it put there itself.
So whatever the remote sends, none of them is its doing, and none is lost. -/
theorem signals_stay_local (hcipher : LawfulCipher σ) {stream : σ}
    {polls : List (Transition (Session X σ) (PollAction X))}
    (run : Run PollStep (Session.new stream) polls s) :
    ∃ tr, Run Step (Session.new stream) tr s ∧
      (tr.flatMap fun t => t.act.sight) = (polls.flatMap fun t => t.act.sight) ∧
      (polls.flatMap fun t => t.act.sight).filterMap Sight.signal ++
        s.protocol.queued_events.filterMap Event.local_signal = (tr.flatMap fun t => t.act.issued) ∧
      tr.flatMap handled ++ s.protocol.command_rx
        = (polls.flatMap fun t => t.act.sight).filterMap Sight.command ∧
      tr.flatMap written_out ++ s.protocol.outbound_rx
        = (polls.flatMap fun t => t.act.sight).filterMap Sight.batch ∧
      ∀ n, ((polls.flatMap fun t => t.act.sight).filterMap (Sight.received n)).filterMap
          Message.local_signal ++ (inbox_queue s.protocol.channels n).filterMap Message.local_signal
        = ((polls.flatMap fun t => t.act.sight).filterMap (Sight.note n)).filterMap
          Message.local_signal := by
  obtain ⟨tr, run', hseen, htr⟩ := poll_run_shows hcipher reads_no_signal run
  refine ⟨tr, run', hseen, ?_, ?_, ?_, fun n => ?_⟩
  all_goals rw [← hseen]
  · rw [List.filterMap_flatMap]
    exact run'.conserves (q := fun s => s.protocol.queued_events.filterMap Event.local_signal)
      (i := fun t => t.act.issued) (o := fun t => t.act.sight.filterMap Sight.signal) rfl
      fun tr s a s' run h => h.signals_conserved (reachable_inv run) (reachable_no_handshake run)
  · rw [List.filterMap_flatMap]
    exact run'.conserves (i := fun t => t.act.sight.filterMap Sight.command) rfl
      fun tr s a s' run h => h.commands_conserved (reachable_inv run)
  · rw [List.filterMap_flatMap]
    exact run'.conserves (i := fun t => t.act.sight.filterMap Sight.batch) rfl
      fun tr s a s' run h => h.batches_conserved (reachable_inv run)
  · have hqueue := run'.conserves (q := fun s => inbox_queue s.protocol.channels n)
      (o := fun t => t.act.sight.filterMap (Sight.received n)) rfl
      fun tr s a s' run h => h.messages_conserved (reachable_inv run) n
    have hputs : (tr.flatMap (puts n)).filterMap Message.local_signal =
        ((tr.flatMap fun t => t.act.sight).filterMap (Sight.note n)).filterMap
          Message.local_signal := by
      rw [List.filterMap_flatMap, List.filterMap_flatMap, List.filterMap_flatMap]
      refine List.flatMap_congr fun t ht => puts_signals fun msg hact => ?_
      exact (htr t ht _ hact msg rfl).1
    rw [← hputs, ← hqueue, List.filterMap_append, List.filterMap_flatMap]

/-- A channel is opened from both sides. The application puts a signal into its queue, sends
another one on it and a third one by a command; it receives the first, and gets the third
as an event while the second waits. -/
theorem signals_stay_local_three : ∃ polls s tr,
    Run PollStep (Session.new (Memory.connected false) : Session deps Memory) polls s ∧
    Run Step (Session.new (Memory.connected false)) tr s ∧
    (polls.flatMap fun t => t.act.sight).filterMap Sight.signal = [(PROTOCOL_NAME, .empty)] ∧
    (tr.flatMap fun t => t.act.issued).length = 2 ∧
    ((polls.flatMap fun t => t.act.sight).filterMap (Sight.note 0)).filterMap
      Message.local_signal = [(PROTOCOL_NAME, .empty)] := by
  have hcomputed : ((calls (X := deps) (Session.new (Memory.connected false))
      [.command (.Open (sample 1)), .poll 2, .poll 2, .hear (frame_of [remote_open 1 (sample 1)]),
        .poll 2, .local_send first_channel (.LocalSignal PROTOCOL_NAME .empty),
        .send first_channel [.LocalSignal PROTOCOL_NAME .empty], .enqueue,
        .command (.SignalLocal PROTOCOL_NAME .empty), .receive first_channel, .poll 2]).any fun r =>
      decide ((r.1.flatMap fun t => t.act.sight).filterMap Sight.signal
        = [(PROTOCOL_NAME, .empty)]) &&
      decide (r.2.protocol.queued_events.filterMap Event.local_signal
        = [(PROTOCOL_NAME, .empty)]) &&
      decide (((r.1.flatMap fun t => t.act.sight).filterMap (Sight.note 0)).filterMap
        Message.local_signal = [(PROTOCOL_NAME, .empty)])) = true := by
    decide +kernel
  obtain ⟨⟨polls, s⟩, hcalls, hfinal⟩ := (Option.any_eq_true _ _).mp hcomputed
  rw [Bool.and_eq_true, Bool.and_eq_true, decide_eq_true_eq, decide_eq_true_eq,
    decide_eq_true_eq] at hfinal
  obtain ⟨⟨hevents, hwaiting⟩, hnotes⟩ := hfinal
  obtain ⟨tr, run, -, hissued, -⟩ := signals_stay_local memory_lawful (calls_run hcalls)
  refine ⟨polls, s, tr, calls_run hcalls, run, hevents, ?_, hnotes⟩
  rw [← hissued, hevents, hwaiting]
  rfl

end session

end hypercore_protocol
