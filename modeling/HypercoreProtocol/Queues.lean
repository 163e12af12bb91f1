/-
Nothing is lost in a queue, and nothing comes out twice.

A session passes everything on by queues: commands and batches to the protocol, events
to the application, and messages to each channel. What goes in and what comes out is
handled at different ends, by different parties, and polls may fail in between. Each of
the queues is nevertheless first in, first out over the whole life of a session, which
is `Run.conserves` once for every queue; what has to be shown is what a single step takes
off the front and puts to the end.

`queues_conserved` is about whole polls, so that "what comes out" are the events that
polls return and the messages the application receives.
-/
import HypercoreProtocol.Observed
import HypercoreProtocol.FirstEvent

set_option autoImplicit false

namespace hypercore_protocol.session

open Rust Method Wire Runs schema message channels mqueue protocol compact_encoding

variable {X : Deps} {σ : Type} [CipherTrait σ] {s s' : Session X σ} {p p' : Protocol X σ}
  {a : Action X} {tr : List (Happening X σ)}

/-! ## The ends of the queues -/

/-- An event that was queued; the handshake event never is. A poll returns it without having
queued it. -/
def Sight.announced : Sight X → Option Event
  | .event e => if is_handshake e then none else some e
  | .app _ => none

def Sight.command : Sight X → Option Command
  | .app (.queue_command c) => some c
  | _ => none

def Sight.batch : Sight X → Option (List (ChannelMessage X))
  | .app (.enqueue x) => some x.batch
  | _ => none

/-- A message that was received from queue `n`, through whichever handle of the channel. -/
def Sight.received (n : ℕ) : Sight X → Option (Message X)
  | .app (.receive c msg) => if c.inbound_rx = some n then some msg else none
  | _ => none

/-- The commands a step handles: one if the move takes one off the command queue. -/
def handled (t : Happening X σ) : List Command :=
  match t.act with
  | .protocol (.command c) => [c]
  | _ => []

/-- The batches a step takes: one if the move takes one off the outbound queue. -/
def written_out (t : Happening X σ) : List (List (ChannelMessage X)) :=
  match t.act with
  | .protocol (.outbound batch) => [batch]
  | _ => []

/-- The queue that a message from the remote goes to, if somebody still receives from it. The id
in the message decides, and an `Open` goes to none. -/
def goes_to (m : ChannelMap X) (msg : ChannelMessage X) : Option ℕ :=
  match msg.message with
  | .Open _ => none
  | _ => ((m.get_remote msg.channel.toNat).bind ChannelHandle.inbound_tx).filter m.receives

/-- What a step puts into the queue `n`: a message from the remote that goes there, or one
of the application's own. -/
def puts (n : ℕ) (t : Happening X σ) : List (Message X) :=
  match t.act with
  | .protocol (.inbound msg) =>
    if goes_to t.pre.protocol.channels msg = some n then [msg.message] else []
  | .local_send c msg => if c.direct_inbound_tx = n then [msg] else []
  | _ => []

/-! ## One step -/

theorem protocol_step_no_handshake (hm : p.channels.Wf) {move : Move X}
    (h : protocol_step p move p') (hq : ∀ e ∈ p.queued_events, is_handshake e = false) :
    ∀ e ∈ p'.queued_events, is_handshake e = false := by
  by_cases hk : ∃ key, move = .handshake key
  · obtain ⟨key, rfl⟩ := hk
    cases h with
    | handshake => exact hq
  · exact (marked_closed (K := fun move => ∀ key, move ≠ .handshake key)
      (fun key hkey => hkey key rfl) p.handshake_emitted p p' move
      (fun key heq => hk ⟨key, heq⟩) h ⟨hm, hq, rfl⟩).queued

/-- The queue of events has no handshake in it. So what polls return of it can be told from the
handshake event. -/
theorem reachable_no_handshake {stream : σ} (run : Run Step (Session.new stream) tr s) :
    ∀ e ∈ s.protocol.queued_events, is_handshake e = false := by
  refine run.invariant (I := fun _ s => ∀ e ∈ s.protocol.queued_events, is_handshake e = false)
    (fun _ h => absurd h List.not_mem_nil) fun _ s a s' run hq h => ?_
  rcases h.move_or_aside with ⟨move, -, hmove⟩ | ⟨-, haside⟩
  · exact protocol_step_no_handshake (reachable_inv run).wf hmove hq
  · rwa [haside.queued_events]

/-- Events: a step returns the first one, or queues some behind the others. This is all that can
happen to the queue. -/
theorem Step.events_conserved (h : Step s a s') (hs : Inv s)
    (hq : ∀ e ∈ s.protocol.queued_events, is_handshake e = false) :
    s.protocol.queued_events ++ queued (⟨s, a, s'⟩ : Happening X σ) =
      a.sight.filterMap Sight.announced ++ s'.protocol.queued_events := by
  -- most steps return nothing
  have hsilent : ∀ {es}, a.sight.filterMap Sight.announced = [] →
      s'.protocol.queued_events = s.protocol.queued_events ++ es →
      s.protocol.queued_events ++ queued (⟨s, a, s'⟩ : Happening X σ) =
        a.sight.filterMap Sight.announced ++ s'.protocol.queued_events := by
    intro es hsight hes
    rw [queued_eq hes, hsight, hes, List.nil_append]
  rcases h.move_or_aside with ⟨move, rfl, hmove⟩ | ⟨hno, haside⟩
  swap
  · have hes : s'.protocol.queued_events = s.protocol.queued_events ++ [] := by
      rw [haside.queued_events, List.append_nil]
    refine hsilent ?_ hes
    rw [Action.sight_app hno]
    rfl
  cases move with
  | event e =>
    have he : s.protocol.queued_events = e :: s'.protocol.queued_events := by
      generalize s'.protocol = p' at hmove
      cases hmove with
      | event he => exact he
    have hqueued : queued (⟨s, .protocol (.event e), s'⟩ : Happening X σ) = [] := by
      rw [queued, he]
      exact List.drop_eq_nil_of_le (Nat.le_succ _)
    have hk := hq e (he ▸ List.mem_cons_self)
    have hsight :
        (Action.sight (X := X) (.protocol (.event e))).filterMap Sight.announced = [e] := by
      simp [Action.sight, Sight.announced, hk]
    rw [hqueued, hsight, he, List.append_nil, List.singleton_append]
  | _ =>
    rcases protocol_step_events hs.wf hmove with ⟨e, heq, -⟩ | ⟨es, hes, -⟩
    · cases heq
    · exact hsilent rfl hes

/-- What a move leaves of the command queue. -/
theorem protocol_step_command_rx (hm : p.channels.Wf) {move : Move X}
    (h : protocol_step p move p') :
    (∃ c, move = .command c ∧ p.command_rx = c :: p'.command_rx) ∨
      ((∀ c, move ≠ .command c) ∧ p'.command_rx = p.command_rx) := by
  cases move with
  | command c =>
    obtain ⟨rest, result, hq, heff⟩ := command_effect hm h
    refine Or.inl ⟨c, rfl, ?_⟩
    rw [hq]
    exact congrArg _ heff.frame.command_rx.symm
  | inbound msg =>
    obtain ⟨result, heff⟩ := inbound_effect hm h
    exact Or.inr ⟨(fun _ h => nomatch h), heff.frame.command_rx⟩
  | outbound batch =>
    obtain ⟨rest, kept, q, -, heff, rfl⟩ := outbound_effect hm h
    exact Or.inr ⟨(fun _ h => nomatch h), heff.frame.command_rx⟩
  | io => cases h; exact Or.inr ⟨(fun _ h => nomatch h), rfl⟩
  | handshake key => cases h; exact Or.inr ⟨(fun _ h => nomatch h), rfl⟩
  | event e => cases h; exact Or.inr ⟨(fun _ h => nomatch h), rfl⟩

/-- Commands: one is put in by a call, or the first one is handled. A command that fails has been
taken off as well. -/
theorem Step.commands_conserved (h : Step s a s') (hs : Inv s) :
    s.protocol.command_rx ++ a.sight.filterMap Sight.command =
      handled (⟨s, a, s'⟩ : Happening X σ) ++ s'.protocol.command_rx := by
  cases h with
  | protocol h =>
    rw [Session.protocol_after]
    rcases protocol_step_command_rx hs.wf h with ⟨c, rfl, hq⟩ | ⟨hno, hq⟩
    · rw [hq]
      exact List.append_nil _
    · rename_i move p
      rw [hq]
      cases move with
      | command c => exact absurd rfl (hno c)
      | _ => exact List.append_nil _
  | queue_command c => rfl
  | _ => exact List.append_nil _

/-- Batches: one enters from the application, or the first one is taken. A batch enters as a
whole, and so it is taken. -/
theorem Step.batches_conserved (h : Step s a s') (hs : Inv s) :
    s.protocol.outbound_rx ++ a.sight.filterMap Sight.batch =
      written_out (⟨s, a, s'⟩ : Happening X σ) ++ s'.protocol.outbound_rx := by
  cases h with
  | protocol h =>
    rw [Session.protocol_after]
    rcases protocol_step_outbound_rx hs.wf h with ⟨batch, rfl, hq⟩ | ⟨hno, hq⟩
    · rw [hq]
      exact List.append_nil _
    · rename_i move p
      rw [hq]
      cases move with
      | outbound batch => exact absurd rfl (hno batch)
      | _ => exact List.append_nil _
  | enqueue => rfl
  | _ => exact List.append_nil _

/-! ## The queues of the channels -/

variable {m m' : ChannelMap X}

/-- Attaching and removing entries leaves all queues alone. What waits in the queue of a removed
entry can still be received. -/
theorem map_inbox_queue {op : MapOp} (h : MapEffect m op m') (n : ℕ) :
    inbox_queue m' n = inbox_queue m n := by
  have hsame : m'.shared.inboxes = m.shared.inboxes := by
    cases h with
    | attached_local => exact ChannelMap.entered_inboxes m _
    | attached_remote => exact ChannelMap.entered_inboxes m _
    | absent => rfl
    | removed => rfl
  rw [inbox_queue, inbox_queue, hsame]

/-- Commands put nothing into the queues of the channels. -/
theorem command_inboxes {c : Command} {result : Option IoError}
    (h : Protocol.CommandEffect p c result p') (n : ℕ) :
    inbox_queue p'.channels n = inbox_queue p.channels n := by
  cases h with
  | opened hmap => exact map_inbox_queue hmap n
  | refused hmap => exact map_inbox_queue hmap n
  | accepted hmap => exact (inbox_queue_accepted _ _ _ n).trans (map_inbox_queue hmap n)
  | close_absent => rfl
  | closed _ hmap => exact map_inbox_queue hmap n
  | signalled => rfl

omit [CipherTrait σ] in
theorem batch_inboxes {msgs kept : List (ChannelMessage X)}
    (h : Protocol.BatchEffect p msgs kept p') (n : ℕ) :
    inbox_queue p'.channels n = inbox_queue p.channels n := by
  induction h with
  | nil p => rfl
  | cons head _ ih =>
    rw [ih]
    cases head with
    | close_unknown => rfl
    | closed _ _ hmap => exact map_inbox_queue hmap n
    | signalled => rfl
    | passed => rfl

/-- A message from the remote is put into the queue that it goes to. A message that goes nowhere
changes no queue. -/
theorem inbound_inboxes {msg : ChannelMessage X} {result : Option IoError}
    (h : Protocol.InboundEffect p msg result p') (n : ℕ) :
    inbox_queue p'.channels n = inbox_queue p.channels n ++
      if goes_to p.channels msg = some n then [msg.message] else [] := by
  -- for messages that are no `Open`
  have hgoes : ∀ {ch message}, Message.is_open_or_close (X := X) message = false →
      goes_to p.channels ⟨ch, message⟩ =
        ((p.channels.get_remote ch.toNat).bind ChannelHandle.inbound_tx).filter
          p.channels.receives := by
    intro ch message hmsg
    cases message with
    | Open => exact nomatch hmsg
    | _ => rfl
  have hnone : goes_to p.channels msg ≠ some n → ∀ {q : List (Message X)},
      q = inbox_queue p.channels n →
      q = inbox_queue p.channels n ++
        if goes_to p.channels msg = some n then [msg.message] else [] := by
    intro hne q hq
    rw [if_neg hne, List.append_nil, hq]
  cases h with
  | bad_key => exact hnone (fun h => nomatch h) rfl
  | announced _ hmap => exact hnone (fun h => nomatch h) (map_inbox_queue hmap n)
  | refused _ hmap => exact hnone (fun h => nomatch h) (map_inbox_queue hmap n)
  | accepted _ hmap =>
    exact hnone (fun h => nomatch h)
      ((inbox_queue_accepted _ _ _ n).trans (map_inbox_queue hmap n))
  | close_unknown hr =>
    refine hnone (fun h => ?_) rfl
    rw [goes_to, hr] at h
    exact nomatch h
  | closed hr hd htold hmap =>
    refine (map_inbox_queue hmap n).trans ?_
    rcases htold with ⟨k, hk, halive, rfl⟩ | ⟨hdead, rfl⟩
    · rw [inbox_queue_push (receives_lt halive)]
      congr 1
      rw [goes_to, hr, Option.bind_some, hk, Option.filter_some, if_pos halive]
      simp only [Option.some_inj]
    · refine hnone (fun h => ?_) rfl
      rw [goes_to, hr, Option.bind_some, Option.filter_eq_some_iff] at h
      rw [hdead n h.1] at h
      exact nomatch h.2
  | unknown hmsg hr =>
    refine hnone (fun h => ?_) rfl
    rw [hgoes hmsg, hr] at h
    exact nomatch h
  | not_open hmsg hr hn =>
    refine hnone (fun h => ?_) rfl
    rw [hgoes hmsg, hr, Option.bind_some, hn] at h
    exact nomatch h
  | no_receiver hmsg hr hn ha =>
    refine hnone (fun h => ?_) rfl
    rw [hgoes hmsg, hr, Option.bind_some, hn, Option.filter_some, ha] at h
    exact nomatch h
  | delivered hmsg hr hn ha =>
    refine (inbox_queue_push (receives_lt ha) _ n).trans ?_
    rw [hgoes hmsg, hr, Option.bind_some, hn, Option.filter_some, if_pos ha]
    simp only [Option.some_inj]

theorem protocol_step_inboxes (hm : p.channels.Wf) {move : Move X} (h : protocol_step p move p')
    (hno : ∀ msg, move ≠ .inbound msg) (n : ℕ) :
    inbox_queue p'.channels n = inbox_queue p.channels n := by
  cases move with
  | command c =>
    obtain ⟨rest, result, -, heff⟩ := command_effect hm h
    exact command_inboxes heff n
  | inbound msg => exact absurd rfl (hno msg)
  | outbound batch =>
    obtain ⟨rest, kept, q, -, heff, rfl⟩ := outbound_effect hm h
    exact batch_inboxes heff n
  | io => cases h; rfl
  | handshake key => cases h; rfl
  | event e => cases h; rfl

/-- Messages of a channel: one is put in, from the remote or by the application, or the
first one is received. -/
theorem Step.messages_conserved (h : Step s a s') (hs : Inv s) (n : ℕ) :
    inbox_queue s.protocol.channels n ++ puts n (⟨s, a, s'⟩ : Happening X σ) =
      a.sight.filterMap (Sight.received n) ++ inbox_queue s'.protocol.channels n := by
  cases h with
  | protocol h =>
    rename_i move p
    rw [Session.protocol_after]
    cases move with
    | inbound msg =>
      obtain ⟨result, heff⟩ := inbound_effect hs.wf h
      exact (inbound_inboxes heff n).symm
    | _ =>
      rw [protocol_step_inboxes hs.wf h (fun _ h => nomatch h)]
      exact List.append_nil _
  | @receive c k msg rest alive hc hk hread =>
    by_cases hn : k = n
    · subst hn
      have hsight : (Action.sight (.receive c msg)).filterMap (Sight.received k) = [msg] := by
        simp [Action.sight, Sight.received, hk]
      rw [hsight]
      simp [puts, inbox_queue, Session.with_shared, hread]
    · have hsight : (Action.sight (.receive c msg)).filterMap (Sight.received n) = [] := by
        simp [Action.sight, Sight.received, hk, hn]
      rw [hsight]
      simp [puts, inbox_queue, Session.with_shared, Arena.read_update_of_ne (Ne.symm hn)]
  | @drop_receiver c k hc hk =>
    refine (List.append_nil _).trans ?_
    show _ = inbox_queue _ n
    simp only [inbox_queue, Session.with_shared, Arena.read_update]
    split
    · rename_i hn
      rw [hn, Option.map_map]
      rfl
    · rfl
  | local_send msg hc =>
    refine Eq.trans ?_ (inbox_queue_push (hs.backed _ (Or.inl hc)).inbox_lt msg n).symm
    rfl
  | _ => exact List.append_nil _

/-! ## Whole runs -/

/-- The queues of commands and of batches have room for `CHANNEL_CAP` of them. Callers wait while
they are full. -/
theorem reachable_bounded {stream : σ} (run : Run Step (Session.new stream) tr s) :
    s.protocol.command_rx.length ≤ CHANNEL_CAP ∧ s.protocol.outbound_rx.length ≤ CHANNEL_CAP := by
  refine run.invariant (I := fun _ s => s.protocol.command_rx.length ≤ CHANNEL_CAP ∧
    s.protocol.outbound_rx.length ≤ CHANNEL_CAP) ⟨Nat.zero_le _, Nat.zero_le _⟩
    fun tr s a s' run hs h => ?_
  obtain ⟨hc, ho⟩ := hs
  cases h with
  | protocol h =>
    have hwf := (reachable_inv run).wf
    rw [Session.protocol_after]
    constructor
    · rcases protocol_step_command_rx hwf h with ⟨c, -, hq⟩ | ⟨-, hq⟩
      · rw [hq, List.length_cons] at hc
        omega
      · rwa [hq]
    · rcases protocol_step_outbound_rx hwf h with ⟨batch, -, hq⟩ | ⟨-, hq⟩
      · rw [hq, List.length_cons] at ho
        omega
      · rwa [hq]
  | queue_command c hroom =>
    exact ⟨(List.length_append ..).trans_le hroom, ho⟩
  | enqueue hs hroom =>
    exact ⟨hc, (List.length_append ..).trans_le hroom⟩
  | _ => exact ⟨hc, ho⟩

/-- The four queues of a session over a whole run of polls, seen as a run of moves. The events
that polls have returned, and those that wait, are all that were queued. The commands that
were handled, and those that wait, are all that were sent; so it is with the batches that
were taken. And for every channel, the messages received and those that wait are all that
were put into its queue. In each case the order is kept. -/
theorem queues_conserved (hcipher : LawfulCipher σ) {stream : σ}
    {polls : List (Transition (Session X σ) (PollAction X))}
    (run : Run PollStep (Session.new stream) polls s) :
    ∃ tr, Run Step (Session.new stream) tr s ∧
      (tr.flatMap fun t => t.act.sight) = (polls.flatMap fun t => t.act.sight) ∧
      (polls.flatMap fun t => t.act.sight).filterMap Sight.announced ++ s.protocol.queued_events
        = events tr ∧
      tr.flatMap handled ++ s.protocol.command_rx
        = (polls.flatMap fun t => t.act.sight).filterMap Sight.command ∧
      tr.flatMap written_out ++ s.protocol.outbound_rx
        = (polls.flatMap fun t => t.act.sight).filterMap Sight.batch ∧
      (∀ n, (polls.flatMap fun t => t.act.sight).filterMap (Sight.received n) ++
        inbox_queue s.protocol.channels n = tr.flatMap (puts n)) ∧
      s.protocol.command_rx.length ≤ CHANNEL_CAP ∧ s.protocol.outbound_rx.length ≤ CHANNEL_CAP := by
  obtain ⟨tr, run', hseen, -⟩ := poll_run_shows hcipher reads_decoded run
  refine ⟨tr, run', hseen, ?_, ?_, ?_, fun n => ?_, reachable_bounded run'⟩
  all_goals rw [← hseen, List.filterMap_flatMap]
  · exact run'.conserves (o := fun t => t.act.sight.filterMap Sight.announced) rfl
      fun tr s a s' run h => h.events_conserved (reachable_inv run) (reachable_no_handshake run)
  · exact run'.conserves (i := fun t => t.act.sight.filterMap Sight.command) rfl
      fun tr s a s' run h => h.commands_conserved (reachable_inv run)
  · exact run'.conserves (i := fun t => t.act.sight.filterMap Sight.batch) rfl
      fun tr s a s' run h => h.batches_conserved (reachable_inv run)
  · exact run'.conserves (q := fun s => inbox_queue s.protocol.channels n)
      (o := fun t => t.act.sight.filterMap (Sight.received n)) rfl
      fun tr s a s' run h => h.messages_conserved (reachable_inv run) n

/-- A channel is opened from both sides, and two messages of the remote arrive on it, of which
the application receives one. -/
theorem queues_conserved_received : ∃ polls s tr,
    Run PollStep (Session.new (Memory.connected false) : Session deps Memory) polls s ∧
    Run Step (Session.new (Memory.connected false)) tr s ∧
    ((polls.flatMap fun t => t.act.sight).filterMap (Sight.received 0)).length = 1 ∧
    (tr.flatMap (puts 0)).length = 2 ∧
    events tr = [.Channel first_channel, .LocalSignal PROTOCOL_NAME .empty] := by
  have hcomputed : ((calls (X := deps) (Session.new (Memory.connected false))
      [.command (.Open (sample 1)), .poll 2, .poll 2, .hear (frame_of [remote_open 1 (sample 1)]),
        .poll 2, .command (.SignalLocal PROTOCOL_NAME .empty),
        .hear (frame_of [⟨1, .Cancel ⟨5⟩⟩, ⟨1, .Cancel ⟨6⟩⟩]), .poll 2,
        .receive first_channel]).any fun r =>
      ((r.1.flatMap fun t => t.act.sight).filterMap (Sight.received 0)).length == 1 &&
      (inbox_queue r.2.protocol.channels 0).length == 1 &&
      (r.1.flatMap fun t => t.act.sight).filterMap Sight.announced ++ r.2.protocol.queued_events ==
        [.Channel first_channel, .LocalSignal PROTOCOL_NAME .empty]) = true := by
    decide +kernel
  obtain ⟨⟨polls, s⟩, hcalls, hfinal⟩ := (Option.any_eq_true _ _).mp hcomputed
  simp only [Bool.and_eq_true, beq_iff_eq] at hfinal
  obtain ⟨⟨hreceived, hwaiting⟩, hevents⟩ := hfinal
  obtain ⟨tr, run, -, hqueued, -, -, hmessages, -⟩ :=
    queues_conserved memory_lawful (calls_run hcalls)
  refine ⟨polls, s, tr, calls_run hcalls, run, hreceived, ?_, hqueued ▸ hevents⟩
  rw [← hmessages 0, List.length_append, hreceived, hwaiting]

end hypercore_protocol.session
