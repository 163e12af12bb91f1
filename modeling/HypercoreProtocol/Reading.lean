/-
Reading a frame.

The messages of a frame are handled in a loop that returns at the first error, and a
message fails when its id leads to an entry that is not open, or to one whose receiver was
dropped. The messages behind it are then not handled, and the frame is gone: whatever they
were addressed to, they are lost.

For a frame of messages other than `Open` and `Close` this is all that can go wrong. Such a
message changes nothing but the queue it is put into, so where every message of the frame
goes, and which of them fail, can be said of the state before the frame (`target`,
`Refuses`), and `frame_delivered_iff` says that everything arrives exactly when nothing that
could be delivered stands behind something that fails. Messages on an unknown id do not
count: they are dropped without an error.
-/
import HypercoreProtocol.Establishment

set_option autoImplicit false

namespace hypercore_protocol

open Rust Wire Runs schema message channels mqueue protocol session compact_encoding

namespace protocol.Protocol

variable {X : Deps} {σ : Type} {p p' : Protocol X σ}

/-! ## Where a message goes -/

/-- The queue of the open channel with a live receiver that the message is addressed to, if there
is one. -/
def target (p : Protocol X σ) (msg : ChannelMessage X) : Option ℕ :=
  ((p.channels.get_remote msg.channel.toNat).bind ChannelHandle.inbound_tx).filter
    p.channels.receives

/-- The message is addressed to an entry that is not open, or has lost its receiver. Then
handling it is an error. -/
def Refuses (p : Protocol X σ) (msg : ChannelMessage X) : Prop :=
  ∃ h, p.channels.get_remote msg.channel.toNat = some h ∧
    ∀ n, h.inbound_tx = some n → p.channels.receives n = false

/-- The messages of a frame that go to queue `n`, in order. The others are for other queues, or
for none. -/
def addressed (p : Protocol X σ) (n : ℕ) (msgs : List (ChannelMessage X)) : List (Message X) :=
  (msgs.filter fun msg => p.target msg == some n).map ChannelMessage.message

/-- What waits in queue `n`, if there is such a queue. -/
def inbound_queue (p : Protocol X σ) (n : ℕ) : Option (List (Message X)) :=
  (p.channels.shared.inboxes.read n).map Inbox.queue

/-- Every queue has got the messages of the frame that go to it, behind what it had and in
order. -/
def Delivered (p : Protocol X σ) (msgs : List (ChannelMessage X)) (p' : Protocol X σ) : Prop :=
  ∀ n, p'.inbound_queue n = (p.inbound_queue n).map (· ++ p.addressed n msgs)

theorem addressed_cons_some {msg : ChannelMessage X} {n : ℕ} (h : p.target msg = some n)
    (msgs : List (ChannelMessage X)) (k : ℕ) :
    p.addressed k (msg :: msgs) =
      (if k = n then [msg.message] else []) ++ p.addressed k msgs := by
  by_cases hk : k = n
  · subst hk
    simp [addressed, h]
  · simp [addressed, h, hk, Ne.symm hk]

theorem addressed_cons_none {msg : ChannelMessage X} (h : p.target msg = none)
    (msgs : List (ChannelMessage X)) (k : ℕ) :
    p.addressed k (msg :: msgs) = p.addressed k msgs := by
  simp [addressed, h]

theorem addressed_eq_nil {msgs : List (ChannelMessage X)}
    (h : ∀ msg ∈ msgs, p.target msg = none) (k : ℕ) : p.addressed k msgs = [] := by
  induction msgs with
  | nil => rfl
  | cons msg msgs ih =>
    rw [addressed_cons_none (h msg List.mem_cons_self)]
    exact ih fun m hm => h m (List.mem_cons_of_mem msg hm)

/-- A queue that a message goes to exists. -/
theorem inbound_queue_of_target {msg : ChannelMessage X} {n : ℕ} (h : p.target msg = some n) :
    ∃ queue, p.inbound_queue n = some queue := by
  have hreceives : p.channels.receives n = true := (Option.filter_eq_some_iff.mp h).2
  rw [ChannelMap.receives] at hreceives
  cases hread : p.channels.shared.inboxes.read n with
  | none =>
    rw [hread] at hreceives
    cases hreceives
  | some inbox => exact ⟨inbox.queue, by rw [inbound_queue, hread]; rfl⟩

/-! ## One message -/

/-- The state after the message was put into queue `n`, which differs in that queue only. -/
def pushed (p : Protocol X σ) (n : ℕ) (msg : Message X) : Protocol X σ :=
  { p with channels := { p.channels with shared := p.channels.shared.push n msg } }

theorem receives_pushed (n : ℕ) (msg : Message X) (k : ℕ) :
    (p.pushed n msg).channels.receives k = p.channels.receives k := by
  show Option.any Inbox.receiver_alive ((p.channels.shared.push n msg).inboxes.read k) = _
  rw [Shared.push, Arena.read_update, ChannelMap.receives]
  by_cases hk : k = n
  · rw [if_pos hk, hk]
    cases p.channels.shared.inboxes.read n <;> rfl
  · rw [if_neg hk]

theorem target_pushed (n : ℕ) (msg : Message X) : (p.pushed n msg).target = p.target := by
  have hreceives : (p.pushed n msg).channels.receives = p.channels.receives :=
    funext (receives_pushed n msg)
  funext m
  rw [target, hreceives]
  rfl

theorem refuses_pushed (n : ℕ) (msg : Message X) (m : ChannelMessage X) :
    (p.pushed n msg).Refuses m ↔ p.Refuses m := by
  simp only [Refuses, receives_pushed]
  rfl

theorem inbound_queue_pushed (n : ℕ) (msg : Message X) (k : ℕ) :
    (p.pushed n msg).inbound_queue k =
      (p.inbound_queue k).map (· ++ if k = n then [msg] else []) := by
  show Option.map Inbox.queue ((p.channels.shared.push n msg).inboxes.read k) = _
  rw [Shared.push, Arena.read_update, inbound_queue]
  by_cases hk : k = n
  · subst hk
    rw [if_pos rfl, if_pos rfl]
    cases p.channels.shared.inboxes.read k <;> rfl
  · rw [if_neg hk, if_neg hk]
    cases p.channels.shared.inboxes.read k <;> simp

variable [CipherTrait σ]

/-- A message that is no `Open` and no `Close` is delivered, dropped or refused. Which of the
three is decided by the map before it. -/
theorem on_data_message (p : Protocol X σ) {msg : ChannelMessage X}
    (hmsg : msg.message.is_open_or_close = false) :
    (∃ n, p.target msg = some n ∧ ¬ p.Refuses msg ∧
      (on_inbound_message msg).run p = .ok () (p.pushed n msg.message)) ∨
    (p.target msg = none ∧ ¬ p.Refuses msg ∧ (on_inbound_message msg).run p = .ok () p) ∨
    (p.target msg = none ∧ p.Refuses msg ∧
      ∃ e, (on_inbound_message msg).run p = .error (.err e) p) := by
  obtain ⟨ch, message⟩ := msg
  -- every such message is forwarded to the entry of its id
  have hrun : (on_inbound_message ⟨ch, message⟩ : ProtocolMethod X σ Unit) =
      on_channels (ChannelMap.forward_inbound_message ch.toNat message) := by
    cases message <;> first | rfl | cases hmsg
  obtain ⟨result, p', heff, hforward⟩ := forward_spec p ch hmsg
  rw [hrun, hforward]
  cases heff with
  | bad_key => cases hmsg
  | announced => cases hmsg
  | refused => cases hmsg
  | accepted => cases hmsg
  | close_unknown => cases hmsg
  | closed => cases hmsg
  | unknown _ hr =>
    refine Or.inr (Or.inl ⟨by rw [target, hr]; rfl, ?_, rfl⟩)
    rintro ⟨h, hh, -⟩
    rw [hr] at hh
    cases hh
  | @not_open _ _ h _ hr hn =>
    refine Or.inr (Or.inr ⟨by rw [target, hr, Option.bind_some, hn]; rfl, ⟨h, hr, ?_⟩, _, rfl⟩)
    intro n hn'
    rw [hn] at hn'
    cases hn'
  | @no_receiver _ _ h n _ hr hn ha =>
    refine Or.inr (Or.inr ⟨?_, ⟨h, hr, ?_⟩, _, rfl⟩)
    · rw [target, hr, Option.bind_some, hn, Option.filter, if_neg (by rw [ha]; decide)]
    · intro k hk
      rw [hn] at hk
      rwa [← Option.some.inj hk]
  | @delivered _ _ h n _ hr hn ha =>
    refine Or.inl ⟨n, ?_, ?_, rfl⟩
    · rw [target, hr, Option.bind_some, hn, Option.filter, if_pos ha]
    · rintro ⟨h', hh', hno⟩
      rw [hr] at hh'
      obtain rfl := Option.some.inj hh'
      rw [hno n hn] at ha
      cases ha

/-! ## The frame -/

/-- A frame of messages other than `Open` and `Close` is handled to its end or up to an
error, in any state. Each of its messages that is addressed to an open channel with a live
receiver arrives in the queue of that channel, in the order of the frame, if and only if
none of them stands behind a message to an entry that is not open or has lost its
receiver. -/
theorem frame_delivered_iff (p : Protocol X σ) (msgs : List (ChannelMessage X))
    (hdata : ∀ msg ∈ msgs, msg.message.is_open_or_close = false) :
    ∃ result p', (on_inbound_channel_messages msgs).run p = outcome result p' ∧
      (p.Delivered msgs p' ↔
        msgs.Pairwise fun msg later => p.Refuses msg → p.target later = none) := by
  induction msgs generalizing p with
  | nil =>
    refine ⟨none, p, rfl, fun _ => .nil, fun _ n => ?_⟩
    cases h : p.inbound_queue n <;> simp [addressed]
  | cons msg msgs ih =>
    have htail : ∀ m ∈ msgs, m.message.is_open_or_close = false :=
      fun m hm => hdata m (List.mem_cons_of_mem msg hm)
    rw [List.pairwise_cons, on_inbound_channel_messages, EStateM.run_bind]
    rcases on_data_message p (hdata msg List.mem_cons_self) with
      ⟨n, htarget, hno, hrun⟩ | ⟨htarget, hno, hrun⟩ | ⟨htarget, hrefuses, e, hrun⟩
    · obtain ⟨result, p', hrest, hiff⟩ := ih (p.pushed n msg.message) htail
      rw [hrun]
      refine ⟨result, p', hrest, ?_⟩
      -- putting the message into its queue moves it from the frame to the state
      have hsame : p.Delivered (msg :: msgs) p' ↔ (p.pushed n msg.message).Delivered msgs p' := by
        refine forall_congr' fun k => ?_
        rw [inbound_queue_pushed, addressed_cons_some htarget, Option.map_map, addressed, addressed,
          target_pushed]
        simp only [Function.comp_def, List.append_assoc]
      rw [hsame, hiff]
      simp only [target_pushed, refuses_pushed]
      exact ⟨fun h => ⟨fun _ _ hr => absurd hr hno, h⟩, fun h => h.2⟩
    · obtain ⟨result, p', hrest, hiff⟩ := ih p htail
      rw [hrun]
      refine ⟨result, p', hrest, ?_⟩
      have hsame : p.Delivered (msg :: msgs) p' ↔ p.Delivered msgs p' :=
        forall_congr' fun k => by rw [addressed_cons_none htarget]
      rw [hsame, hiff]
      exact ⟨fun h => ⟨fun _ _ hr => absurd hr hno, h⟩, fun h => h.2⟩
    · rw [hrun]
      refine ⟨some e, p, rfl, fun hdel => ?_, fun h k => ?_⟩
      · -- nothing was put anywhere, so nothing was to be delivered
        have hnone : ∀ m ∈ msgs, p.target m = none := by
          intro m hm
          cases ht : p.target m with
          | none => rfl
          | some n =>
            obtain ⟨queue, hqueue⟩ := inbound_queue_of_target ht
            have hk := hdel n
            rw [hqueue, addressed_cons_none htarget, Option.map_some] at hk
            have hnil := List.append_right_eq_self.mp (Option.some.inj hk).symm
            rw [addressed, List.map_eq_nil_iff, List.filter_eq_nil_iff] at hnil
            exact absurd (by rw [ht]; exact beq_self_eq_true _) (hnil m hm)
        exact ⟨fun m hm _ => hnone m hm,
          List.pairwise_of_forall_mem_list fun _ _ m hm _ => hnone m hm⟩
      · rw [addressed_cons_none htarget, addressed_eq_nil fun m hm => h.1 m hm hrefuses]
        cases p.inbound_queue k <;> simp

end protocol.Protocol

namespace session

/-- The established session when the remote has opened a second key on its id 2, and the
application has not. -/
def half_open : Session deps Memory :=
  { established with protocol :=
    { established.protocol with
      channels :=
        { channels := Function.update established.protocol.channels.channels
            (discovery_key_of deps (sample 2)) (some ⟨discovery_key_of deps (sample 2), none,
              some ⟨2, some (sample_capability true (sample 2))⟩, none, 1⟩)
          local_id := established.protocol.channels.local_id
          remote_id := ⟨[none, some first_channel.discovery_key,
            some (discovery_key_of deps (sample 2))], by decide⟩
          shared := ⟨⟨[false, false]⟩, ⟨[⟨[], true⟩]⟩⟩ }
      queued_events := [.DiscoveryKey (discovery_key_of deps (sample 2))] } }

theorem half_open_reachable :
    ∃ tr, Run Step (Session.new (Memory.connected false) : Session deps Memory) tr half_open := by
  obtain ⟨tr, run, -⟩ := established_reachable
  have hstep : Step established (.protocol (.inbound (remote_open 2 (sample 2)))) half_open :=
    .protocol (.inbound (Or.inl ⟨(), rfl⟩))
  exact ⟨_, run.snoc hstep⟩

/-- Behind a message on an unknown id everything arrives. -/
theorem frame_delivered_iff_unknown :
    ∃ result p', (Protocol.on_inbound_channel_messages
        [⟨7, .Cancel ⟨5⟩⟩, ⟨1, .Cancel ⟨6⟩⟩]).run half_open.protocol = outcome result p' ∧
      half_open.protocol.Delivered [⟨7, .Cancel ⟨5⟩⟩, ⟨1, .Cancel ⟨6⟩⟩] p' := by
  obtain ⟨result, p', hrun, hiff⟩ := Protocol.frame_delivered_iff half_open.protocol
    [⟨7, .Cancel ⟨5⟩⟩, ⟨1, .Cancel ⟨6⟩⟩] (by simp [Message.is_open_or_close])
  refine ⟨result, p', hrun, hiff.mpr ?_⟩
  rw [List.pairwise_pair]
  rintro ⟨h, hh, -⟩
  cases hh

/-- One message to the key that is open on one side only, and one to the channel, which is
established and has its receiver: the second is lost with the error of the first. -/
theorem frame_lost :
    vec_decode deps [2, 2, 5, 1, 2, 6] = .ok ([⟨2, .Cancel ⟨5⟩⟩, ⟨1, .Cancel ⟨6⟩⟩], []) ∧
    (∃ tr, Run Step (Session.new (Memory.connected false) : Session deps Memory) tr half_open) ∧
    half_open.protocol.target ⟨1, .Cancel ⟨6⟩⟩ = some first_channel.direct_inbound_tx ∧
    (Protocol.on_inbound_channel_messages [⟨2, .Cancel ⟨5⟩⟩, ⟨1, .Cancel ⟨6⟩⟩]).run
      half_open.protocol = .error (.err (error "Channel is not open")) half_open.protocol ∧
    half_open.protocol.inbound_queue first_channel.direct_inbound_tx = some [] :=
  ⟨rfl, half_open_reachable, rfl, rfl, rfl⟩

end session

end hypercore_protocol
