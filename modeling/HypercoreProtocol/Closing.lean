/-
When a channel is closed.

The flag behind `Channel::closed` is shared by all clones of a channel, by the
entry of the channel map it was created from, and by every other channel that was
created from the same entry. It identifies the entry: a new entry gets a new flag,
and an entry that is attached again keeps its own. Two things set it, the drop of
the entry when it is removed and the store at the end of `Channel::close`, and
nothing clears it. So a channel that is not closed has its entry, a closed one has
lost it or was closed by the application, and a channel whose entry is gone cannot
be sent on.

The last part compares the two ways to close a channel. `Channel::close` sends a `Close`
through the outbound queue, `Command::Close` removes the entry at once. They leave the same
channel map and the same event, but the command writes nothing: the remote is not told.
-/
import HypercoreProtocol.Outgoing

set_option autoImplicit false

namespace hypercore_protocol.session

open Rust Wire Runs schema message channels mqueue protocol compact_encoding

variable {X : Deps} {σ : Type} [CipherTrait σ] {p p' : Protocol X σ} {s s' : Session X σ}
  {a : Action X} {m m' : ChannelMap X} {c : Channel} {tr : List (Happening X σ)}
  {P : MapOp → Prop}

/-! ## Sending -/

/-- The error of a send on a closed channel, with the kind and the text of the source. -/
def channel_closed : IoError := ⟨.ConnectionAborted, "Channel is closed"⟩

namespace Session

/-- `Channel::send_batch`, up to the wait for room: the look at the flag, and then the batch that
waits. -/
def send_batch (c : Channel) (messages : List (Message X)) :
    Method IoError (Session X σ) Unit := do
  let s ← get
  if s.is_closed c then throw (.err channel_closed)
  set ({ s with sending := s.sending ++ [⟨c, batch_of c messages, false⟩] } : Session X σ)

/-- `Channel::send`, up to the wait for room, which is a batch of one message. -/
def send (c : Channel) (message : Message X) : Method IoError (Session X σ) Unit :=
  send_batch c [message]

end Session

omit [CipherTrait σ] in
theorem send_batch_closed (hc : s.is_closed c = true) (messages : List (Message X)) :
    (Session.send_batch c messages).run s = .error (.err channel_closed) s := by
  simp [Session.send_batch, hc]

/-- A send that finds its channel open is the step of a session. So what is proved of steps is
about these calls. -/
theorem send_batch_step (hheld : c ∈ s.held) {messages : List (Message X)}
    (h : (Session.send_batch c messages).run s = .ok () s') : Step s (.send c messages) s' := by
  cases hc : s.is_closed c with
  | true => exact nomatch (send_batch_closed hc messages).symm.trans h
  | false =>
    have hrun : (Session.send_batch c messages).run s
        = .ok () { s with sending := s.sending ++ [⟨c, batch_of c messages, false⟩] } := by
      simp [Session.send_batch, hc]
    obtain ⟨-, rfl⟩ := EStateM.Result.ok.inj (hrun.symm.trans h)
    exact .send messages hheld hc

/-! ## What happened to a channel -/

/-- The channel was emitted, that is, its event was queued at some time. -/
def Emitted (c : Channel) (tr : List (Happening X σ)) : Prop := ∃ t ∈ tr, Queues (.Channel c) t

/-- The entry the channel was created from was removed in this step. -/
def Loses (c : Channel) (t : Happening X σ) : Prop :=
  Live t.pre.protocol.channels c ∧ ¬ Live t.post.protocol.channels c

/-- A `close` on a channel with this flag has completed: its last part stores the flag. -/
def Stores (flag : ℕ) (t : Happening X σ) : Prop :=
  ∃ c, t.act = .store_closed c ∧ c.closed = flag

/-! ## Emitted channels stay -/

/-- The application has the channel, or is about to get it with an event that waits. -/
def Session.Gives (s : Session X σ) (c : Channel) : Prop :=
  c ∈ s.held ∨ Event.Channel c ∈ s.protocol.queued_events

theorem gives_after (hm : s.protocol.channels.Wf) {move : Move X}
    (h : protocol_step s.protocol move p) :
    (s.after move p).Gives c ↔ s.Gives c ∨
      ∃ es, p.queued_events = s.protocol.queued_events ++ es ∧ Event.Channel c ∈ es := by
  rw [Session.Gives, Session.Gives, s.protocol_after]
  rcases protocol_step_events hm h with ⟨e, rfl, hq⟩ | ⟨es, hes, -⟩
  · -- an event is returned, and if it has a channel the application holds that
    have hnone : ¬ ∃ es, p.queued_events = s.protocol.queued_events ++ es ∧
        Event.Channel c ∈ es := by
      rintro ⟨es, hes, -⟩
      have hlen := congrArg List.length hes
      simp only [hq, List.length_append, List.length_cons] at hlen
      omega
    have hheld : c ∈ (s.after (.event e) p).held ↔ c ∈ s.held ∨ Event.Channel c = e := by
      cases e with
      | Channel c' => simp [Session.after]
      | _ => simp [Session.after]
    rw [or_iff_left hnone, hheld, hq, List.mem_cons, or_assoc]
  · -- no event is returned, so nothing is given but what was queued
    have hheld : (s.after move p).held = s.held := by
      cases h with
      | event hq =>
        have hlen := congrArg List.length hes
        simp only [hq, List.length_append, List.length_cons] at hlen
        omega
      | _ => rfl
    have hnew : (∃ es', p.queued_events = s.protocol.queued_events ++ es' ∧
        Event.Channel c ∈ es') ↔ Event.Channel c ∈ es := by
      constructor
      · rintro ⟨es', hes', hc⟩
        rwa [List.append_cancel_left (hes.symm.trans hes')]
      · exact fun hc => ⟨es, hes, hc⟩
    rw [hheld, hnew, hes, List.mem_append, or_assoc]

/-- The application gets a channel when it is queued, and keeps it: nothing takes a channel
away. -/
theorem Step.gives_iff (h : Step s a s') (hs : Inv s) :
    s'.Gives c ↔ s.Gives c ∨ Queues (.Channel c) (⟨s, a, s'⟩ : Happening X σ) := by
  have haside : s'.Gives c = s.Gives c → s'.protocol.queued_events = s.protocol.queued_events →
      (s'.Gives c ↔ s.Gives c ∨ Queues (.Channel c) (⟨s, a, s'⟩ : Happening X σ)) := by
    intro hsame hq
    rw [hsame, or_iff_left]
    rintro ⟨es, hes, hc⟩
    have hnil : es = [] := List.append_right_eq_self.mp (hes.symm.trans hq)
    exact absurd hc (hnil ▸ List.not_mem_nil)
  cases h with
  | protocol h =>
    rw [gives_after hs.wf h, Queues]
    simp only [s.protocol_after]
  | _ => exact haside rfl rfl

/-- The emitted channels are those the application has or is about to get. -/
theorem emitted_iff_gives {stream : σ} (run : Run Step (Session.new stream) tr s) :
    Emitted c tr ↔ s.Gives c := by
  induction run with
  | nil => simp [Emitted, Session.Gives, Session.new, Protocol.new]
  | snoc run h ih =>
    rw [h.gives_iff (reachable_inv run), ← ih]
    simp only [Emitted, List.mem_append, List.mem_singleton, or_and_right, exists_or,
      exists_eq_left]

theorem Establishes.live (h : Establishes p p' c) : Live p'.channels c := by
  obtain ⟨m, d, e, ls, rs, hm, hd, -, -, -, rfl, hp'⟩ := h
  refine ⟨{ e with inbound_tx := some m.shared.inboxes.next }, ?_, rfl⟩
  rw [hp']
  exact ChannelMap.update_some_iff.mpr (Or.inl ⟨(hm.fits hd).keyed, rfl⟩)

/-- The entry of an emitted channel is there, or it was removed at some time. There is no third
way. -/
theorem emitted_live {stream : σ} (run : Run Step (Session.new stream) tr s)
    (hc : Emitted c tr) : Live s.protocol.channels c ∨ ∃ t ∈ tr, Loses c t := by
  induction run with
  | nil => exact absurd hc (by simp [Emitted])
  | snoc run h ih =>
    obtain ⟨t, ht, hq⟩ := hc
    rcases List.mem_append.mp ht with ht | ht
    · rcases ih ⟨t, ht, hq⟩ with hlive | ⟨t, ht, hlost⟩
      · rw [or_iff_not_imp_left]
        exact fun hgone => ⟨_, List.mem_append_right _ (List.mem_singleton.mpr rfl), hlive, hgone⟩
      · exact Or.inr ⟨t, List.mem_append_left _ ht, hlost⟩
    · obtain rfl := List.mem_singleton.mp ht
      exact Or.inl (hq.establishes h (reachable_inv run)).live

/-! ## Removed entries do not come back -/

/-- The channel has had an entry, and it is not there. It will not come back, since a new entry
has another flag. -/
def Gone (m : ChannelMap X) (c : Channel) : Prop :=
  c.closed < m.shared.flags.next ∧ ¬ Live m c

theorem MapChange.next_flags (hc : MapChange P m m') :
    m.shared.flags.next ≤ m'.shared.flags.next := by
  cases hc with
  | call _ heff =>
    cases heff with
    | attached_local => exact ChannelMap.le_entered_flags _ _
    | attached_remote => exact ChannelMap.le_entered_flags _ _
    | absent => exact Nat.le_refl _
    | removed => exact Nat.le_of_eq (Arena.next_update _ _ _).symm
  | accept => exact Nat.le_refl _
  | push => exact Nat.le_refl _

theorem MapChange.gone (hc : MapChange P m m') (h : Gone m c) : Gone m' c := by
  obtain ⟨hlt, hno⟩ := h
  refine ⟨Nat.lt_of_lt_of_le hlt hc.next_flags, ?_⟩
  rintro ⟨e, hd, hcl⟩
  -- the handle of a key without an entry would have a new flag
  have hentry : (m.entry c.discovery_key).closed ≠ c.closed := by
    cases hd₀ : m.channels c.discovery_key with
    | some e₀ =>
      rw [ChannelMap.entry_of_some hd₀]
      exact fun heq => hno ⟨e₀, hd₀, heq⟩
    | none =>
      rw [ChannelMap.entry_of_none hd₀]
      exact Nat.ne_of_gt hlt
  rcases hc.entry_cases hd with hd | ⟨key, i, -, rfl⟩ | ⟨r, cap, -, rfl⟩ | ⟨e₀, hd₀, rfl⟩
  · exact hno ⟨e, hd, hcl⟩
  · exact hentry hcl
  · exact hentry hcl
  · exact hno ⟨e₀, hd₀, hcl⟩

theorem Step.gone (h : Step s a s') (hs : Inv s) (hc : Gone s.protocol.channels c) :
    Gone s'.protocol.channels c := by
  cases h with
  | protocol h =>
    rw [s.protocol_after]
    exact (MapChanges.keep (fun hchange _ => hchange.gone) (protocol_step_changes hs.wf h)
      hs.wf hc).2
  | store_closed => exact ⟨(Arena.next_update _ _ _).symm ▸ hc.1, hc.2⟩
  | _ => exact hc

theorem Step.next_flags (h : Step s a s') (hs : Inv s) :
    s.protocol.channels.shared.flags.next ≤ s'.protocol.channels.shared.flags.next := by
  cases h with
  | protocol h =>
    rw [s.protocol_after]
    exact (MapChanges.keep (I := fun m => s.protocol.channels.shared.flags.next
        ≤ m.shared.flags.next) (fun hchange _ hle => Nat.le_trans hle hchange.next_flags)
      (protocol_step_changes hs.wf h) hs.wf (Nat.le_refl _)).2
  | store_closed => exact Nat.le_of_eq (Arena.next_update _ _ _).symm
  | _ => exact Nat.le_refl _

/-- Along a run, a channel that has lost its entry is without it from then on, even if its key is
opened again. -/
theorem reachable_gone {stream : σ} (run : Run Step (Session.new stream) tr s)
    (hc : ∃ t ∈ tr, Loses c t) : Gone s.protocol.channels c := by
  induction run with
  | nil => exact absurd hc (by simp)
  | snoc run h ih =>
    have hs := reachable_inv run
    obtain ⟨t, ht, hlost⟩ := hc
    rcases List.mem_append.mp ht with ht | ht
    · exact h.gone hs (ih ⟨t, ht, hlost⟩)
    · obtain rfl := List.mem_singleton.mp ht
      obtain ⟨⟨e, hd, hcl⟩, hno⟩ := hlost
      exact ⟨Nat.lt_of_lt_of_le (hcl ▸ (hs.wf.fits hd).flag_lt) (h.next_flags hs), hno⟩

/-! ## Who sets the flag of an entry -/

/-- The flags of the entries are not set, but for those in `A`. An entry whose flag is set is one
that was closed from the side of its channel. -/
def UnsetExcept (A : ℕ → Prop) (m : ChannelMap X) : Prop :=
  ∀ d h, m.channels d = some h → m.shared.flags.read h.closed = some false ∨ A h.closed

theorem UnsetExcept.mono {A B : ℕ → Prop} (h : UnsetExcept A m) (hAB : ∀ n, A n → B n) :
    UnsetExcept B m :=
  fun d e hd => (h d e hd).imp id (hAB _)

/-- Attaching gives `d` a handle with the flag it had, or with a new one, which is not set. -/
theorem UnsetExcept.entered {A : ℕ → Prop} (hm : m.Wf) (h : UnsetExcept A m) {d : DiscoveryKey}
    {e : ChannelHandle} (hentries : m'.channels = Function.update m.channels d (some e))
    (hcl : e.closed = (m.entry d).closed) (hshared : m'.shared = m.entered d) :
    UnsetExcept A m' := by
  intro d' e' hd'
  rw [hentries] at hd'
  rw [hshared]
  rcases ChannelMap.update_some_iff.mp hd' with ⟨rfl, rfl⟩ | ⟨-, hd'⟩
  · rw [hcl]
    cases hd : m.channels d' with
    | some e₀ =>
      rw [ChannelMap.entry_of_some hd, ChannelMap.entered_of_some hd]
      exact h d' e₀ hd
    | none =>
      rw [ChannelMap.entry_of_none hd, ChannelMap.entered_of_none hd]
      exact Or.inl (Arena.read_alloc_next _ _)
  · rw [ChannelMap.read_entered (hm.fits hd').flag_lt]
    exact h d' e' hd'

theorem MapChange.unset_except {A : ℕ → Prop} (hc : MapChange P m m') (hm : m.Wf)
    (h : UnsetExcept A m) : UnsetExcept A m' := by
  cases hc with
  | call _ heff =>
    cases heff with
    | attached_local => exact h.entered hm rfl rfl rfl
    | attached_remote => exact h.entered hm rfl rfl rfl
    | absent => exact h
    | removed hd =>
      intro d' e' hd'
      obtain ⟨hne, hd'⟩ := ChannelMap.update_none_iff.mp hd'
      -- the flag that the drop sets belongs to the removed entry alone
      rw [Shared.store_true, Arena.read_update_of_ne fun heq => hne (hm.flag_inj hd' hd heq)]
      exact h d' e' hd'
  | accept hd =>
    intro d' e' hd'
    rcases ChannelMap.update_some_iff.mp hd' with ⟨rfl, rfl⟩ | ⟨-, hd'⟩
    · have hold := h d' _ hd
      exact hold
    · exact h d' e' hd'
  | push => exact h

/-- Only a `close` that completes sets the flag of an entry; a removal sets one too, but takes
the entry away. -/
theorem Step.unset_except {A : ℕ → Prop} (h : Step s a s') (hs : Inv s)
    (hA : UnsetExcept A s.protocol.channels) :
    UnsetExcept (fun n => A n ∨ Stores n (⟨s, a, s'⟩ : Happening X σ)) s'.protocol.channels := by
  cases h with
  | protocol h =>
    rw [s.protocol_after]
    exact (MapChanges.keep (fun hchange hm => hchange.unset_except hm)
      (protocol_step_changes hs.wf h) hs.wf (hA.mono fun _ => Or.inl)).2
  | store_closed =>
    rename_i c₀ _
    intro d e hd
    by_cases heq : e.closed = c₀.closed
    · exact Or.inr (Or.inr ⟨c₀, rfl, heq.symm⟩)
    · show (_ : Arena Bool).read _ = _ ∨ _
      rw [Session.with_shared, Shared.store_true, Arena.read_update_of_ne heq]
      exact (hA d e hd).imp id Or.inl
  | _ => exact fun d e hd => (hA d e hd).imp id Or.inl

theorem reachable_unset_except {stream : σ} (run : Run Step (Session.new stream) tr s) :
    UnsetExcept (fun n => ∃ t ∈ tr, Stores n t) s.protocol.channels := by
  refine run.invariant (I := fun tr s =>
    UnsetExcept (fun n => ∃ t ∈ tr, Stores n t) s.protocol.channels) ?_ ?_
  · exact fun d h hd => nomatch hd
  · intro tr s a s' run hA h
    refine (h.unset_except (reachable_inv run) hA).mono fun n hn => ?_
    rcases hn with ⟨t, ht, hst⟩ | hst
    · exact ⟨t, List.mem_append_left _ ht, hst⟩
    · exact ⟨_, List.mem_append_right _ (List.mem_singleton.mpr rfl), hst⟩

/-! ## The theorem -/

omit [CipherTrait σ] in
theorem is_closed_eq_false_iff (hc : Backed s.protocol.channels c) :
    s.is_closed c = false ↔ s.protocol.channels.shared.flags.read c.closed = some false := by
  obtain ⟨b, hb⟩ := Arena.exists_read hc.flag_lt
  rw [Session.is_closed, hb, Option.getD_some, Option.some_inj]

/-- For every channel that was ever emitted. While it is not closed the map holds the
entry it was created from, and its id leads to that entry. If it is closed, that entry
was removed, or a `close` has completed on a channel of that entry. Once the entry was
removed it is gone, and a send fails and queues nothing. -/
theorem open_channel_backed {stream : σ} (run : Run Step (Session.new stream) tr s)
    (hc : Emitted c tr) :
    (s.is_closed c = false → ∃ h, s.protocol.channels.channels c.discovery_key = some h ∧
      h.closed = c.closed ∧ s.protocol.channels.get_local c.local_id = some h) ∧
    (s.is_closed c = true → (∃ t ∈ tr, Loses c t) ∨ ∃ t ∈ tr, Stores c.closed t) ∧
    ((∃ t ∈ tr, Loses c t) → ¬ Live s.protocol.channels c ∧
      (∀ message, (Session.send c message).run s = .error (.err channel_closed) s) ∧
      ∀ messages, (Session.send_batch c messages).run s = .error (.err channel_closed) s) := by
  have hbacked : Backed s.protocol.channels c :=
    (reachable_inv run).backed c (((emitted_iff_gives run).mp hc).imp id Or.inl)
  have hiff := is_closed_eq_false_iff hbacked
  refine ⟨fun hopen => ?_, fun hclosed => ?_, fun hlost => ?_⟩
  · obtain ⟨h, hd, hcl⟩ := hbacked.entry (hiff.mp hopen)
    refine ⟨h, hd, hcl, ?_⟩
    rw [ChannelMap.get_local, ChannelMap.resolve, hbacked.slot h hd hcl, Option.bind_some, hd]
  · rcases emitted_live run hc with ⟨h, hd, hcl⟩ | hlost
    · -- the entry is still there with its flag set, and only a `close` can have set it
      rcases reachable_unset_except run _ h hd with hunset | hst
      · rw [hcl, ← hiff, hclosed] at hunset
        cases hunset
      · exact Or.inr (hcl ▸ hst)
    · exact Or.inl hlost
  · have hgone := (reachable_gone run hlost).2
    have hclosed : s.is_closed c = true := by
      rw [← Bool.not_eq_false, hiff]
      exact fun hunset => hgone (hbacked.entry hunset)
    exact ⟨hgone, fun message => send_batch_closed hclosed [message], send_batch_closed hclosed⟩

/-- The remote closes an established channel. -/
theorem open_channel_backed_lost :
    ∃ tr s, Run Step (Session.new (Memory.connected false) : Session deps Memory) tr s ∧
      Emitted first_channel tr ∧ (∃ t ∈ tr, Loses first_channel t) ∧
      ∀ message, (Session.send first_channel message).run s = .error (.err channel_closed) s := by
  obtain ⟨tr, run, -⟩ := established_reachable
  have run' := run.snoc (a := .protocol (.inbound ⟨1, .Close ⟨1⟩⟩))
    (.protocol (.inbound (Or.inl ⟨(), rfl⟩)))
  obtain ⟨tr', s', run', hemitted, hlost⟩ :
      ∃ tr s, Run Step (Session.new (Memory.connected false) : Session deps Memory) tr s ∧
        Emitted first_channel tr ∧ ∃ t ∈ tr, Loses first_channel t :=
    ⟨_, _, run', (emitted_iff_gives run').mpr (Or.inl (List.mem_singleton.mpr rfl)), _,
      List.mem_append_right _ (List.mem_singleton.mpr rfl), ⟨_, rfl, rfl⟩,
      fun ⟨_, hd, _⟩ => Bool.false_ne_true (congrArg Option.isSome hd)⟩
  exact ⟨tr', s', run', hemitted, hlost, ((open_channel_backed run' hemitted).2.2 hlost).2.1⟩

/-! ## Two ways to close -/

/-- For every channel of a reachable session whose entry is there, the command and the
`Close` that the channel itself queues remove the same entry and queue the same event. But
only the channel's own `Close` is written; the command writes nothing, so in no state do
the two agree on what the remote is told. -/
theorem closes_agree_but_for_message {stream : σ} (run : Run Step (Session.new stream) tr s)
    (hc : s.Knows c) (hlive : Live s.protocol.channels c) :
    ∃ p₁ p₂, (Protocol.on_command (.Close c.discovery_key)).run s.protocol = .ok () p₁ ∧
      (Protocol.on_outbound_batch (batch_of c [close_of c])).run s.protocol = .ok () p₂ ∧
      p₁.channels = p₂.channels ∧ p₁.queued_events = p₂.queued_events ∧
      p₂.queued_events = s.protocol.queued_events ++ [.Close c.discovery_key] ∧
      p₁.io.write_queue = s.protocol.io.write_queue ∧
      p₂.io.write_queue = s.protocol.io.write_queue ++ batch_of c [close_of c] ∧
      p₁.io.write_queue ≠ p₂.io.write_queue := by
  have hs := reachable_inv run
  obtain ⟨-, h, hd, hlocal⟩ := (hs.backed c hc).get_local hlive
  have hkeyed : h.discovery_key = c.discovery_key := (hs.wf.fits hd).keyed
  obtain ⟨m, hremove, -⟩ := Protocol.remove_spec hs.wf hd
  -- both ways end in the same `remove` and the same event
  have hclose : (Protocol.close_local (UInt64.ofNat c.local_id)).run s.protocol =
      .ok () { s.protocol with
        channels := m
        queued_events := s.protocol.queued_events ++ [.Close c.discovery_key] } := by
    simp only [Protocol.close_local, EStateM.run_bind, EStateM.run_get, hlocal, hkeyed,
      Protocol.run_on_channels, hremove, Protocol.run_queue_event]
  refine ⟨{ s.protocol with
      channels := m
      queued_events := s.protocol.queued_events ++ [.Close c.discovery_key] },
    { s.protocol with
      channels := m
      queued_events := s.protocol.queued_events ++ [.Close c.discovery_key]
      io := { s.protocol.io with
        write_queue := s.protocol.io.write_queue ++ batch_of c [close_of c] } },
    ?_, ?_, rfl, rfl, rfl, rfl, rfl, fun heq => ?_⟩
  · simp [Protocol.on_command, Protocol.command_close, ChannelMap.has_channel, hd, hremove]
  · simp [Protocol.on_outbound_batch, batch_of, close_of, Protocol.retain_outbound,
      Protocol.on_outbound_message, hclose, Protocol.enqueue_all_run]
  · exact absurd (List.append_right_eq_self.mp heq.symm) (List.cons_ne_nil _ _)

/-- The first channel of the established session, which the application holds. -/
theorem closes_agree_but_for_message_established :
    ∃ p₁ p₂, (Protocol.on_command (.Close first_channel.discovery_key)).run established.protocol
        = .ok () p₁ ∧
      (Protocol.on_outbound_batch (batch_of first_channel [close_of first_channel])).run
        established.protocol = .ok () p₂ ∧
      p₁.channels = p₂.channels ∧ p₁.io.write_queue ≠ p₂.io.write_queue := by
  obtain ⟨tr, run, -⟩ := established_reachable
  obtain ⟨p₁, p₂, h₁, h₂, hmap, -, -, -, -, hne⟩ :=
    closes_agree_but_for_message run (Or.inl List.mem_cons_self) ⟨_, rfl, rfl⟩
  exact ⟨p₁, p₂, h₁, h₂, hmap, hne⟩

/-- With both queues empty: after the command one message waits to be written, the `Open`
from before; after `Channel::close` there is a `Close` as well. -/
theorem close_command_untold :
    established.protocol.command_rx = [] ∧ established.protocol.outbound_rx = [] ∧
    (∃ tr, Run Step (Session.new (Memory.connected false)) tr established) ∧
    (∃ p, (Protocol.on_command (.Close first_channel.discovery_key)).run established.protocol
        = .ok () p ∧ p.io.write_queue.tail = []) ∧
    ∃ p, (Protocol.on_outbound_batch (batch_of first_channel [close_of first_channel])).run
        established.protocol = .ok () p ∧ p.io.write_queue.tail = [⟨1, .Close ⟨1⟩⟩] := by
  obtain ⟨tr, run, -⟩ := established_reachable
  exact ⟨rfl, rfl, ⟨tr, run⟩, ⟨_, rfl, rfl⟩, ⟨_, rfl, rfl⟩⟩

end hypercore_protocol.session
