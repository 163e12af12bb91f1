/-
What the events say about the channel table.

The application learns of the channel table through the event queue alone. A
piece of work of the protocol does one of four things for a discovery key: nothing,
attach its entry, announce its channel, or remove its entry (`Turn`). Each of them
queues the events it has to, which is read off the outcomes of the handlers once.
Everything else is an induction over the run: the entry is there as long as it was
asked for and not closed since, and it is open as long as its channel was announced
and not closed since.
-/
import HypercoreProtocol.Establishment

set_option autoImplicit false

namespace hypercore_protocol.session

open Rust Wire Runs schema message channels mqueue protocol crypto compact_encoding

variable {X : Deps} {σ : Type} [CipherTrait σ] {p p' : Protocol X σ} {s s' : Session X σ}
  {a : Action X} {m m' m₀ : ChannelMap X} {d d' : DiscoveryKey} {t : Happening X σ}
  {tr : List (Happening X σ)}

/-! ## One call and one entry -/

/-- The queue the entry of `d` is open on. There is one exactly while the channel of the key is
open here. -/
def inbox_of (m : ChannelMap X) (d : DiscoveryKey) : Option ℕ :=
  (m.channels d).bind ChannelHandle.inbound_tx

theorem entry_inbox (m : ChannelMap X) (d : DiscoveryKey) :
    (m.entry d).inbound_tx = inbox_of m d := by
  cases hd : m.channels d with
  | some h => rw [ChannelMap.entry_of_some hd, inbox_of, hd, Option.bind_some]
  | none => rw [ChannelMap.entry_of_none hd, inbox_of, hd, Option.bind_none]

theorem attached_local_at {key : Key} (h : MapEffect m (.attach_local key) m') :
    (∃ e, m'.channels (discovery_key_of X key) = some e ∧
      e.inbound_tx = inbox_of m (discovery_key_of X key)) ∧
    ∀ d, d ≠ discovery_key_of X key → m'.channels d = m.channels d := by
  cases h with
  | attached_local hkey =>
    subst hkey
    exact ⟨⟨_, Function.update_self _ _ _, entry_inbox m _⟩,
      fun d hne => Function.update_of_ne hne _ _⟩

theorem attached_remote_at {r : ℕ} {cap : Option (Vec UInt8)}
    (h : MapEffect m (.attach_remote d r cap) m') :
    (∃ e, m'.channels d = some e ∧ e.inbound_tx = inbox_of m d) ∧
    ∀ d', d' ≠ d → m'.channels d' = m.channels d' := by
  cases h with
  | attached_remote =>
    exact ⟨⟨_, Function.update_self _ _ _, entry_inbox m _⟩,
      fun d hne => Function.update_of_ne hne _ _⟩

theorem removed_at (h : MapEffect m (.remove d) m') :
    m'.channels d = none ∧ ∀ d', d' ≠ d → m'.channels d' = m.channels d' := by
  cases h with
  | absent hd => exact ⟨hd, fun _ _ => rfl⟩
  | removed => exact ⟨Function.update_self _ _ _, fun d hne => Function.update_of_ne hne _ _⟩

/-! ## One piece of work and one key -/

/-- None of the events is about `d`: neither a channel of it nor its closing. Other events may be
among them. -/
structure Quiet (d : DiscoveryKey) (es : List Event) : Prop where
  channel : ∀ c, Event.Channel c ∈ es → c.discovery_key ≠ d
  close : Event.Close d ∉ es

theorem quiet_nil (d : DiscoveryKey) : Quiet d [] :=
  ⟨fun _ h => absurd h List.not_mem_nil, List.not_mem_nil⟩

theorem quiet_singleton {e : Event} (hchannel : ∀ c, e = .Channel c → c.discovery_key ≠ d)
    (hclose : e ≠ .Close d) : Quiet d [e] :=
  ⟨fun c h => hchannel c (List.mem_singleton.mp h).symm,
    fun h => hclose (List.mem_singleton.mp h).symm⟩

theorem quiet_append {es es' : List Event} (h : Quiet d es) (h' : Quiet d es') :
    Quiet d (es ++ es') where
  channel c hc := (List.mem_append.mp hc).elim (h.channel c) (h'.channel c)
  close hc := (List.mem_append.mp hc).elim h.close h'.close

/-- What a piece of work that leads from `m` to `m'` and queues `es` does for the key `d`;
`asked` says whether it was asked to open it. -/
inductive Turn (d : DiscoveryKey) (m m' : ChannelMap X) (asked : Prop) : List Event → Prop where
  | idle {es : List Event} (hasked : ¬ asked) (hd : m'.channels d = m.channels d)
      (hes : Quiet d es) : Turn d m m' asked es
  | attached {es : List Event} {h : ChannelHandle} (hasked : asked)
      (hd : m'.channels d = some h) (htx : h.inbound_tx = inbox_of m d) (hes : Quiet d es) :
      Turn d m m' asked es
  | announced {h : ChannelHandle} {n : ℕ} {c : Channel} (hasked : asked)
      (hd : m'.channels d = some h) (htx : h.inbound_tx = some n) (hc : c.discovery_key = d) :
      Turn d m m' asked [.Channel c]
  | removed {es : List Event} {h : ChannelHandle} (hasked : ¬ asked)
      (hpre : m.channels d = some h) (hd : m'.channels d = none)
      (hchannel : ∀ c, Event.Channel c ∈ es → c.discovery_key ≠ d)
      (hclose : es.count (.Close d) = 1) : Turn d m m' asked es

/-- Accepting the entry of `d₀` announces its channel, and leaves the other keys alone. For `d`
this is its announcement, or nothing. -/
theorem turn_accepted {d₀ : DiscoveryKey} {h : ChannelHandle} {ls : LocalState} {asked : Prop}
    (hm : m.Wf) (hd : m.channels d₀ = some h)
    (hother : ∀ d, d ≠ d₀ → m.channels d = m₀.channels d) (hasked : asked ↔ d₀ = d) :
    Turn d m₀ (m.accepted d₀ h) asked
      [.Channel (ChannelMap.opened h ls m.shared.inboxes.next)] := by
  have hkeyed : h.discovery_key = d₀ := (hm.fits hd).keyed
  by_cases heq : d₀ = d
  · subst heq
    have hentry : (m.accepted d₀ h).channels d₀
        = some { h with inbound_tx := some m.shared.inboxes.next } := Function.update_self _ _ _
    exact .announced (hasked.mpr rfl) hentry rfl hkeyed
  · refine .idle (fun h => heq (hasked.mp h)) ?_
      (quiet_singleton (fun c hc => Event.Channel.inj hc ▸ hkeyed.trans_ne heq)
        (fun h => nomatch h))
    rw [← hother d (Ne.symm heq)]
    exact Function.update_of_ne (Ne.symm heq) _ _

/-- Removing the entry of `d₀` is told, and leaves the other keys alone. For `d` this is its end,
or nothing. -/
theorem turn_removed {d₀ : DiscoveryKey} {h : ChannelHandle} {asked : Prop}
    (hd : m₀.channels d₀ = some h) (hmap : MapEffect m (.remove d₀) m')
    (hm : m.channels = m₀.channels) (hasked : ¬ asked) : Turn d m₀ m' asked [.Close d₀] := by
  obtain ⟨hself, hother⟩ := removed_at hmap
  by_cases heq : d = d₀
  · subst heq
    exact .removed hasked hd hself (fun _ h => nomatch List.mem_singleton.mp h)
      List.count_singleton_self
  · exact .idle hasked (by rw [hother d heq, hm])
      (quiet_singleton (fun _ h => nomatch h) fun h => heq (Event.Close.inj h).symm)

/-! ## The handlers -/

/-- The command asks for `d`: it opens a key that has `d` as its discovery key. -/
def command_asks (X : Deps) (d : DiscoveryKey) (c : Command) : Prop :=
  ∃ key, c = .Open key ∧ discovery_key_of X key = d

/-- The message asks for `d`: it is an `Open` that names it. -/
def inbound_asks (d : DiscoveryKey) (msg : ChannelMessage X) : Prop :=
  ∃ o, msg.message = .Open o ∧ o.discovery_key.val = d.val

theorem command_asks_open {key : Key} : command_asks X d (.Open key) ↔ discovery_key_of X key = d :=
  ⟨fun ⟨_, h, hd⟩ => Command.Open.inj h ▸ hd, fun hd => ⟨key, rfl, hd⟩⟩

theorem inbound_asks_open {ch : UInt64} {o : Open} (hk : o.discovery_key.val = d'.val) :
    inbound_asks d (⟨ch, .Open o⟩ : ChannelMessage X) ↔ d' = d :=
  ⟨fun ⟨_, h, hd⟩ => Subtype.ext (hk.symm.trans ((Message.Open.inj h) ▸ hd)),
    fun hd => ⟨o, rfl, hd ▸ hk⟩⟩

/-- Attaching the entry of `d₀`, without telling. An entry that is open stays open on its
queue. -/
theorem turn_attached {d₀ : DiscoveryKey} {es : List Event} {asked : Prop}
    (hself : ∃ e, m'.channels d₀ = some e ∧ e.inbound_tx = inbox_of m d₀)
    (hother : ∀ d, d ≠ d₀ → m'.channels d = m.channels d)
    (hes : Quiet d es) (hasked : asked ↔ d₀ = d) : Turn d m m' asked es := by
  by_cases heq : d₀ = d
  · subst heq
    obtain ⟨e, hd, htx⟩ := hself
    exact .attached (hasked.mpr rfl) hd htx hes
  · exact .idle (fun h => heq (hasked.mp h)) (hother d (Ne.symm heq)) hes

theorem command_turn (hm : p.channels.Wf) {c : Command} {result : Option IoError}
    (h : Protocol.CommandEffect p c result p') (d : DiscoveryKey) :
    ∃ es, p'.queued_events = p.queued_events ++ es ∧
      Turn d p.channels p'.channels (command_asks X d c) es := by
  cases h with
  | opened hmap =>
    obtain ⟨hself, hother⟩ := attached_local_at hmap
    exact ⟨[], (List.append_nil _).symm,
      turn_attached hself hother (quiet_nil d) command_asks_open⟩
  | refused hmap =>
    obtain ⟨hself, hother⟩ := attached_local_at hmap
    exact ⟨[], (List.append_nil _).symm,
      turn_attached hself hother (quiet_nil d) command_asks_open⟩
  | accepted hmap hd =>
    exact ⟨_, rfl,
      turn_accepted (hmap.wf hm) hd (attached_local_at hmap).2 command_asks_open⟩
  | close_absent =>
    exact ⟨[], (List.append_nil _).symm, .idle (fun h => nomatch h) rfl (quiet_nil d)⟩
  | closed hd hmap => exact ⟨_, rfl, turn_removed hd hmap rfl (fun h => nomatch h)⟩
  | signalled =>
    exact ⟨_, rfl, .idle (fun h => nomatch h) rfl
      (quiet_singleton (fun _ h => nomatch h) (fun h => nomatch h))⟩

theorem inbound_turn (hm : p.channels.Wf) {msg : ChannelMessage X} {result : Option IoError}
    (h : Protocol.InboundEffect p msg result p') (d : DiscoveryKey) :
    ∃ es, p'.queued_events = p.queued_events ++ es ∧
      Turn d p.channels p'.channels (inbound_asks d msg) es := by
  -- messages that change nothing, and were not asked for
  have hidle : ¬ inbound_asks d msg → p' = p →
      ∃ es, p'.queued_events = p.queued_events ++ es ∧
        Turn d p.channels p'.channels (inbound_asks d msg) es :=
    fun hasked hp => ⟨[], by rw [hp, List.append_nil], .idle hasked (by rw [hp]) (quiet_nil d)⟩
  have hdata : ∀ {ch msg}, Message.is_open_or_close msg = false →
      ¬ inbound_asks d (⟨ch, msg⟩ : ChannelMessage X) := by
    rintro ch msg hmsg ⟨o, rfl, -⟩
    exact nomatch hmsg
  cases h with
  | bad_key hk =>
    refine hidle ?_ rfl
    rintro ⟨o, ho, hd⟩
    rw [← Message.Open.inj ho] at hd
    exact hk (hd ▸ d.property)
  | announced hk hmap =>
    obtain ⟨hself, hother⟩ := attached_remote_at hmap
    exact ⟨_, rfl, turn_attached hself hother
      (quiet_singleton (fun _ h => nomatch h) (fun h => nomatch h)) (inbound_asks_open hk)⟩
  | refused hk hmap =>
    obtain ⟨hself, hother⟩ := attached_remote_at hmap
    exact ⟨[], (List.append_nil _).symm,
      turn_attached hself hother (quiet_nil d) (inbound_asks_open hk)⟩
  | accepted hk hmap hd =>
    exact ⟨_, rfl,
      turn_accepted (hmap.wf hm) hd (attached_remote_at hmap).2 (inbound_asks_open hk)⟩
  | close_unknown =>
    refine hidle ?_ rfl
    rintro ⟨o, ho, -⟩
    exact nomatch ho
  | closed hr hd htold hmap =>
    refine ⟨_, rfl, turn_removed hd hmap ?_ ?_⟩
    · rcases htold with ⟨n, -, -, rfl⟩ | ⟨-, rfl⟩ <;> rfl
    · rintro ⟨o, ho, -⟩
      exact nomatch ho
  | unknown hmsg => exact hidle (hdata hmsg) rfl
  | not_open hmsg => exact hidle (hdata hmsg) rfl
  | no_receiver hmsg => exact hidle (hdata hmsg) rfl
  | delivered hmsg =>
    exact ⟨[], (List.append_nil _).symm, .idle (hdata hmsg) rfl (quiet_nil d)⟩

omit [CipherTrait σ] in
theorem outbound_turn {msg : ChannelMessage X} {keep : Bool}
    (h : Protocol.OutboundEffect p msg keep p') (d : DiscoveryKey) :
    ∃ es, p'.queued_events = p.queued_events ++ es ∧ Turn d p.channels p'.channels False es := by
  cases h with
  | close_unknown => exact ⟨[], (List.append_nil _).symm, .idle id rfl (quiet_nil d)⟩
  | closed hl hd hmap => exact ⟨_, rfl, turn_removed hd hmap rfl id⟩
  | signalled =>
    exact ⟨_, rfl, .idle id rfl
      (quiet_singleton (fun _ h => nomatch h) (fun h => nomatch h))⟩
  | passed => exact ⟨[], (List.append_nil _).symm, .idle id rfl (quiet_nil d)⟩

/-- Two pieces of work, neither of which was asked for the key, as one. The messages of a batch
are put together so. -/
theorem Turn.trans {es es' : List Event} (h : Turn d m m₀ False es) (h' : Turn d m₀ m' False es') :
    Turn d m m' False (es ++ es') := by
  cases h with
  | attached hasked => exact hasked.elim
  | announced hasked => exact hasked.elim
  | idle _ hd hes =>
    cases h' with
    | attached hasked => exact hasked.elim
    | announced hasked => exact hasked.elim
    | idle _ hd' hes' => exact .idle id (hd'.trans hd) (quiet_append hes hes')
    | removed _ hpre hd' hchannel hclose =>
      refine .removed id (hd.symm.trans hpre) hd' ?_ ?_
      · exact fun c hc => (List.mem_append.mp hc).elim (hes.channel c) (hchannel c)
      · rw [List.count_append, List.count_eq_zero.mpr hes.close, hclose]
  | removed _ hpre hd hchannel hclose =>
    cases h' with
    | attached hasked => exact hasked.elim
    | announced hasked => exact hasked.elim
    | idle _ hd' hes' =>
      refine .removed id hpre (hd'.trans hd) ?_ ?_
      · exact fun c hc => (List.mem_append.mp hc).elim (hchannel c) (hes'.channel c)
      · rw [List.count_append, List.count_eq_zero.mpr hes'.close, hclose]
    | removed _ hpre' => exact nomatch hd.symm.trans hpre'

omit [CipherTrait σ] in
theorem batch_turn {msgs kept : List (ChannelMessage X)}
    (h : Protocol.BatchEffect p msgs kept p') (d : DiscoveryKey) :
    ∃ es, p'.queued_events = p.queued_events ++ es ∧ Turn d p.channels p'.channels False es := by
  induction h with
  | nil p => exact ⟨[], (List.append_nil _).symm, .idle id rfl (quiet_nil d)⟩
  | cons head _ ih =>
    obtain ⟨es, hes, hturn⟩ := outbound_turn head d
    obtain ⟨es', hes', hturn'⟩ := ih
    exact ⟨es ++ es', by rw [hes', hes, List.append_assoc], hturn.trans hturn'⟩

/-! ## One step of a session -/

/-- The events a transition queued, as what is behind those that waited before it. -/
def queued (t : Happening X σ) : List Event :=
  t.post.protocol.queued_events.drop t.pre.protocol.queued_events.length

/-- A `Command::Open` of a key for `d`, or an inbound `Open` that names `d`, was handled. Nothing
else makes an entry for `d`. -/
def Requests (d : DiscoveryKey) (t : Happening X σ) : Prop :=
  (∃ key, Handles (.Open key) t ∧ discovery_key_of X key = d) ∨ ∃ rs, Opens d rs t

omit [CipherTrait σ] in
theorem queued_eq {es : List Event}
    (h : s'.protocol.queued_events = s.protocol.queued_events ++ es) :
    queued (⟨s, a, s'⟩ : Happening X σ) = es := by
  rw [queued, h, List.drop_left]

omit [CipherTrait σ] in
theorem requests_command {c : Command} :
    Requests d (⟨s, .protocol (.command c), s'⟩ : Happening X σ) ↔ command_asks X d c := by
  constructor
  · rintro (⟨key, hkey, hd⟩ | ⟨rs, ch, o, ho, -⟩)
    · exact ⟨key, Move.command.inj (Action.protocol.inj hkey), hd⟩
    · exact nomatch ho
  · rintro ⟨key, rfl, hd⟩
    exact Or.inl ⟨key, rfl, hd⟩

omit [CipherTrait σ] in
theorem requests_inbound {msg : ChannelMessage X} :
    Requests d (⟨s, .protocol (.inbound msg), s'⟩ : Happening X σ) ↔ inbound_asks d msg := by
  obtain ⟨ch, message⟩ := msg
  constructor
  · rintro (⟨key, hkey, -⟩ | ⟨rs, ch', o, ho, hk, -⟩)
    · exact nomatch hkey
    · exact ⟨o, congrArg ChannelMessage.message (Move.inbound.inj (Action.protocol.inj ho)), hk⟩
  · rintro ⟨o, rfl, hk⟩
    exact Or.inr ⟨_, ch, o, rfl, hk, rfl⟩

omit [CipherTrait σ] in
theorem not_requests (hcommand : ∀ c, a ≠ .protocol (.command c))
    (hinbound : ∀ msg, a ≠ .protocol (.inbound msg)) :
    ¬ Requests d (⟨s, a, s'⟩ : Happening X σ) := by
  rintro (⟨key, hkey, -⟩ | ⟨rs, ch, o, ho, -⟩)
  · exact hcommand _ hkey
  · exact hinbound _ ho

/-- What a step of a session does for a key is one of the turns above. From here on no proof
looks at a handler again. -/
theorem Step.turn (h : Step s a s') (hs : Inv s) (d : DiscoveryKey) :
    Turn d s.protocol.channels s'.protocol.channels (Requests d (⟨s, a, s'⟩ : Happening X σ))
      (queued (⟨s, a, s'⟩ : Happening X σ)) := by
  -- a step that neither changes entries nor queues anything
  have hidle : s'.protocol.channels.channels = s.protocol.channels.channels →
      s'.protocol.queued_events.length ≤ s.protocol.queued_events.length →
      ¬ Requests d (⟨s, a, s'⟩ : Happening X σ) →
      Turn d s.protocol.channels s'.protocol.channels (Requests d (⟨s, a, s'⟩ : Happening X σ))
        (queued (⟨s, a, s'⟩ : Happening X σ)) := by
    intro hmap hlen hno
    refine .idle hno (by rw [hmap]) ?_
    rw [queued, List.drop_eq_nil_of_le hlen]
    exact quiet_nil d
  rcases h.move_or_aside with ⟨move, rfl, hmove⟩ | ⟨hno, hq⟩
  swap
  · exact hidle hq.entries (by rw [hq.queued_events])
      (not_requests (fun _ => hno _) (fun _ => hno _))
  cases move with
  | command c =>
    obtain ⟨rest, result, -, heff⟩ := command_effect hs.wf hmove
    obtain ⟨es, hes, hturn⟩ :=
      command_turn (p := { s.protocol with command_rx := rest }) hs.wf heff d
    rw [queued_eq hes, propext requests_command]
    exact hturn
  | inbound msg =>
    obtain ⟨result, heff⟩ := inbound_effect hs.wf hmove
    obtain ⟨es, hes, hturn⟩ := inbound_turn hs.wf heff d
    rw [queued_eq hes, propext requests_inbound]
    exact hturn
  | outbound batch =>
    obtain ⟨rest, kept, q, -, heff, hp'⟩ := outbound_effect hs.wf hmove
    obtain ⟨es, hes, hturn⟩ := batch_turn heff d
    have hno : ¬ Requests d (⟨s, .protocol (.outbound batch), s'⟩ : Happening X σ) :=
      not_requests (fun _ h => nomatch h) (fun _ h => nomatch h)
    have hq : s'.protocol.queued_events = s.protocol.queued_events ++ es := by
      rw [hp']
      exact hes
    rw [queued_eq hq, eq_false hno, hp']
    exact hturn
  | io =>
    generalize s'.protocol = p' at hmove hidle ⊢
    cases hmove
    exact hidle rfl (Nat.le_refl _) (not_requests (fun _ h => nomatch h) (fun _ h => nomatch h))
  | handshake key =>
    generalize s'.protocol = p' at hmove hidle ⊢
    cases hmove
    exact hidle rfl (Nat.le_refl _) (not_requests (fun _ h => nomatch h) (fun _ h => nomatch h))
  | event e =>
    generalize s'.protocol = p' at hmove hidle ⊢
    cases hmove with
    | event hq =>
      exact hidle rfl (by rw [hq]; exact Nat.le_succ _)
        (not_requests (fun _ h => nomatch h) (fun _ h => nomatch h))

/-! ## The table and the `Close` events -/

/-- The entry of `d` after a step: it was asked for, or it was there and its closing was not
told. -/
theorem Turn.isSome_iff {asked : Prop} {es : List Event} (h : Turn d m m' asked es) :
    (m'.channels d).isSome ↔ asked ∨ ((m.channels d).isSome ∧ Event.Close d ∉ es) := by
  cases h with
  | idle hasked hd hes =>
    rw [hd]
    exact ⟨fun h => Or.inr ⟨h, hes.close⟩, fun h => h.elim (fun h => absurd h hasked) And.left⟩
  | attached hasked hd => exact iff_of_true (by rw [hd]; rfl) (Or.inl hasked)
  | announced hasked hd => exact iff_of_true (by rw [hd]; rfl) (Or.inl hasked)
  | removed hasked hpre hd _ hclose =>
    refine iff_of_false (by rw [hd]; exact Bool.false_ne_true) ?_
    rintro (h | ⟨-, h⟩)
    · exact hasked h
    · exact absurd (List.count_eq_zero.mpr h) (by rw [hclose]; exact Nat.one_ne_zero)

/-- The `Close` events for `d` of a step: one if the entry goes, and none otherwise. -/
theorem Turn.count_close {asked : Prop} {es : List Event} (h : Turn d m m' asked es) :
    es.count (.Close d) = 1 ∧ (m.channels d).isSome ∧ m'.channels d = none ∨
      es.count (.Close d) = 0 ∧ ¬ ((m.channels d).isSome ∧ m'.channels d = none) := by
  cases h with
  | idle hasked hd hes =>
    refine Or.inr ⟨List.count_eq_zero.mpr hes.close, ?_⟩
    rintro ⟨hsome, hnone⟩
    rw [← hd, hnone] at hsome
    exact nomatch hsome
  | attached hasked hd _ hes =>
    exact Or.inr ⟨List.count_eq_zero.mpr hes.close, fun h => nomatch hd.symm.trans h.2⟩
  | announced hasked hd =>
    refine Or.inr ⟨List.count_eq_zero.mpr fun h => ?_, fun h => nomatch hd.symm.trans h.2⟩
    exact nomatch List.mem_singleton.mp h
  | removed hasked hpre hd _ hclose => exact Or.inl ⟨hclose, by rw [hpre]; rfl, hd⟩

/-- The entry of a key is there exactly when it was asked for since the last `Close` event
for the key; and a step queues one such event if it removes the entry of the key, and
none otherwise. -/
theorem close_events_mirror_table {stream : σ} (run : Run Step (Session.new stream) tr s) :
    (∀ d, s.protocol.channels.has_channel d = true ↔
      Since (Requests d) (fun t => Event.Close d ∈ queued t) tr) ∧
    ∀ t ∈ tr, ∀ d, (Removes d t → (queued t).count (.Close d) = 1) ∧
      (¬ Removes d t → (queued t).count (.Close d) = 0) := by
  constructor
  · intro d
    refine run.invariant (I := fun tr s => s.protocol.channels.has_channel d = true ↔
      Since (Requests d) (fun t => Event.Close d ∈ queued t) tr) ?_ ?_
    · exact iff_of_false (fun h => nomatch h) not_since_nil
    · intro tr s a s' run ih h
      -- one step asks for the entry, removes it or leaves it: the three cases of `Since`
      rw [ChannelMap.has_channel] at ih ⊢
      rw [(h.turn (reachable_inv run) d).isSome_iff, since_snoc, ih]
  · refine run.invariant (I := fun tr s => ∀ t ∈ tr, ∀ d,
      (Removes d t → (queued t).count (.Close d) = 1) ∧
        (¬ Removes d t → (queued t).count (.Close d) = 0)) ?_ ?_
    · exact fun t ht => absurd ht List.not_mem_nil
    · intro tr s a s' run ih h t ht d
      rcases List.mem_append.mp ht with ht | ht
      · exact ih t ht d
      · obtain rfl := List.mem_singleton.mp ht
        rcases (h.turn (reachable_inv run) d).count_close with ⟨hcount, hrem⟩ | ⟨hcount, hrem⟩
        · exact ⟨fun _ => hcount, fun hno => absurd hrem hno⟩
        · exact ⟨fun hyes => absurd hyes hrem, fun _ => hcount⟩

/-- The established session, whose key is then closed by a command. -/
theorem close_events_mirror_table_closed :
    ∃ tr s, Run Step (Session.new (Memory.connected false) : Session deps Memory) tr s ∧
      tr.length = 6 ∧ s.protocol.channels.has_channel first_channel.discovery_key = false ∧
      ¬ Since (Requests first_channel.discovery_key)
        (fun t => Event.Close first_channel.discovery_key ∈ queued t) tr := by
  obtain ⟨tr, run, hacts⟩ := established_reachable
  have hlen : tr.length = 4 := by rw [← List.length_map, hacts]; rfl
  have run₁ := run.snoc (.queue_command (.Close first_channel.discovery_key) (by decide))
  have run₂ := run₁.snoc (a := .protocol (.command (.Close first_channel.discovery_key)))
    (.protocol (.command rfl (Or.inl ⟨(), rfl⟩)))
  refine ⟨_, _, run₂, by simp [hlen], rfl, fun h => ?_⟩
  exact absurd (((close_events_mirror_table run₂).1 _).mpr h) (by decide)

/-! ## Announcements -/

/-- The event announces a channel for `d`, and so hands it to the application. -/
def Announces (d : DiscoveryKey) (e : Event) : Prop := ∃ c, e = .Channel c ∧ c.discovery_key = d

/-- All events of a run, in the order they were queued, which is the order in which polls return
them. -/
def events (tr : List (Happening X σ)) : List Event := tr.flatMap queued

/-- A channel is announced only if no channel of its key was announced before, or a
`Close` for the key was queued since. -/
def AnnouncedOnce (past : List Event) (e : Event) : Prop :=
  ∀ d, Announces d e → ¬ Since (Announces d) (· = .Close d) past

omit [CipherTrait σ] in
theorem events_snoc : events (tr ++ [t]) = events tr ++ queued t := by
  rw [events, List.flatMap_append, List.flatMap_singleton]
  rfl

/-- The queue of the entry of `d` after a step: the events of the step say whether there is
one. -/
theorem Turn.inbox_iff {asked : Prop} {es past : List Event} (h : Turn d m m' asked es)
    (hpast : (inbox_of m d).isSome ↔ Since (Announces d) (· = .Close d) past) :
    (inbox_of m' d).isSome ↔ Since (Announces d) (· = .Close d) (past ++ es) := by
  -- events that neither announce nor close change nothing
  have hquiet : Quiet d es →
      (Since (Announces d) (· = .Close d) (past ++ es) ↔
        Since (Announces d) (· = .Close d) past) := by
    intro hes
    refine ⟨fun h => (h.of_append ?_).1, fun h => h.append ?_⟩
    · rintro e he ⟨c, rfl, hc⟩
      exact hes.channel c he hc
    · rintro e he rfl
      exact hes.close he
  cases h with
  | idle hasked hd hes => rw [hquiet hes, ← hpast, inbox_of, inbox_of, hd]
  | attached hasked hd htx hes => rw [hquiet hes, ← hpast, inbox_of, hd, Option.bind_some, htx]
  | announced hasked hd htx hc =>
    refine iff_of_true ?_ (Since.here ⟨_, rfl, hc⟩)
    rw [inbox_of, hd, Option.bind_some, htx]
    rfl
  | removed hasked hpre hd hchannel hclose =>
    refine iff_of_false ?_ fun h => ?_
    · rw [inbox_of, hd]
      exact Bool.false_ne_true
    · refine (h.of_append ?_).2 (.Close d) ?_ rfl
      · rintro e he ⟨c, rfl, hc⟩
        exact hchannel c he hc
      · exact List.count_pos_iff.mp (by rw [hclose]; exact Nat.one_pos)

/-- An entry is open exactly when its channel was announced and not closed since. The table and
the events tell the same. -/
theorem reachable_inbox {stream : σ} (run : Run Step (Session.new stream) tr s)
    (d : DiscoveryKey) :
    (inbox_of s.protocol.channels d).isSome ↔
      Since (Announces d) (· = .Close d) (events tr) := by
  refine run.invariant (I := fun tr s => (inbox_of s.protocol.channels d).isSome ↔
    Since (Announces d) (· = .Close d) (events tr)) ?_ ?_
  · exact iff_of_false Bool.false_ne_true not_since_nil
  · intro tr s a s' run ih h
    rw [events_snoc]
    exact (h.turn (reachable_inv run) d).inbox_iff ih

/-- A command for a key that the remote has opened announces the channel exactly when the
remote's capability is the right one. -/
theorem command_announces {key : Key} {result : Option IoError} {e : ChannelHandle}
    {rs : RemoteState} (h : Protocol.CommandEffect p (.Open key) result p') (hm : p.channels.Wf)
    (hd : p.channels.channels (discovery_key_of X key) = some e)
    (hr : e.remote_state = some rs) :
    (p.Verified key rs.remote_capability ∧ ∃ c, c.discovery_key = discovery_key_of X key ∧
      p'.queued_events = p.queued_events ++ [.Channel c]) ∨
    (¬ p.Verified key rs.remote_capability ∧ p'.queued_events = p.queued_events) := by
  -- attaching the key again leaves what the remote has shown
  cases h with
  | opened hmap hd' hl hr' => exact nomatch hr'.symm.trans (attached_local_keeps hd hr hmap hd')
  | refused hmap hd' hl hr' hv =>
    obtain rfl := Option.some.inj (hr'.symm.trans (attached_local_keeps hd hr hmap hd'))
    exact Or.inr ⟨hv, rfl⟩
  | accepted hmap hd' hl hr' hv =>
    obtain rfl := Option.some.inj (hr'.symm.trans (attached_local_keeps hd hr hmap hd'))
    exact Or.inl ⟨hv, _, ((hmap.wf hm).fits hd').keyed, rfl⟩

/-- An `Open` for a key that is open here announces the channel exactly when its
capability is the right one for the key. -/
theorem inbound_announces {ch : UInt64} {o : Open} {result : Option IoError} {e : ChannelHandle}
    {ls : LocalState} (h : Protocol.InboundEffect p ⟨ch, .Open o⟩ result p') (hm : p.channels.Wf)
    (hk : o.discovery_key.val = d.val) (hd : p.channels.channels d = some e)
    (hl : e.local_state = some ls) :
    (p.Verified ls.key o.capability ∧ ∃ c, c.discovery_key = d ∧
      p'.queued_events = p.queued_events ++ [.Channel c]) ∨
    (¬ p.Verified ls.key o.capability ∧ p'.queued_events = p.queued_events) := by
  cases h with
  | bad_key hlen => exact absurd (hk ▸ d.property) hlen
  | announced hk' hmap hd' hr' hl' =>
    exact nomatch hl'.symm.trans (attached_remote_keeps hd hl hk hk' hmap hd').2
  | refused hk' hmap hd' hr' hl' hv =>
    obtain ⟨-, hl''⟩ := attached_remote_keeps hd hl hk hk' hmap hd'
    obtain rfl := Option.some.inj (hl'.symm.trans hl'')
    exact Or.inr ⟨hv, rfl⟩
  | accepted hk' hmap hd' hr' hl' hv =>
    obtain ⟨rfl, hl''⟩ := attached_remote_keeps hd hl hk hk' hmap hd'
    obtain rfl := Option.some.inj (hl'.symm.trans hl'')
    exact Or.inl ⟨hv, _, ((hmap.wf hm).fits hd').keyed, rfl⟩
  | unknown hmsg => exact nomatch hmsg
  | not_open hmsg => exact nomatch hmsg
  | no_receiver hmsg => exact nomatch hmsg
  | delivered hmsg => exact nomatch hmsg

/-- The step does not open an entry again that is open already: no `Open` for its key, by
command or from the remote, is handled that passes the capability check. -/
def OpensUnannounced (t : Happening X σ) : Prop :=
  ∀ d e n ls rs, t.pre.protocol.channels.channels d = some e → e.inbound_tx = some n →
    e.local_state = some ls → e.remote_state = some rs →
    (∀ key, Handles (.Open key) t → discovery_key_of X key = d →
      ¬ t.pre.protocol.Verified key rs.remote_capability) ∧
    ∀ ch o, t.act = .protocol (.inbound ⟨ch, .Open o⟩) → o.discovery_key.val = d.val →
      ¬ t.pre.protocol.Verified ls.key o.capability

/-- An open entry has both states, since a map is well-formed only if it is so. -/
theorem inbox_of_eq_some {n : ℕ} (hm : m.Wf) (h : inbox_of m d = some n) :
    ∃ e ls rs, m.channels d = some e ∧ e.inbound_tx = some n ∧ e.local_state = some ls ∧
      e.remote_state = some rs := by
  obtain ⟨e, hd, hn⟩ := Option.bind_eq_some_iff.mp h
  have hconn := (hm.fits hd).connected hn
  rw [ChannelHandle.is_connected, Bool.and_eq_true] at hconn
  obtain ⟨ls, hl⟩ := Option.isSome_iff_exists.mp hconn.1
  obtain ⟨rs, hr⟩ := Option.isSome_iff_exists.mp hconn.2
  exact ⟨e, ls, rs, hd, hn, hl, hr⟩

/-- A command to open a key that the remote has opened announces a channel of the key and
nothing else, if the capability of the remote is verified, and otherwise nothing. -/
theorem Step.command_queued {key : Key} {e : ChannelHandle} {rs : RemoteState} (h : Step s a s')
    (hs : Inv s) (hact : a = .protocol (.command (.Open key)))
    (hd : s.protocol.channels.channels (discovery_key_of X key) = some e)
    (hr : e.remote_state = some rs) :
    (s.protocol.Verified key rs.remote_capability ∧ ∃ c,
      c.discovery_key = discovery_key_of X key ∧
      queued (⟨s, a, s'⟩ : Happening X σ) = [.Channel c]) ∨
    (¬ s.protocol.Verified key rs.remote_capability ∧
      queued (⟨s, a, s'⟩ : Happening X σ) = []) := by
  subst hact
  rcases h.move_or_aside with ⟨move, hact, hmove⟩ | ⟨hno, -⟩
  · obtain rfl := Action.protocol.inj hact
    obtain ⟨rest, result, -, heff⟩ := command_effect hs.wf hmove
    rcases command_announces heff hs.wf hd hr with ⟨hv, c, hc, hes⟩ | ⟨hv, hes⟩
    · exact Or.inl ⟨hv, c, hc, queued_eq hes⟩
    · exact Or.inr ⟨hv, queued_eq (hes.trans (List.append_nil _).symm)⟩
  · exact absurd rfl (hno _)

/-- Likewise an `Open` of the remote for a key that was opened here, with the capability that it
shows. -/
theorem Step.inbound_queued {ch : UInt64} {o : Open} {e : ChannelHandle} {ls : LocalState}
    (h : Step s a s') (hs : Inv s) (hact : a = .protocol (.inbound ⟨ch, .Open o⟩))
    (hk : o.discovery_key.val = d.val) (hd : s.protocol.channels.channels d = some e)
    (hl : e.local_state = some ls) :
    (s.protocol.Verified ls.key o.capability ∧ ∃ c, c.discovery_key = d ∧
      queued (⟨s, a, s'⟩ : Happening X σ) = [.Channel c]) ∨
    (¬ s.protocol.Verified ls.key o.capability ∧
      queued (⟨s, a, s'⟩ : Happening X σ) = []) := by
  subst hact
  rcases h.move_or_aside with ⟨move, hact, hmove⟩ | ⟨hno, -⟩
  · obtain rfl := Action.protocol.inj hact
    obtain ⟨result, heff⟩ := inbound_effect hs.wf hmove
    rcases inbound_announces heff hs.wf hk hd hl with ⟨hv, c, hc, hes⟩ | ⟨hv, hes⟩
    · exact Or.inl ⟨hv, c, hc, queued_eq hes⟩
    · exact Or.inr ⟨hv, queued_eq (hes.trans (List.append_nil _).symm)⟩
  · exact absurd rfl (hno _)

/-- A step that announces a channel of a key was asked for the key. -/
theorem Step.requests_of_channel {c : Channel} (h : Step s a s') (hs : Inv s)
    (hev : .Channel c ∈ queued (⟨s, a, s'⟩ : Happening X σ)) (hc : c.discovery_key = d) :
    Requests d (⟨s, a, s'⟩ : Happening X σ) := by
  generalize hes : queued (⟨s, a, s'⟩ : Happening X σ) = es at hev
  have hturn := h.turn hs d
  rw [hes] at hturn
  cases hturn with
  | idle _ _ hq => exact absurd hc (hq.channel c hev)
  | attached hasked => exact hasked
  | announced hasked => exact hasked
  | removed _ _ _ hq => exact absurd hc (hq c hev)

/-- A step announces no channel of an entry that is open already exactly when it opens
none again. -/
theorem Step.reannounces_iff (h : Step s a s') (hs : Inv s) :
    (∀ d, (∃ e ∈ queued (⟨s, a, s'⟩ : Happening X σ), Announces d e) →
      inbox_of s.protocol.channels d = none) ↔
    OpensUnannounced (⟨s, a, s'⟩ : Happening X σ) := by
  constructor
  · intro hquiet d e n ls rs hd hn hl hr
    have hopen : inbox_of s.protocol.channels d = some n := by
      rw [inbox_of, hd, Option.bind_some, hn]
    -- an announcement for `d` would be one of an open entry
    have hnone : ∀ c, c.discovery_key = d →
        queued (⟨s, a, s'⟩ : Happening X σ) ≠ [.Channel c] := by
      intro c hc heq
      have := hquiet d ⟨.Channel c, by rw [heq]; exact List.mem_singleton.mpr rfl, c, rfl, hc⟩
      exact nomatch this.symm.trans hopen
    constructor
    · rintro key hkey rfl hv
      rcases h.command_queued hs hkey hd hr with ⟨-, c, hc, heq⟩ | ⟨hno, -⟩
      · exact hnone c hc heq
      · exact hno hv
    · intro ch o ho hk hv
      rcases h.inbound_queued hs ho hk hd hl with ⟨-, c, hc, heq⟩ | ⟨hno, -⟩
      · exact hnone c hc heq
      · exact hno hv
  · rintro hcond d ⟨ev, hev, c, rfl, hc⟩
    cases hopen : inbox_of s.protocol.channels d with
    | none => rfl
    | some n =>
      exfalso
      obtain ⟨e, ls, rs, hd, hn, hl, hr⟩ := inbox_of_eq_some hs.wf hopen
      obtain ⟨hcond₁, hcond₂⟩ := hcond d e n ls rs hd hn hl hr
      have hempty : queued (⟨s, a, s'⟩ : Happening X σ) ≠ [] := List.ne_nil_of_mem hev
      rcases h.requests_of_channel hs hev hc with ⟨key, hkey, rfl⟩ | ⟨rs', ch, o, ho, hk, -⟩
      · rcases h.command_queued hs hkey hd hr with ⟨hv, -⟩ | ⟨-, hnil⟩
        · exact hcond₁ key hkey rfl hv
        · exact hempty hnil
      · rcases h.inbound_queued hs ho hk hd hl with ⟨hv, -⟩ | ⟨-, hnil⟩
        · exact hcond₂ ch o ho hk hv
        · exact hempty hnil

/-- The events of a step after those of a run: what was announced once stays so if the step
announces nothing that is open. -/
theorem always_events_snoc {stream : σ} (run : Run Step (Session.new stream) tr s)
    (h : Step s a s') :
    Always AnnouncedOnce (events (tr ++ [⟨s, a, s'⟩])) ↔
      Always AnnouncedOnce (events tr) ∧
        ∀ d, (∃ e ∈ queued (⟨s, a, s'⟩ : Happening X σ), Announces d e) →
          inbox_of s.protocol.channels d = none := by
  rw [events_snoc]
  -- an inbound queue is what remains of an announcement that no `Close` followed
  have hclosed : ∀ d, inbox_of s.protocol.channels d = none ↔
      ¬ Since (Announces d) (· = .Close d) (events tr) := by
    intro d
    rw [← reachable_inbox run d, Option.not_isSome_iff_eq_none]
  by_cases hch : ∃ c, Event.Channel c ∈ queued (⟨s, a, s'⟩ : Happening X σ)
  · -- then the channel is the only event of the step
    obtain ⟨c, hc⟩ := hch
    have hone : queued (⟨s, a, s'⟩ : Happening X σ) = [.Channel c] := by
      generalize hes : queued (⟨s, a, s'⟩ : Happening X σ) = es at hc
      have hturn := h.turn (reachable_inv run) c.discovery_key
      rw [hes] at hturn
      cases hturn with
      | idle _ _ hq => exact absurd rfl (hq.channel c hc)
      | attached _ _ _ hq => exact absurd rfl (hq.channel c hc)
      | announced => rw [List.mem_singleton.mp hc]
      | removed _ _ _ hq => exact absurd rfl (hq c hc)
    rw [hone, always_snoc]
    refine and_congr_right fun _ => ?_
    constructor
    · rintro honce d ⟨e, he, hann⟩
      rw [List.mem_singleton.mp he] at hann
      exact (hclosed d).mpr (honce d hann)
    · intro hnone d hann
      exact (hclosed d).mp (hnone d ⟨_, List.mem_singleton.mpr rfl, hann⟩)
  · rw [always_append]
    · refine (and_iff_left ?_).symm
      rintro d ⟨e, he, c, rfl, -⟩
      exact absurd ⟨c, he⟩ hch
    · rintro past e he d ⟨c, rfl, -⟩
      exact absurd ⟨c, he⟩ hch

/-- Over a whole run, no channel is announced twice without a `Close` in between exactly
when no step opens an entry again that is open already. -/
theorem announced_once_iff {stream : σ} (run : Run Step (Session.new stream) tr s) :
    Always AnnouncedOnce (events tr) ↔ ∀ t ∈ tr, OpensUnannounced t := by
  refine run.invariant (I := fun tr _ => Always AnnouncedOnce (events tr) ↔
    ∀ t ∈ tr, OpensUnannounced t) ?_ ?_
  · exact iff_of_true always_nil fun t ht => absurd ht List.not_mem_nil
  · intro tr s a s' run ih h
    rw [always_events_snoc run h, ih, h.reannounces_iff (reachable_inv run)]
    simp only [List.forall_mem_append, List.forall_mem_singleton]

/-- As long as nothing was announced, nothing is open, and the first announcement is never a
second one. -/
theorem opens_unannounced_of_quiet {stream : σ} (run : Run Step (Session.new stream) tr s)
    (hquiet : events tr = []) : OpensUnannounced (⟨s, a, s'⟩ : Happening X σ) := by
  intro d e n ls rs hd hn
  have hopen : inbox_of s.protocol.channels d = some n := by
    rw [inbox_of, hd, Option.bind_some, hn]
  have hsince := (reachable_inbox run d).mp (by rw [hopen]; rfl)
  rw [hquiet] at hsince
  exact absurd hsince not_since_nil

/-- A session that opens a key once announces its channel once. -/
theorem announced_once_iff_once :
    ∃ tr s, Run Step (Session.new (Memory.connected false) : Session deps Memory) tr s ∧
      tr.length = 3 ∧ Always AnnouncedOnce (events tr) := by
  have run₀ : Run Step (Session.new (Memory.connected false) : Session deps Memory) [] _ := .nil
  have run₁ := run₀.snoc (.queue_command (.Open (sample 1)) (by decide))
  have run₂ := run₁.snoc (.protocol (.command rfl (Or.inl ⟨(), rfl⟩)))
  have run₃ := run₂.snoc (a := .protocol (.inbound (remote_open 1 (sample 1))))
    (.protocol (.inbound (Or.inl ⟨(), rfl⟩)))
  refine ⟨_, _, run₃, rfl, (announced_once_iff run₃).mpr ?_⟩
  simp only [List.forall_mem_append, List.forall_mem_singleton]
  exact ⟨⟨⟨fun t ht => absurd ht List.not_mem_nil, opens_unannounced_of_quiet run₀ rfl⟩,
    opens_unannounced_of_quiet run₁ rfl⟩, opens_unannounced_of_quiet run₂ rfl⟩

/-- A session that opens a key twice announces two channels for it, and the entry feeds the
second one. -/
theorem announced_twice :
    ∃ tr s c c', Run Step (Session.new (Memory.connected false) : Session deps Memory) tr s ∧
      events tr = [.Channel c, .Channel c'] ∧ c.discovery_key = c'.discovery_key ∧
      inbox_of s.protocol.channels c.discovery_key = c'.inbound_rx ∧
      c.inbound_rx ≠ c'.inbound_rx ∧ ¬ Always AnnouncedOnce (events tr) := by
  have run₀ : Run Step (Session.new (Memory.connected false) : Session deps Memory) [] _ := .nil
  have run₁ := run₀.snoc (.queue_command (.Open (sample 1)) (by decide))
  have run₂ := run₁.snoc (.protocol (.command rfl (Or.inl ⟨(), rfl⟩)))
  have run₃ := run₂.snoc (a := .protocol (.inbound (remote_open 1 (sample 1))))
    (.protocol (.inbound (Or.inl ⟨(), rfl⟩)))
  have run₄ := run₃.snoc (.protocol (.event rfl))
  obtain ⟨tr, run, hevents⟩ : ∃ tr,
      Run Step (Session.new (Memory.connected false) : Session deps Memory) tr established ∧
      events tr = [.Channel first_channel] := ⟨_, run₄, rfl⟩
  clear run₀ run₁ run₂ run₃ run₄
  have run₅ := run.snoc (.queue_command (.Open (sample 1)) (by decide))
  have run₆ := run₅.snoc (.protocol (.command rfl (Or.inl ⟨(), rfl⟩)))
  obtain ⟨t₁, t₂, s, run₆, hq₁, hq₂, hinbox⟩ : ∃ t₁ t₂ s,
      Run Step (Session.new (Memory.connected false) : Session deps Memory)
        (tr ++ [t₁] ++ [t₂]) s ∧ queued t₁ = [] ∧
      queued t₂ = [.Channel { first_channel with
        inbound_rx := some 1, direct_inbound_tx := 1, local_id := 2 }] ∧
      inbox_of s.protocol.channels first_channel.discovery_key = some 1 :=
    ⟨_, _, _, run₆, rfl, rfl, rfl⟩
  have hevents₆ : events (tr ++ [t₁] ++ [t₂]) = [.Channel first_channel,
      .Channel { first_channel with
        inbound_rx := some 1, direct_inbound_tx := 1, local_id := 2 }] := by
    rw [events_snoc, events_snoc, hevents, hq₁, hq₂]
    rfl
  refine ⟨_, s, _, _, run₆, hevents₆, rfl, hinbox, by decide, ?_⟩
  rw [hevents₆]
  intro honce
  refine honce [.Channel first_channel] _ [] rfl first_channel.discovery_key ⟨_, rfl, rfl⟩ ?_
  rw [← List.nil_append [_]]
  exact Since.here ⟨_, rfl, rfl⟩

end hypercore_protocol.session
