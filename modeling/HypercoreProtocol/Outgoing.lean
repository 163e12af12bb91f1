/-
Messages on their way out.

A batch waits in the outbound queue with nothing but a numeric local id on its
messages. What the id means is decided when the batch is taken out: if the entry
of the channel was removed in between, the id may be free or belong to another
discovery key by then. `outbound_owned` says which order of events excludes that,
and `outbound_misdirected` is a run in which a message of one channel leaves under
the id of another.
-/
import HypercoreProtocol.Establishment

set_option autoImplicit false

namespace hypercore_protocol.session

open Rust Wire Runs schema message channels mqueue protocol compact_encoding

variable {X : Deps} {σ : Type} [CipherTrait σ] {p p' : Protocol X σ} {s s' : Session X σ}
  {a : Action X} {m m' : ChannelMap X} {c : Channel}

/-! ## The property -/

/-- The id a message has on the wire. An `Open` and a `Close` are written with the one
they carry themselves. -/
def wire_id (msg : ChannelMessage X) : ℕ :=
  match msg.message with
  | .Open o => o.channel.toNat
  | .Close x => x.channel.toNat
  | _ => msg.channel.toNat

/-- The entry the channel was created from is there. It is told by its flag, which no other entry
has. -/
def Live (m : ChannelMap X) (c : Channel) : Prop :=
  ∃ h, m.channels c.discovery_key = some h ∧ h.closed = c.closed

/-- The messages of `c` in a batch are handled, one after the other, in states in which
what is written goes under an id of its key, with its entry there, and the entries
of other keys are left alone. -/
def SendsAs (c : Channel) : Protocol X σ → List (ChannelMessage X) → Prop
  | _, [] => True
  | p, msg :: msgs =>
    ∃ keep p', (Protocol.on_outbound_message msg).run p = .ok keep p' ∧
      (keep = true →
        Live p.channels c ∧ p.channels.local_id.slot (wire_id msg) = some c.discovery_key) ∧
      (∀ d, d ≠ c.discovery_key → p'.channels.channels d = p.channels.channels d) ∧
      SendsAs c p' msgs

/-- The batch a step takes from the outbound queue is sent as of its channel: under an id that
leads to the entry of the channel, for each of its messages. -/
def OutboundOwned (t : Happening X σ) : Prop :=
  ∀ batch c senders, t.act = .protocol (.outbound batch) → t.pre.senders = c :: senders →
    SendsAs c { t.pre.protocol with outbound_rx := t.pre.protocol.outbound_rx.tail } batch

/-! ## The condition -/

def has_close (batch : List (ChannelMessage X)) : Prop := ∃ msg ∈ batch, ∃ x, msg.message = .Close x

/-- The messages of a batch name the id of the channel, and nothing follows a `Close`. What
`Channel` queues is of this kind if the application sends no `Close` by itself. -/
def OwnBatch (c : Channel) : List (ChannelMessage X) → Prop
  | [] => True
  | msg :: msgs => wire_id msg = c.local_id ∧ ((∃ x, msg.message = .Close x) → msgs = []) ∧
    OwnBatch c msgs

/-- The batches that wait, each with its channel, from the two lists of the session. -/
def Session.queued (s : Session X σ) : List (Channel × List (ChannelMessage X)) :=
  s.senders.zip s.protocol.outbound_rx

/-- A batch enters the outbound queue while the entry of its channel is there and no
`Close` of the channel waits; a `Close`, of the application or from the remote,
takes an entry away only when no batch of its channel waits. -/
def Orderly (t : Happening X σ) : Prop :=
  (∀ x, t.act = .enqueue x → Live t.pre.protocol.channels x.channel ∧
    OwnBatch x.channel x.batch ∧
    ∀ q ∈ t.pre.queued, q.1.closed = x.channel.closed → ¬ has_close q.2) ∧
  (∀ d, t.act = .protocol (.command (.Close d)) →
    ∀ q ∈ t.pre.queued, q.1.discovery_key ≠ d) ∧
  ∀ ch x h, t.act = .protocol (.inbound ⟨ch, .Close x⟩) →
    t.pre.protocol.channels.get_remote ch.toNat = some h →
    ∀ q ∈ t.pre.queued, q.1.discovery_key ≠ h.discovery_key

/-! ## Live entries -/

/-- Only a removal ends the life of an entry, and the calls of a step are known. -/
theorem MapChanges.live {P : MapOp → Prop} (h : MapChanges P m m') (hm : m.Wf)
    (hP : ¬ P (.remove c.discovery_key)) (hc : Live m c) : Live m' c := by
  refine (MapChanges.keep (I := fun m => Live m c) ?_ h hm hc).2
  rintro m m' hchange - ⟨e, hd, hcl⟩
  -- attaching or opening an entry keeps its flag
  have hother : ∀ {d e'}, e'.closed = (m.entry d).closed →
      ∃ e₀, Function.update m.channels d (some e') c.discovery_key = some e₀ ∧
        e₀.closed = c.closed := by
    intro d e' he'
    by_cases heq : c.discovery_key = d
    · refine ⟨e', ChannelMap.update_some_iff.mpr (Or.inl ⟨heq, rfl⟩), ?_⟩
      rw [he', ← heq, ChannelMap.entry_of_some hd, hcl]
    · exact ⟨e, ChannelMap.update_some_iff.mpr (Or.inr ⟨heq, hd⟩), hcl⟩
  cases hchange with
  | call hop heff =>
    cases heff with
    | attached_local => exact hother rfl
    | attached_remote => exact hother rfl
    | absent => exact ⟨e, hd, hcl⟩
    | removed =>
      refine ⟨e, ChannelMap.update_none_iff.mpr ⟨?_, hd⟩, hcl⟩
      intro heq
      exact hP (heq ▸ hop)
  | accept hold => exact hother (by rw [ChannelMap.entry_of_some hold])
  | push => exact ⟨e, hd, hcl⟩

/-- The id of a live channel leads to its entry, so that what is sent under it is about this
channel. -/
theorem Backed.get_local (hc : Backed m c) (hlive : Live m c) :
    m.local_id.slot c.local_id = some c.discovery_key ∧
      ∃ h, m.channels c.discovery_key = some h ∧
        m.get_local (UInt64.ofNat c.local_id).toNat = some h := by
  obtain ⟨h, hd, hcl⟩ := hlive
  have hslot := hc.slot h hd hcl
  have hid : (UInt64.ofNat c.local_id).toNat = c.local_id :=
    UInt64.toNat_ofNat_of_lt' (Nat.lt_of_lt_of_le (Vec.lt_len_of_slot hslot)
      (Nat.le_trans m.local_id.len_le (by decide)))
  refine ⟨hslot, h, hd, ?_⟩
  rw [ChannelMap.get_local, ChannelMap.resolve, hid, hslot, Option.bind_some, hd]

omit [CipherTrait σ] in
/-- One message of a live channel: the map stays, or it is a `Close` and takes the
channel's own entry away. -/
theorem OutboundEffect.own {msg : ChannelMessage X} {keep : Bool} (hm : p.channels.Wf)
    (heff : Protocol.OutboundEffect p msg keep p') (hc : Backed p.channels c)
    (hlive : Live p.channels c) (hch : msg.channel = UInt64.ofNat c.local_id) :
    p'.channels = p.channels ∨ ((∃ x, msg.message = .Close x) ∧
      MapEffect p.channels (.remove c.discovery_key) p'.channels) := by
  obtain ⟨hslot, h, hd, hget⟩ := hc.get_local hlive
  cases heff with
  | close_unknown => exact Or.inl rfl
  | closed hl hd' hmap =>
    rename_i ch x h' m
    obtain rfl : h = h' := by
      rw [show ch = UInt64.ofNat c.local_id from hch, hget] at hl
      exact Option.some.inj hl
    rw [(hm.fits hd).keyed] at hmap
    exact Or.inr ⟨⟨x, rfl⟩, hmap⟩
  | signalled => exact Or.inl rfl
  | passed => exact Or.inl rfl

/-- A removal leaves the entries of other keys, and with them the channels of those keys. -/
theorem removed_others {d d' : DiscoveryKey} (h : MapEffect m (.remove d) m') (hne : d' ≠ d) :
    m'.channels d' = m.channels d' := by
  cases h with
  | absent => rfl
  | removed => exact Function.update_of_ne hne _ _

omit [CipherTrait σ] in
/-- An own batch of a live channel is sent as of the channel, message by message: only its last
one can end the entry. -/
theorem sends_as {batch : List (ChannelMessage X)} (hm : p.channels.Wf)
    (hc : Backed p.channels c) (hlive : Live p.channels c) (hown : OwnBatch c batch)
    (hch : ∀ msg ∈ batch, msg.channel = UInt64.ofNat c.local_id) : SendsAs c p batch := by
  induction batch generalizing p with
  | nil => trivial
  | cons msg msgs ih =>
    obtain ⟨hwire, hlast, hown⟩ := hown
    obtain ⟨keep, p', heff, hrun⟩ := Protocol.on_outbound_message_spec hm msg
    refine ⟨keep, p', hrun, fun _ => ⟨hlive, ?_⟩, ?_⟩
    · rw [hwire]
      exact (hc.get_local hlive).1
    · rcases OutboundEffect.own hm heff hc hlive (hch msg List.mem_cons_self) with heq | ⟨hcl, hmap⟩
      · refine ⟨fun d _ => by rw [heq], ?_⟩
        exact ih (heq ▸ hm) (heq ▸ hc) (heq ▸ hlive) hown
          fun m hmem => hch m (List.mem_cons_of_mem _ hmem)
      · refine ⟨fun d hne => removed_others hmap hne, ?_⟩
        rw [hlast hcl]
        trivial

omit [CipherTrait σ] in
/-- What an own batch leaves: the map, or, if it had a `Close`, the map without the
entry of its channel. -/
theorem own_batch_leaves {batch kept : List (ChannelMessage X)} (hm : p.channels.Wf)
    (heff : Protocol.BatchEffect p batch kept p') (hc : Backed p.channels c)
    (hlive : Live p.channels c) (hown : OwnBatch c batch)
    (hch : ∀ msg ∈ batch, msg.channel = UInt64.ofNat c.local_id) :
    p'.channels = p.channels ∨
      (has_close batch ∧ MapEffect p.channels (.remove c.discovery_key) p'.channels) := by
  induction heff with
  | nil p => exact Or.inl rfl
  | cons head tail ih =>
    obtain ⟨-, hlast, hown⟩ := hown
    rcases OutboundEffect.own hm head hc hlive (hch _ List.mem_cons_self) with heq | ⟨hcl, hmap⟩
    · rcases ih (heq ▸ hm) (heq ▸ hc) (heq ▸ hlive) hown
        (fun m hmem => hch m (List.mem_cons_of_mem _ hmem)) with heq' | ⟨⟨msg, hmem, hcl⟩, hmap⟩
      · exact Or.inl (heq'.trans heq)
      · rw [heq] at hmap
        exact Or.inr ⟨⟨msg, List.mem_cons_of_mem _ hmem, hcl⟩, hmap⟩
    · rw [hlast hcl] at tail
      cases tail
      exact Or.inr ⟨⟨_, List.mem_cons_self, hcl⟩, hmap⟩

/-! ## The invariant -/

/-- What waits to be sent: it carries the id of its channel, whose entry is there, and
no batch of a channel waits behind a `Close` of it. -/
structure OrderlyQueue (s : Session X σ) : Prop where
  sending : ∀ x ∈ s.sending, ∀ msg ∈ x.batch, msg.channel = UInt64.ofNat x.channel.local_id
  live : ∀ q ∈ s.queued, Live s.protocol.channels q.1
  own : ∀ q ∈ s.queued, OwnBatch q.1 q.2 ∧ ∀ msg ∈ q.2, msg.channel = UInt64.ofNat q.1.local_id
  closes : s.queued.Pairwise fun q q' => q.1.closed = q'.1.closed → ¬ has_close q.2

theorem orderly_queue_new (stream : σ) : OrderlyQueue (Session.new stream : Session X σ) where
  sending _ hx := absurd hx List.not_mem_nil
  live _ hq := absurd hq List.not_mem_nil
  own _ hq := absurd hq List.not_mem_nil
  closes := List.Pairwise.nil

omit [CipherTrait σ] in
/-- A session in which the entries and the queue are the same is orderly too, whatever else has
changed. -/
theorem OrderlyQueue.mono (ho : OrderlyQueue s)
    (hsending : ∀ x ∈ s'.sending, ∀ msg ∈ x.batch, msg.channel = UInt64.ofNat x.channel.local_id)
    (hentries : s'.protocol.channels.channels = s.protocol.channels.channels)
    (hqueued : s'.queued = s.queued) : OrderlyQueue s' where
  sending := hsending
  live q hq := by
    obtain ⟨h, hd, hcl⟩ := ho.live q (hqueued ▸ hq)
    exact ⟨h, by rw [hentries]; exact hd, hcl⟩
  own q hq := ho.own q (hqueued ▸ hq)
  closes := hqueued ▸ ho.closes

theorem batch_of_channel {messages : List (Message X)} {msg : ChannelMessage X}
    (h : msg ∈ batch_of c messages) : msg.channel = UInt64.ofNat c.local_id := by
  obtain ⟨message, -, rfl⟩ := List.mem_map.mp h
  rfl

omit [CipherTrait σ] in
theorem OrderlyQueue.sending_snoc (ho : OrderlyQueue s) {messages : List (Message X)}
    {closing : Bool} :
    ∀ x ∈ s.sending ++ [⟨c, batch_of c messages, closing⟩], ∀ msg ∈ x.batch,
      msg.channel = UInt64.ofNat x.channel.local_id := by
  intro x hx msg hmsg
  rcases List.mem_append.mp hx with hx | hx
  · exact ho.sending x hx msg hmsg
  · obtain rfl := List.mem_singleton.mp hx
    exact batch_of_channel hmsg

omit [CipherTrait σ] in
/-- Some of what was sending. -/
theorem OrderlyQueue.sending_less (ho : OrderlyQueue s) {l r : List (Sending X)} {x : Sending X}
    (hs : s.sending = l ++ x :: r) :
    ∀ y ∈ l ++ r, ∀ msg ∈ y.batch, msg.channel = UInt64.ofNat y.channel.local_id := by
  intro y hy
  refine ho.sending y ?_
  rw [hs]
  exact ((List.sublist_cons_self _ r).append_left l).subset hy

omit [CipherTrait σ] in
theorem mem_queued_senders {q : Channel × List (ChannelMessage X)} (hq : q ∈ s.queued) :
    q.1 ∈ s.senders := (List.of_mem_zip hq).1

/-- A move that takes no batch is no harm if it removes no entry that a batch waits for. -/
theorem OrderlyQueue.move (ho : OrderlyQueue s) (hs : Inv s) {move : Move X}
    (h : protocol_step s.protocol move p) (hno : ∀ batch, move ≠ .outbound batch)
    (hremove : ∀ q ∈ s.queued, ¬ move.calls s.protocol.channels (.remove q.1.discovery_key)) :
    OrderlyQueue (s.after move p) := by
  have hqueued : (s.after move p).queued = s.queued := by
    rcases protocol_step_outbound_rx hs.wf h with ⟨batch, rfl, -⟩ | ⟨-, hrx⟩
    · exact absurd rfl (hno batch)
    · rw [Session.queued, Session.queued, Session.protocol_after, hrx]
      cases move with
      | outbound batch => exact absurd rfl (hno batch)
      | event e => cases e <;> rfl
      | _ => rfl
  have hsending : (s.after move p).sending = s.sending := by
    cases move with
    | event e => cases e <;> rfl
    | _ => rfl
  refine ⟨hsending ▸ ho.sending, fun q hq => ?_, fun q hq => ho.own q (hqueued ▸ hq),
    hqueued ▸ ho.closes⟩
  rw [hqueued] at hq
  rw [Session.protocol_after]
  exact (protocol_step_changes hs.wf h).live hs.wf (hremove q hq) (ho.live q hq)

/-- Taking a batch: a `Close` in it ends its own channel, and no other batch of that channel
waits. -/
theorem OrderlyQueue.outbound (ho : OrderlyQueue s) (hs : Inv s)
    {batch : List (ChannelMessage X)} (h : protocol_step s.protocol (.outbound batch) p) :
    OrderlyQueue (s.after (.outbound batch) p) := by
  obtain ⟨rest, kept, q, hrx, heff, hp⟩ := outbound_effect hs.wf h
  have hrest : p.outbound_rx = rest := by rw [hp]; exact heff.frame.outbound_rx
  have hmap : p.channels = q.channels := by rw [hp]
  cases hsenders : s.senders with
  -- every batch of the queue has a sender on record
  | nil =>
    have hlen := hs.senders
    rw [hsenders, hrx] at hlen
    exact nomatch hlen
  | cons c senders =>
    have hqueued : s.queued = (c, batch) :: senders.zip rest := by
      rw [Session.queued, hsenders, hrx, List.zip_cons_cons]
    have hafter : (s.after (.outbound batch) p).queued = senders.zip rest := by
      show s.senders.tail.zip p.outbound_rx = _
      rw [hsenders, hrest, List.tail_cons]
    have hhead : (c, batch) ∈ s.queued := hqueued ▸ List.mem_cons_self
    have hclive := ho.live _ hhead
    obtain ⟨hown, hch⟩ := ho.own _ hhead
    have hbacked : Backed s.protocol.channels c :=
      hs.backed c (Or.inr (Or.inr (Or.inr (Or.inr (mem_queued_senders hhead)))))
    have hcloses := ho.closes
    rw [hqueued, List.pairwise_cons] at hcloses
    refine ⟨ho.sending, fun q' hq' => ?_, fun q' hq' => ?_, ?_⟩
    · rw [hafter] at hq'
      have hlive := ho.live q' (hqueued ▸ List.mem_cons_of_mem _ hq')
      rw [Session.protocol_after, hmap]
      rcases own_batch_leaves (p := { s.protocol with outbound_rx := rest }) hs.wf heff hbacked
        hclive hown hch with heq | ⟨hcl, hremoved⟩
      · exact heq ▸ hlive
      · -- the channel is another one, so its entry is another one
        obtain ⟨e, hd, hcl'⟩ := hlive
        refine ⟨e, ?_, hcl'⟩
        rw [← hd]
        refine removed_others hremoved fun heq => hcloses.1 q' hq' ?_ hcl
        obtain ⟨e₀, hd₀, hcl₀⟩ := hclive
        rw [heq, hd₀] at hd
        rw [← hcl', ← Option.some.inj hd, hcl₀]
    · rw [hafter] at hq'
      exact ho.own q' (hqueued ▸ List.mem_cons_of_mem _ hq')
    · rw [hafter]
      exact hcloses.2

/-- Every orderly step keeps the invariant. What is not orderly is a batch queued behind a
`Close`, and a `Close` that overtakes batches. -/
theorem OrderlyQueue.step (ho : OrderlyQueue s) (hs : Inv s) (h : Step s a s')
    (hord : Orderly (⟨s, a, s'⟩ : Happening X σ)) : OrderlyQueue s' := by
  obtain ⟨henq, hcommand, hinbound⟩ := hord
  cases h with
  | protocol h =>
    rename_i move p
    cases move with
    | outbound batch => exact ho.outbound hs h
    | command cmd =>
      refine ho.move hs h (fun _ h => nomatch h) fun q hq hcall => ?_
      cases cmd with
      | Open key => exact nomatch hcall
      | Close d => exact hcommand d rfl q hq (MapOp.remove.inj hcall)
      | SignalLocal => exact hcall
    -- only a `Close` removes an entry, and an orderly run has none for a queued channel
    | inbound msg =>
      refine ho.move hs h (fun _ h => nomatch h) fun q hq hcall => ?_
      obtain ⟨ch, message⟩ := msg
      rcases hcall with ⟨o, d, -, -, hop⟩ | ⟨x, e, hmsg, hget, hop⟩
      · exact nomatch hop
      · exact hinbound ch x e (by rw [← hmsg]) hget q hq (MapOp.remove.inj hop)
    | io => exact ho.move hs h (fun _ h => nomatch h) fun _ _ hcall => hcall
    | handshake key => exact ho.move hs h (fun _ h => nomatch h) fun _ _ hcall => hcall
    | event e => exact ho.move hs h (fun _ h => nomatch h) fun _ _ hcall => hcall
  | queue_command c hroom => exact ho.mono ho.sending rfl rfl
  | send messages hc hopen => exact ho.mono ho.sending_snoc rfl rfl
  | close hc hopen => exact ho.mono ho.sending_snoc rfl rfl
  | enqueue hl hroom =>
    rename_i l r x
    obtain ⟨hlive, hown, hcloses⟩ := henq x rfl
    -- the new batch is the last one; the step being orderly says what it must satisfy
    have hqueued : Session.queued { s with
          sending := l ++ r
          closing := if x.closing then s.closing ++ [x.channel] else s.closing
          senders := s.senders ++ [x.channel]
          protocol := { s.protocol with outbound_rx := s.protocol.outbound_rx ++ [x.batch] } }
        = s.queued ++ [(x.channel, x.batch)] := List.zip_append hs.senders
    refine ⟨ho.sending_less hl, fun q hq => ?_, fun q hq => ?_, ?_⟩
    · rw [hqueued] at hq
      rcases List.mem_append.mp hq with hq | hq
      · exact ho.live q hq
      · exact List.mem_singleton.mp hq ▸ hlive
    · rw [hqueued] at hq
      rcases List.mem_append.mp hq with hq | hq
      · exact ho.own q hq
      · rw [List.mem_singleton.mp hq]
        exact ⟨hown, ho.sending x (hl ▸ List.mem_append_right _ List.mem_cons_self)⟩
    · rw [hqueued, List.pairwise_append]
      refine ⟨ho.closes, List.pairwise_singleton _ _, fun q hq q' hq' => ?_⟩
      rw [List.mem_singleton.mp hq']
      exact hcloses q hq
  | abandon hl => exact ho.mono (ho.sending_less hl) rfl rfl
  | store_closed hl => exact ho.mono ho.sending rfl rfl
  | receive hc hn hread => exact ho.mono ho.sending rfl rfl
  | drop_receiver hc hn => exact ho.mono ho.sending rfl rfl
  | local_send msg hc => exact ho.mono ho.sending rfl rfl

/-- In every run of orderly steps, whatever is taken from the outbound queue is sent
as of the channel it was sent through. -/
theorem outbound_owned {stream : σ} {tr : List (Happening X σ)}
    (run : Run Step (Session.new stream) tr s) (hord : ∀ t ∈ tr, Orderly t) :
    ∀ t ∈ tr, OutboundOwned t := by
  have halways : Always (fun _ t => OutboundOwned t) tr := by
    refine run.always_if (I := fun _ s => OrderlyQueue s) (orderly_queue_new stream)
      (fun _ _ _ _ run ho h hord => ho.step (reachable_inv run) h hord) ?_ hord
    rintro tr s a s' run ho h - batch c senders ha hsenders
    have hs := reachable_inv run
    rcases h.move_or_aside with ⟨move, hact, hmove⟩ | ⟨hno, -⟩
    · obtain rfl := Action.protocol.inj (ha.symm.trans hact)
      obtain ⟨rest, kept, q, hrx, -⟩ := outbound_effect hs.wf hmove
      have hhead : (c, batch) ∈ s.queued := by
        rw [Session.queued, show s.senders = c :: senders from hsenders, hrx, List.zip_cons_cons]
        exact List.mem_cons_self
      obtain ⟨hown, hch⟩ := ho.own _ hhead
      exact sends_as hs.wf
        (hs.backed c (Or.inr (Or.inr (Or.inr (Or.inr (mem_queued_senders hhead))))))
        (ho.live _ hhead) hown hch
    · exact absurd ha (hno _)
  intro t ht
  obtain ⟨l, r, htr⟩ := List.append_of_mem ht
  exact halways l t r htr

omit [CipherTrait σ] in
/-- Steps that neither queue a batch nor handle a `Close` are orderly, whatever they do. -/
theorem orderly_of_act {t : Happening X σ} (henq : ∀ x, t.act ≠ .enqueue x)
    (hcommand : ∀ d, t.act ≠ .protocol (.command (.Close d)))
    (hinbound : ∀ ch x, t.act ≠ .protocol (.inbound ⟨ch, .Close x⟩)) : Orderly t :=
  ⟨fun x ha => absurd ha (henq x), fun d ha => absurd ha (hcommand d),
    fun ch x _ ha => absurd ha (hinbound ch x)⟩

/-- A message of a channel that stays open. -/
theorem outbound_owned_cancel :
    ∃ tr t s, Run Step (Session.new (Memory.connected false) : Session deps Memory)
        (tr ++ [t]) s ∧ t.act = .protocol (.outbound [⟨1, .Cancel ⟨7⟩⟩]) ∧
      t.pre.senders = [first_channel] ∧ OutboundOwned t := by
  obtain ⟨tr, run₀, hacts⟩ := established_reachable
  have run₁ := run₀.snoc (a := .send first_channel [.Cancel ⟨7⟩])
    (.send [.Cancel ⟨7⟩] (List.mem_singleton.mpr rfl) rfl)
  have run₂ := run₁.snoc (.enqueue (l := []) rfl (by decide))
  have run₃ := run₂.snoc (a := .protocol (.outbound [⟨1, .Cancel ⟨7⟩⟩]))
    (.protocol (.outbound rfl (Or.inl ⟨(), rfl⟩)))
  refine ⟨_, _, _, run₃, rfl, rfl, outbound_owned run₃ (fun t ht => ?_) _
    (List.mem_append_right _ (List.mem_singleton.mpr rfl))⟩
  simp only [List.append_assoc, List.cons_append, List.nil_append, List.mem_append,
    List.mem_cons, List.not_mem_nil, or_false] at ht
  rcases ht with ht | rfl | rfl | rfl
  · have hact := List.mem_map_of_mem (f := Transition.act) ht
    rw [hacts] at hact
    simp only [establishing, List.mem_cons, List.not_mem_nil, or_false] at hact
    rcases hact with h | h | h | h <;>
      exact orderly_of_act (fun _ hx => nomatch h.symm.trans hx)
        (fun _ hx => nomatch h.symm.trans hx) (fun _ _ hx => nomatch h.symm.trans hx)
  · exact orderly_of_act (fun _ h => nomatch h) (fun _ h => nomatch h) (fun _ _ h => nomatch h)
  · refine ⟨fun x hx => ?_, (fun _ h => nomatch h), (fun _ _ _ h => nomatch h)⟩
    obtain rfl := Action.enqueue.inj hx
    exact ⟨⟨_, rfl, rfl⟩, ⟨rfl, (fun ⟨_, h⟩ => nomatch h), trivial⟩,
      fun _ hq => absurd hq List.not_mem_nil⟩
  · exact orderly_of_act (fun _ h => nomatch h) (fun _ h => nomatch h) (fun _ _ h => nomatch h)

/-- A message waits while the remote closes its channel and the application opens
another key. The id is taken again, and the message leaves under it. -/
theorem outbound_misdirected :
    ∃ tr t s, Run Step (Session.new (Memory.connected false) : Session deps Memory)
        (tr ++ [t]) s ∧ ¬ OutboundOwned t ∧
      t.pre.senders = [first_channel] ∧
      t.pre.protocol.channels.local_id.slot 1 = some (discovery_key_of deps (sample 2)) ∧
      t.post.protocol.io.write_queue.getLast? = some ⟨1, .Cancel ⟨7⟩⟩ := by
  obtain ⟨tr₀, run₀, -⟩ := established_reachable
  have run₁ := run₀.snoc (a := .send first_channel [.Cancel ⟨7⟩])
    (.send [.Cancel ⟨7⟩] (List.mem_singleton.mpr rfl) rfl)
  have run₂ := run₁.snoc (.enqueue (l := []) rfl (by decide))
  have run₃ := run₂.snoc (a := .protocol (.inbound ⟨1, .Close ⟨1⟩⟩))
    (.protocol (.inbound (Or.inl ⟨(), rfl⟩)))
  have run₄ := run₃.snoc (.queue_command (.Open (sample 2)) (by decide))
  have run₅ := run₄.snoc (.protocol (.command rfl (Or.inl ⟨(), rfl⟩)))
  -- what matters of this state
  obtain ⟨tr, s, run, hsenders, hrx, hgone, hslot⟩ :
      ∃ tr s, Run Step (Session.new (Memory.connected false) : Session deps Memory) tr s ∧
        s.senders = [first_channel] ∧ s.protocol.outbound_rx = [[⟨1, .Cancel ⟨7⟩⟩]] ∧
        s.protocol.channels.channels first_channel.discovery_key = none ∧
        s.protocol.channels.local_id.slot 1 = some (discovery_key_of deps (sample 2)) :=
    ⟨_, _, run₅, rfl, rfl, rfl, rfl⟩
  refine ⟨_, _, _, run.snoc (.protocol (.outbound hrx (Or.inl ⟨(), rfl⟩))), fun howned => ?_,
    hsenders, hslot, List.getLast?_concat⟩
  obtain ⟨keep, p', hrun, hkept, -⟩ := howned _ first_channel [] rfl hsenders
  obtain ⟨⟨e, hd, -⟩, -⟩ := hkept (by injection hrun with hkeep; exact hkeep.symm)
  exact nomatch hgone.symm.trans hd

end hypercore_protocol.session
