/-
What two peers say to each other about a key stays with that key.

The wire has ids, not keys, and both sides give an id again as soon as its channel is
closed. A message that is still on the way when its channel is closed and the id goes
to another key would then end up in the wrong queue, if the two sides could disagree
about an id for long enough. They cannot: `letters_reach` follows every message from
the call that caused it to the entry it is handled for, over any run of `PeerStep`, and
the entry is the one of the key that was meant, or there is none, and then the receiver
has closed this key itself.

This is about what is on the wire. A `PeerStep` opens only keys without local state, it
has no `Command::Close`, and it takes what a send or a close queues out of the outbound
queue in the same step. A message that waits in the outbound queue while its channel is
closed and another key is opened is outside of these runs, and there nothing of the kind
holds: it leaves under the id of the other key (`Outbound`). A `Command::Close` is not
told to the remote at all (`Closing`).

The argument is `Routed` of `Lib/Link`; here the messages get their keys (`posts`),
and the table lookup of the receiver is shown to be what `Understands` talks about
(`Side.addressee`). The second result, `connected_iff_asked`, reads off the same
invariant when a key is connected once everything has arrived.
-/
import HypercoreProtocol.Peers

set_option autoImplicit false

namespace hypercore_protocol.session

open Rust Wire Runs Link schema message channels mqueue protocol crypto compact_encoding

variable {X : Deps} {σ : Type} [CipherTrait σ] {p p' q : Protocol X σ} {d : DiscoveryKey}
  {keys : Set Key} {hash : Vec UInt8} {s s' : Peers X σ} {i : Bool}

/-! ## Messages with their keys -/

/-- A message and the key it was written for. The key need not be in the message: it is what the
sender means by the channel id. -/
abbrev Letter (X : Deps) := DiscoveryKey × ChannelMessage X

/-- What a step makes side `i` write, with the key it is about. For an `Open` this is read off
the write queue. Of what is sent it is the data, as local signals are not written. -/
def posts (i : Bool) (t : Transition (Peers X σ) (PeerAction X)) : List (Letter X) :=
  match t.act with
  | .opens j key =>
    if j = i then
      ((t.post i).io.write_queue.drop (t.pre i).io.write_queue.length).map
        (Prod.mk (discovery_key_of X key))
    else []
  | .sends j c msgs =>
    if j = i then
      (on_channel c.local_id (msgs.filter Message.is_data)).map (Prod.mk c.discovery_key)
    else []
  | .closes j c =>
    if j = i then (batch_of c [close_of c]).map (Prod.mk c.discovery_key) else []
  | .delivers _ => []

/-- The key of the entry that a message is handled for: the one an `Open` names, and otherwise
the one the channel id leads to at the receiver. -/
def addressee (m : ChannelMap X) (msg : ChannelMessage X) : Option DiscoveryKey :=
  match msg.message with
  | .Open o => (parse_key o.discovery_key).toOption
  | _ => (m.get_remote msg.channel.toNat).map ChannelHandle.discovery_key

/-- What a step makes side `i` handle, with the key it is handled for. Only deliveries make a
side handle anything. -/
def arrives (i : Bool) (t : Transition (Peers X σ) (PeerAction X)) :
    List (Option DiscoveryKey × ChannelMessage X) :=
  match t.act with
  | .delivers j =>
    if j = i then
      ((t.pre !i).io.write_queue.take 1).map fun msg => (addressee (t.pre i).channels msg, msg)
    else []
  | _ => []

def posted (i : Bool) (tr : List (Transition (Peers X σ) (PeerAction X))) : List (Letter X) :=
  tr.flatMap (posts i)

def collected (i : Bool) (tr : List (Transition (Peers X σ) (PeerAction X))) :
    List (Option DiscoveryKey × ChannelMessage X) :=
  tr.flatMap (arrives i)

/-- The keys whose channel side `i` has closed at some time. It may have asked for them again
since. -/
def closed_by (i : Bool) (tr : List (Transition (Peers X σ) (PeerAction X))) : Set DiscoveryKey :=
  {d | ∃ t ∈ tr, ∃ c, t.act = .closes i c ∧ c.discovery_key = d}

/-- The message was handled for the key it was written for, or for none, the receiver having
closed this key. -/
def Reaches (closed : Set DiscoveryKey) (l : Letter X)
    (h : Option DiscoveryKey × ChannelMessage X) : Prop :=
  h.2 = l.2 ∧ (h.1 = some l.1 ∨ h.1 = none ∧ l.1 ∈ closed)

theorem Reaches.mono {A B : Set DiscoveryKey} {l : Letter X}
    {h : Option DiscoveryKey × ChannelMessage X} (hl : Reaches A l h) (hAB : A ⊆ B) :
    Reaches B l h :=
  ⟨hl.1, hl.2.imp_right fun hnone => ⟨hnone.1, hAB hnone.2⟩⟩

variable {tr : List (Transition (Peers X σ) (PeerAction X))}
  {t : Transition (Peers X σ) (PeerAction X)}

omit [CipherTrait σ] in
theorem posted_snoc : posted i (tr ++ [t]) = posted i tr ++ posts i t := by
  rw [posted, posted, List.flatMap_append, List.flatMap_singleton]

omit [CipherTrait σ] in
theorem collected_snoc : collected i (tr ++ [t]) = collected i tr ++ arrives i t := by
  rw [collected, collected, List.flatMap_append, List.flatMap_singleton]

omit [CipherTrait σ] in
theorem closed_by_subset : closed_by i tr ⊆ closed_by i (tr ++ [t]) := by
  rintro d ⟨u, hu, hc⟩
  exact ⟨u, List.mem_append_left _ hu, hc⟩

/-! ## The lookup of the receiver -/

/-- A message that is understood is handled for its key. `Understands` is the library's word for
it; here it is connected with the lookup in the table of remote ids. -/
theorem Side.addressee (hs : Side keys hash p) {is_initiator : Bool} {msg : ChannelMessage X}
    {x : Signal DiscoveryKey ℕ} {A : Set DiscoveryKey}
    (hmsg : Carries X is_initiator hash keys msg x)
    (hx : (party p.channels).Understands A d x) :
    Reaches A (d, msg) (addressee p.channels msg, msg) := by
  refine ⟨rfl, ?_⟩
  -- the id of a message that is no `Open` leads to the key that was meant, or nowhere
  have hlookup : ∀ {n : ℕ}, (∀ d', (party p.channels).theirs d' = some n → d' = d) ∧
      ((party p.channels).theirs d = some n ∨ d ∈ A) →
      (p.channels.get_remote n).map ChannelHandle.discovery_key = some d ∨
        (p.channels.get_remote n).map ChannelHandle.discovery_key = none ∧ d ∈ A := by
    rintro n ⟨hall, hd⟩
    cases hr : p.channels.get_remote n with
    | some h =>
      rw [Option.map_some, hall _ (hs.get_remote hr).1]
      exact Or.inl rfl
    | none => exact Or.inr ⟨rfl, hd.resolve_left (hs.get_remote_none hr d)⟩
  cases hmsg with
  | opened =>
    refine Or.inl ?_
    rw [session.addressee, open_message]
    dsimp only
    rw [Protocol.parse_key_of_eq rfl]
    exact congrArg some hx
  | closed hi =>
    rw [session.addressee]
    dsimp only
    rw [toNat_ofNat_id hi]
    exact hlookup hx
  | @data n msg hi hmsg =>
    have haddr : session.addressee p.channels ⟨UInt64.ofNat n, msg⟩
        = (p.channels.get_remote n).map ChannelHandle.discovery_key := by
      rw [session.addressee]
      dsimp only
      cases msg with
      | Open => cases hmsg
      | _ => rw [toNat_ofNat_id hi]
    rw [haddr]
    exact hlookup hx

/-! ## What the two have said and not heard yet -/

/-- The message stands for a signal, and the key is the same. So what the library proves of
signals is known of messages. -/
def Stands (X : Deps) (is_initiator : Bool) (hash : Vec UInt8) (keys : Set Key) (l : Letter X)
    (x : DiscoveryKey × Signal DiscoveryKey ℕ) : Prop :=
  l.1 = x.1 ∧ Carries X is_initiator hash keys l.2 x.2

/-- The messages between the two stand for signals with the same keys, and these are `Routed` in
the sense of the library. -/
def Posted (keys : Set Key) (hash : Vec UInt8) (p q : Protocol X σ) (out inn : List (Letter X))
    (A B : Set DiscoveryKey) : Prop :=
  ∃ pq qp, List.Forall₂ (Stands X p.is_initiator hash keys) out pq ∧
    List.Forall₂ (Stands X q.is_initiator hash keys) inn qp ∧
    Routed (party p.channels) (party q.channels) pq qp A B

omit [CipherTrait σ] in
theorem Posted.symm {out inn : List (Letter X)} {A B : Set DiscoveryKey}
    (h : Posted keys hash p q out inn A B) : Posted keys hash q p inn out B A := by
  obtain ⟨pq, qp, hpq, hqp, hrouted⟩ := h
  exact ⟨qp, pq, hqp, hpq, hrouted.symm⟩

/-- All that side `i` has posted so far is on its way or has reached its key. -/
def Accounted (i : Bool) (tr : List (Transition (Peers X σ) (PeerAction X)))
    (left : List (Letter X)) : Prop :=
  ∃ taken, posted i tr = taken ++ left ∧
    List.Forall₂ (Reaches (closed_by (!i) tr)) taken (collected (!i) tr)

/-- The state of the two links, seen from side `i`: `out` and `inn` are on the way. -/
structure Tracked (keys : Set Key) (hash : Vec UInt8)
    (tr : List (Transition (Peers X σ) (PeerAction X))) (s : Peers X σ) (i : Bool)
    (out inn : List (Letter X)) : Prop where
  write_queue : (s i).io.write_queue = out.map Prod.snd
  other_queue : (s !i).io.write_queue = inn.map Prod.snd
  accounted : Accounted i tr out
  other_accounted : Accounted (!i) tr inn
  posted : Posted keys hash (s i) (s !i) out inn (closed_by i tr) (closed_by (!i) tr)

variable {out inn new : List (Letter X)}

omit [CipherTrait σ] in
theorem Tracked.symm (h : Tracked keys hash tr s i out inn) :
    Tracked keys hash tr s (!i) inn out := by
  refine ⟨h.other_queue, ?_, h.other_accounted, ?_, ?_⟩
  all_goals rw [Bool.not_not]
  · exact h.write_queue
  · exact h.accounted
  · exact h.posted.symm

/-- The state of the links, from whichever side. This is the invariant; `Tracked` names the
messages on the way for a proof. -/
def Tracks (keys : Set Key) (hash : Vec UInt8)
    (tr : List (Transition (Peers X σ) (PeerAction X))) (s : Peers X σ) : Prop :=
  ∀ i, ∃ out inn, Tracked keys hash tr s i out inn

omit [CipherTrait σ] in
theorem Tracked.tracks (h : Tracked keys hash tr s i out inn) : Tracks keys hash tr s := by
  intro j
  by_cases hj : j = i
  · exact ⟨out, inn, hj ▸ h⟩
  · exact ⟨inn, out, Bool.eq_not_of_ne hj ▸ h.symm⟩

omit [CipherTrait σ] in
theorem Accounted.posts (h : Accounted i tr out) (hnew : posts i t = new)
    (harrives : arrives (!i) t = []) : Accounted i (tr ++ [t]) (out ++ new) := by
  obtain ⟨taken, hposted, htaken⟩ := h
  refine ⟨taken, ?_, ?_⟩
  · rw [posted_snoc, hposted, hnew, List.append_assoc]
  · rw [collected_snoc, harrives, List.append_nil]
    exact htaken.imp fun _ _ hl => hl.mono closed_by_subset

omit [CipherTrait σ] in
theorem Accounted.arrives {l : Letter X} {a : Option DiscoveryKey} (h : Accounted i tr (l :: out))
    (hposts : session.posts i t = []) (harrives : session.arrives (!i) t = [(a, l.2)])
    (hreaches : Reaches (closed_by (!i) tr) l (a, l.2)) : Accounted i (tr ++ [t]) out := by
  obtain ⟨taken, hposted, htaken⟩ := h
  refine ⟨taken ++ [l], ?_, ?_⟩
  · rw [posted_snoc, hposted, hposts, List.append_nil, List.append_assoc, List.singleton_append]
  · rw [collected_snoc, harrives]
    exact List.rel_append (htaken.imp fun _ _ hl => hl.mono closed_by_subset)
      (.cons (hreaches.mono closed_by_subset) .nil)

omit [CipherTrait σ] in
/-- One side has done something and posted the other something about it. Nothing arrives in this
step, so the messages of the other side are where they were. -/
theorem Tracked.local_step (h : Tracked keys hash tr s i out inn)
    (ht : t.pre = s ∧ t.post = Function.update s i p) (hnew : posts i t = new)
    (hother : posts (!i) t = []) (harrives : ∀ j, arrives j t = [])
    (hqueue : p.io.write_queue = (s i).io.write_queue ++ new.map Prod.snd)
    (hposted : Posted keys hash p (s !i) (out ++ new) inn (closed_by i (tr ++ [t]))
      (closed_by (!i) (tr ++ [t]))) :
    Tracked keys hash (tr ++ [t]) t.post i (out ++ new) inn := by
  obtain ⟨rfl, hpost⟩ := ht
  have hself : t.post i = p := by rw [hpost, Function.update_self]
  have hsame : t.post (!i) = t.pre !i := by
    rw [hpost, Function.update_of_ne (Bool.not_ne_self i)]
  refine ⟨?_, ?_, h.accounted.posts hnew (harrives _), ?_, ?_⟩
  · rw [hself, hqueue, h.write_queue, List.map_append]
  · rw [hsame, h.other_queue]
  · have hacc := h.other_accounted.posts hother (harrives _)
    rwa [List.append_nil] at hacc
  · rw [hself, hsame]
    exact hposted

/-! ## The steps -/

theorem mine_of_unattached {m : ChannelMap X}
    (hnone : ∀ h, m.channels d = some h → h.local_state = none) : (party m).mine d = none := by
  rw [← entry_local_id]
  rcases entry_cases m d with hd | ⟨hl, -, -⟩
  · rw [ChannelHandle.local_id, hnone _ hd, Option.map_none]
  · rw [ChannelHandle.local_id, hl, Option.map_none]

theorem Tracked.opens (hs : Joined keys hash s) (hinj : Set.InjOn (discovery_key_of X) keys)
    (h : Tracked keys hash tr s i out inn) {key : Key} (hkey : key ∈ keys)
    (hnone : ∀ h, (s i).channels.channels (discovery_key_of X key) = some h → h.local_state = none)
    (hleaves : Method.Leaves (Protocol.on_command (.Open key)) (s i) p) :
    ∃ new, Tracked keys hash (tr ++ [⟨s, .opens i key, Function.update s i p⟩])
      (Function.update s i p) i (out ++ new) inn := by
  have hmine := mine_of_unattached hnone
  obtain ⟨l, msg, heff, -, hqueue, hmsg, hparty, hunused⟩ :=
    (hs.side i).opens hinj hkey hmine hleaves
  obtain ⟨pq, qp, hpq, hqp, hrouted⟩ := h.posted
  refine ⟨[(discovery_key_of X key, msg)], h.local_step ⟨rfl, rfl⟩ ?_ ?_ (fun _ => rfl) hqueue
    ⟨pq ++ [(discovery_key_of X key, .opened (discovery_key_of X key) l)], qp, ?_, hqp, ?_⟩⟩
  · simp only [posts, if_true, Function.update_self, hqueue, List.drop_left, List.map_cons,
      List.map_nil]
  · exact if_neg (Bool.not_ne_self i).symm
  · rw [heff.frame.is_initiator]
    exact List.rel_append hpq (.cons ⟨rfl, hmsg⟩ .nil)
  · rw [hparty]
    exact (hrouted.number hmine hunused).mono closed_by_subset closed_by_subset

theorem Tracked.sends (hs : Joined keys hash s) (h : Tracked keys hash tr s i out inn) {c : Channel}
    {msgs : List (Message X)} (hc : Established (s i) c)
    (hmsgs : ∀ msg ∈ msgs, msg.is_open_or_close = false)
    (hleaves : Method.Leaves (Protocol.on_outbound_batch (batch_of c msgs)) (s i) p) :
    ∃ new, Tracked keys hash (tr ++ [⟨s, .sends i c msgs, Function.update s i p⟩])
      (Function.update s i p) i (out ++ new) inn := by
  obtain ⟨-, hrole, hparty, -⟩ := (hs.side i).sends hc hmsgs hleaves
  obtain ⟨hmine, ⟨r, htheirs⟩, hl⟩ := (hs.side i).established hc
  obtain ⟨kept, p', heff, hrun⟩ := Protocol.on_outbound_batch_spec (hs.side i).wf (batch_of c msgs)
  obtain rfl := Method.leaves_of_run_ok hrun hleaves
  obtain ⟨-, rfl⟩ := batch_of_data hmsgs heff
  obtain ⟨pq, qp, hpq, hqp, hrouted⟩ := h.posted
  refine ⟨_, h.local_step ⟨rfl, rfl⟩ (if_pos rfl) (if_neg (Bool.not_ne_self i).symm)
    (fun _ => rfl) ?_ ⟨pq ++ (msgs.filter Message.is_data).map fun _ =>
      (c.discovery_key, .data c.local_id), qp, ?_, hqp, ?_⟩⟩
  · have hsnd : Prod.snd ∘ Prod.mk c.discovery_key = (id : ChannelMessage X → _) := rfl
    rw [List.map_map, hsnd, List.map_id, heff.io]
  · rw [hrole]
    refine List.rel_append hpq ?_
    rw [on_channel, List.map_map, List.forall₂_map_left_iff, List.forall₂_map_right_iff,
      List.forall₂_same]
    exact fun msg hmsg => ⟨rfl, .data hl (hmsgs msg (List.mem_of_mem_filter hmsg))⟩
  · rw [hparty]
    exact (hrouted.sends ((hs.side i).mine_inj hmine) hmine htheirs _).mono closed_by_subset
      closed_by_subset

theorem Tracked.closes (hs : Joined keys hash s) (h : Tracked keys hash tr s i out inn)
    {c : Channel} (hc : Established (s i) c)
    (hleaves : Method.Leaves (Protocol.on_outbound_batch (batch_of c [close_of c])) (s i) p)
    (hpost : s' = Function.update s i
      { p with channels := { p.channels with shared := p.channels.shared.store_true c.closed } }) :
    ∃ new, Tracked keys hash (tr ++ [⟨s, .closes i c, s'⟩]) s' i (out ++ new) inn := by
  obtain ⟨-, hrole, hparty, hqueue⟩ := (hs.side i).closes hc hleaves
  obtain ⟨hmine, ⟨r, htheirs⟩, hl⟩ := (hs.side i).established hc
  obtain ⟨pq, qp, hpq, hqp, hrouted⟩ := h.posted
  refine ⟨_, h.local_step ⟨rfl, hpost⟩ (if_pos rfl) (if_neg (Bool.not_ne_self i).symm)
    (fun _ => rfl) hqueue ⟨pq ++ [(c.discovery_key, .closed c.local_id)], qp, ?_, hqp, ?_⟩⟩
  · show List.Forall₂ (Stands X p.is_initiator hash keys) _ _
    rw [hrole]
    exact List.rel_append hpq (.cons ⟨rfl, .closed hl⟩ .nil)
  · show Routed (party p.channels) _ _ _ _ _
    rw [hparty]
    refine (hrouted.forget ((hs.side i).mine_inj hmine) hmine htheirs).mono ?_ closed_by_subset
    exact Set.insert_subset ⟨_, List.mem_append_right _ (List.mem_singleton.mpr rfl), c, rfl, rfl⟩
      closed_by_subset

/-- The message that is next is handled for the key it was posted for, and the rest of the link
is as before. -/
theorem Tracked.delivers (hs : Joined keys hash s) (hinj : Set.InjOn (discovery_key_of X) keys)
    (h : Tracked keys hash tr s i out inn) {msg : ChannelMessage X}
    {rest : List (ChannelMessage X)} (hq : (s !i).io.write_queue = msg :: rest)
    (hleaves : Method.Leaves (Protocol.on_inbound_message msg) (s i) p)
    (ht : t.pre = s ∧ t.act = .delivers i ∧ t.post i = p ∧
      t.post (!i) = { s !i with io := { (s !i).io with write_queue := rest } }) :
    ∃ inn', Tracked keys hash (tr ++ [t]) t.post i out inn' := by
  obtain ⟨rfl, hact, hself, hother⟩ := ht
  have hinn := h.other_queue.symm.trans hq
  cases inn with
  | nil => exact nomatch hinn
  | cons l inn =>
    rw [List.map_cons, List.cons_eq_cons] at hinn
    obtain ⟨rfl, hrest⟩ := hinn
    obtain ⟨pq, qp, hpq, hqp, hrouted⟩ := h.posted
    cases hqp with
    | @cons _ x _ qp hl hqp =>
      obtain ⟨d, msg⟩ := l
      obtain ⟨d', x⟩ := x
      obtain ⟨rfl, hmsg⟩ := hl
      obtain ⟨hexp, hunder, hrouted⟩ := hrouted.receive
      have hreaches := (hs.side i).addressee hmsg hunder
      rw [hs.roles] at hmsg
      obtain ⟨p', hrun, hheard⟩ := (hs.side i).hears hinj hmsg hexp
      obtain rfl := Method.leaves_of_run_ok hrun hleaves
      refine ⟨inn, ?_, ?_, ?_, ?_, pq, qp, ?_, ?_, ?_⟩
      · rw [hself, hheard.write_queue, h.write_queue]
      · rw [hother, hrest]
      · have hacc := h.accounted.posts (show posts i t = [] by rw [posts, hact])
          (by rw [session.arrives, hact]; exact if_neg (Bool.not_ne_self i).symm)
        rwa [List.append_nil] at hacc
      · refine h.other_accounted.arrives (a := addressee (t.pre i).channels msg)
          (by rw [posts, hact]) ?_ ?_
        · rw [Bool.not_not, session.arrives, hact]
          dsimp only
          rw [if_pos rfl, hq]
          rfl
        · rw [Bool.not_not]
          exact hreaches
      · rw [hself, hheard.effect.frame.is_initiator]
        exact hpq
      · rw [hother]
        exact hqp
      · rw [hself, hother, hheard.party]
        exact hrouted.mono closed_by_subset closed_by_subset

theorem Tracks.step (hs : Joined keys hash s) (hinj : Set.InjOn (discovery_key_of X) keys)
    (htr : Tracks keys hash tr s) {a : PeerAction X} (h : PeerStep keys s a s') :
    Tracks keys hash (tr ++ [⟨s, a, s'⟩]) s' := by
  cases h with
  | @opens i key p hkey hnone hleaves =>
    obtain ⟨out, inn, htracked⟩ := htr i
    obtain ⟨new, htracked⟩ := htracked.opens hs hinj hkey hnone hleaves
    exact htracked.tracks
  | @sends i c msgs p hc hmsgs hleaves =>
    obtain ⟨out, inn, htracked⟩ := htr i
    obtain ⟨new, htracked⟩ := htracked.sends hs hc hmsgs hleaves
    exact htracked.tracks
  | @closes i c p hc hleaves =>
    obtain ⟨out, inn, htracked⟩ := htr i
    obtain ⟨new, htracked⟩ := htracked.closes hs hc hleaves rfl
    exact htracked.tracks
  | @delivers i msg rest p hq hleaves =>
    obtain ⟨out, inn, htracked⟩ := htr i
    generalize hs' : Function.update (Function.update s i p) (!i) _ = s'
    have hself : s' i = p := by
      rw [← hs', Function.update_of_ne (Bool.not_ne_self i).symm, Function.update_self]
    have hother := (congrFun hs'.symm !i).trans (Function.update_self _ _ _)
    obtain ⟨inn', htracked⟩ := htracked.delivers (t := ⟨s, .delivers i, s'⟩) hs hinj hq hleaves
      ⟨rfl, rfl, hself, hother⟩
    exact htracked.tracks

theorem tracks_of_handshaken (h : Handshaken hash s) : Tracks keys hash [] s := by
  intro i
  refine ⟨[], [], h.write_queue i, h.write_queue !i, ⟨[], rfl, .nil⟩, ⟨[], rfl, .nil⟩, [], [],
    .nil, .nil, ?_⟩
  rw [h.channels, h.channels]
  exact ⟨⟨trivial, trivial, rfl, rfl⟩, trivial, trivial, fun _ _ hk => absurd hk List.not_mem_nil,
    fun _ _ hk => absurd hk List.not_mem_nil⟩

/-- What two peers keep of each other: the state they share, and the account of what each has
posted and the other has handled. -/
theorem peers_invariant (hinj : Set.InjOn (discovery_key_of X) keys) {s₀ : Peers X σ}
    (h₀ : Handshaken hash s₀) (run : Run (PeerStep keys) s₀ tr s) :
    Joined keys hash s ∧ Tracks keys hash tr s :=
  run.invariant (I := fun tr s => Joined keys hash s ∧ Tracks keys hash tr s)
    ⟨joined_of_handshaken h₀, tracks_of_handshaken h₀⟩
    fun _ _ _ _ _ hs h => ⟨hs.1.step hinj h, hs.2.step hs.1 hinj h⟩

/-! ## Runs that are computed -/

/-- The state that a call leaves, unless it panics or runs out of fuel. A call that returns an
error leaves one too. -/
def left_by {α : Type} : EStateM.Result (Fault IoError) (Protocol X σ) α → Option (Protocol X σ)
  | .ok _ p => some p
  | .error (.err _) p => some p
  | .error _ _ => none

omit [CipherTrait σ] in
theorem leaves_of_left_by {α : Type} {f : ProtocolMethod X σ α} (h : left_by (f.run p) = some p') :
    Method.Leaves f p p' := by
  cases hrun : f.run p with
  | ok a q =>
    rw [hrun] at h
    exact Or.inl ⟨a, Option.some.inj h ▸ hrun⟩
  | error e q =>
    rw [hrun] at h
    cases e with
    | err e => exact Or.inr ⟨e, Option.some.inj h ▸ hrun⟩
    | panic => exact nomatch h
    | out_of_fuel => exact nomatch h

instance (p : Protocol X σ) (c : Channel) : Decidable (Established p c) :=
  decidable_of_iff (Event.Channel c ∈ p.queued_events ∧
      p.channels.shared.flags.read c.closed = some false)
    ⟨fun h => ⟨h.1, h.2⟩, fun h => ⟨h.1, h.2⟩⟩

/-- The peers after an action, if it can be taken. It decides the conditions of `PeerStep`, so
that examples of runs can be computed. -/
def perform (keys : List Key) (s : Peers X σ) : PeerAction X → Option (Peers X σ)
  | .opens i key =>
    if key ∈ keys ∧ ((s i).channels.entry (discovery_key_of X key)).local_state = none then
      (left_by ((Protocol.on_command (.Open key)).run (s i))).map (Function.update s i)
    else none
  | .sends i c msgs =>
    if Established (s i) c ∧ ∀ msg ∈ msgs, msg.is_open_or_close = false then
      (left_by ((Protocol.on_outbound_batch (batch_of c msgs)).run (s i))).map (Function.update s i)
    else none
  | .closes i c =>
    if Established (s i) c then
      (left_by ((Protocol.on_outbound_batch (batch_of c [close_of c])).run (s i))).map fun p =>
        Function.update s i { p with
          channels := { p.channels with shared := p.channels.shared.store_true c.closed } }
    else none
  | .delivers i =>
    match (s !i).io.write_queue with
    | [] => none
    | msg :: rest =>
      (left_by ((Protocol.on_inbound_message msg).run (s i))).map fun p =>
        Function.update (Function.update s i p) (!i)
          { s !i with io := { (s !i).io with write_queue := rest } }

theorem perform_step {ks : List Key} {a : PeerAction X} (h : perform ks s a = some s') :
    PeerStep {key | key ∈ ks} s a s' := by
  cases a with
  | opens i key =>
    rw [perform, Option.ite_none_right_eq_some] at h
    obtain ⟨⟨hkey, hnone⟩, h⟩ := h
    obtain ⟨p, hp, rfl⟩ := Option.map_eq_some_iff.mp h
    exact .opens hkey (fun e he => by rwa [ChannelMap.entry_of_some he] at hnone)
      (leaves_of_left_by hp)
  | sends i c msgs =>
    rw [perform, Option.ite_none_right_eq_some] at h
    obtain ⟨⟨hc, hmsgs⟩, h⟩ := h
    obtain ⟨p, hp, rfl⟩ := Option.map_eq_some_iff.mp h
    exact .sends hc hmsgs (leaves_of_left_by hp)
  | closes i c =>
    rw [perform, Option.ite_none_right_eq_some] at h
    obtain ⟨hc, h⟩ := h
    obtain ⟨p, hp, rfl⟩ := Option.map_eq_some_iff.mp h
    exact .closes hc (leaves_of_left_by hp)
  | delivers i =>
    rw [perform] at h
    split at h
    · exact nomatch h
    · rename_i msg rest hq
      obtain ⟨p, hp, rfl⟩ := Option.map_eq_some_iff.mp h
      exact .delivers hq (leaves_of_left_by hp)

/-- The transitions of the actions, one after the other, and the peers after them. There are none
if an action cannot be taken. -/
def performs (keys : List Key) (s : Peers X σ) (actions : List (PeerAction X)) :
    Option (List (Transition (Peers X σ) (PeerAction X)) × Peers X σ) :=
  execute (fun s a => (perform keys s a).map (Prod.mk a)) s actions

theorem performs_run {ks : List Key} {actions : List (PeerAction X)}
    (h : performs ks s actions = some (tr, s')) : Run (PeerStep {key | key ∈ ks}) s tr s' := by
  refine (execute_run (C := fun _ => True) h fun s a a' s₁ h => ⟨?_, trivial⟩).1
  obtain ⟨s₂, hs₂, heq⟩ := Option.map_eq_some_iff.mp h
  obtain ⟨rfl, rfl⟩ := Prod.mk.inj heq
  exact perform_step hs₂

/-- Two peers after their handshake, with nothing open and nothing on the way. Examples of runs
start here. -/
def fresh_peers : Peers deps Memory := fun i => Protocol.new (Memory.connected i)

theorem handshaken_fresh : Handshaken (to_vec (sample 0)) fresh_peers :=
  ⟨fun _ => rfl, fun _ => rfl, fun _ => rfl, fun _ => rfl, fun _ => rfl, fun _ => rfl⟩

/-! ## Every message reaches its key -/

/-- **Every message reaches its key.** Two peers after the handshake, in any interleaving of
the steps of `PeerStep`: opening a key without local state, sending on an established channel
or closing one, what it queues being drained in the same step, and delivering the next message
of either link. Ids may be reused in any way. What one side posts is handled by the other once
and in order, up to what is still on the way, and each message for the key it was posted for.
The one exception is a message for a key that the receiver has closed itself, which may be
handled for no key. -/
theorem letters_reach (hinj : Set.InjOn (discovery_key_of X) keys) {s₀ : Peers X σ}
    (h₀ : Handshaken hash s₀) (run : Run (PeerStep keys) s₀ tr s) (i : Bool) :
    ∃ taken left, posted i tr = taken ++ left ∧ (s i).io.write_queue = left.map Prod.snd ∧
      List.Forall₂ (Reaches (closed_by (!i) tr)) taken (collected (!i) tr) := by
  obtain ⟨out, inn, htracked⟩ := (peers_invariant hinj h₀ run).2 i
  obtain ⟨taken, hposted, htaken⟩ := htracked.accounted
  exact ⟨taken, out, hposted, htracked.write_queue, htaken⟩

/-- Both sides open a key and get id 1 for it. One sends on the channel while the other closes
it, so that the message finds no entry; then the first gives the id to a second key. -/
theorem letters_reach_reused : ∃ tr s,
    Run (PeerStep {key | key ∈ [sample 1, sample 2]}) fresh_peers tr s ∧
    (collected false tr).map Prod.fst =
      [some (discovery_key_of deps (sample 1)), none, some (discovery_key_of deps (sample 2))] ∧
    ∃ taken left, posted true tr = taken ++ left ∧ (s true).io.write_queue = left.map Prod.snd ∧
      List.Forall₂ (Reaches (closed_by false tr)) taken (collected false tr) := by
  have hcomputed : ((performs [sample 1, sample 2] fresh_peers [.opens true (sample 1),
      .delivers false, .opens false (sample 1), .delivers true,
      .sends true first_channel [.Cancel ⟨5⟩], .closes false first_channel, .delivers false,
      .delivers true, .opens true (sample 2), .delivers false]).any fun r =>
      (collected false r.1).map Prod.fst ==
        [some (discovery_key_of deps (sample 1)), none,
          some (discovery_key_of deps (sample 2))]) = true := by
    decide +kernel
  obtain ⟨⟨tr, s⟩, hrun, hkeys⟩ := (Option.any_eq_true _ _).mp hcomputed
  have hinj : Set.InjOn (discovery_key_of deps) {key | key ∈ [sample 1, sample 2]} := by
    have hall : ∀ k ∈ [sample 1, sample 2], ∀ k' ∈ [sample 1, sample 2],
        discovery_key_of deps k = discovery_key_of deps k' → k = k' := by decide
    exact fun k hk k' hk' => hall k hk k' hk'
  exact ⟨tr, s, performs_run hrun, eq_of_beq hkeys,
    letters_reach hinj handshaken_fresh (performs_run hrun) true⟩

/-! ## When a key is connected -/

/-- Side `i` asks for the key, by handling the command to open it. -/
def Asks (i : Bool) (d : DiscoveryKey) (t : Transition (Peers X σ) (PeerAction X)) : Prop :=
  ∃ key, t.act = .opens i key ∧ discovery_key_of X key = d

/-- Side `i` closes the channel of the key, or it hears that the other has. -/
def Drops (i : Bool) (d : DiscoveryKey) (t : Transition (Peers X σ) (PeerAction X)) : Prop :=
  (∃ c, t.act = .closes i c ∧ c.discovery_key = d) ∨
    (t.act = .delivers i ∧ ∃ ch c rest, (t.pre !i).io.write_queue = ⟨ch, .Close c⟩ :: rest ∧
      addressee (t.pre i).channels ⟨ch, .Close c⟩ = some d)

/-- The key is attached from both sides, and messages on it find a queue with a receiver. -/
def Usable (m : ChannelMap X) (d : DiscoveryKey) : Prop :=
  ∃ h n, m.channels d = some h ∧ h.is_connected = true ∧ h.inbound_tx = some n ∧
    m.receives n = true

theorem Side.usable_iff (hs : Side keys hash p) :
    Usable p.channels d ↔ Connected p.channels d := by
  constructor
  · rintro ⟨h, n, hd, hconn, -⟩
    exact ⟨h, hd, hconn⟩
  · rintro ⟨h, hd, hconn⟩
    obtain ⟨n, hn⟩ := Option.isSome_iff_exists.mp (hs.all_open d h hd hconn)
    exact ⟨h, n, hd, hconn, hn, hs.listening n ((hs.wf.fits hd).inbox_lt hn)⟩

/-- The local id of a key at side `i` comes with a request for it, and goes when the key is
dropped. -/
def Requested (i : Bool) (d : DiscoveryKey) (t : Transition (Peers X σ) (PeerAction X)) : Prop :=
  (party (t.post i).channels).mine d ≠ none ↔
    Asks i d t ∨ ((party (t.pre i).channels).mine d ≠ none ∧ ¬ Drops i d t)

omit [CipherTrait σ] in
theorem requested_of_same (hmine : (party (t.post i).channels).mine d =
      (party (t.pre i).channels).mine d) (hasks : ¬ Asks i d t)
    (hdrops : (party (t.pre i).channels).mine d ≠ none → ¬ Drops i d t) : Requested i d t := by
  rw [Requested, hmine]
  exact ⟨fun h => Or.inr ⟨h, hdrops h⟩, fun h => (h.resolve_left hasks).1⟩

/-- Side `i` hears something of the other. Only a `Close` can make it lose an id, and then it
drops the key. -/
theorem requested_delivers (hs : Joined keys hash s) (hinj : Set.InjOn (discovery_key_of X) keys)
    {msg : ChannelMessage X} {rest : List (ChannelMessage X)}
    (hq : (s !i).io.write_queue = msg :: rest)
    (hleaves : Method.Leaves (Protocol.on_inbound_message msg) (s i) p) (hself : s' i = p) :
    Requested i d ⟨s, .delivers i, s'⟩ := by
  have hasks : ¬ Asks i d ⟨s, .delivers i, s'⟩ := by
    rintro ⟨key, hact, -⟩
    exact nomatch hact
  obtain ⟨out, inn, hout, hinn, hagreed⟩ := hs.linked i
  rw [hq] at hinn
  cases hinn with
  | cons hmsg hrest =>
    rw [hs.roles] at hmsg
    obtain ⟨p', hrun, hheard⟩ := (hs.side i).hears hinj hmsg hagreed.receive.1
    obtain rfl := Method.leaves_of_run_ok hrun hleaves
    have hparty : party (s' i).channels = _ := hself ▸ hheard.party
    -- only a `Close` drops a key
    have hno : (∀ c, msg.message ≠ .Close c) → ¬ Drops i d ⟨s, .delivers i, s'⟩ := by
      rintro hne (⟨c, hact, -⟩ | ⟨-, ch, c, rest', hq', -⟩)
      · exact nomatch hact
      · rw [hq, List.cons_eq_cons] at hq'
        exact hne c (congrArg ChannelMessage.message hq'.1)
    cases hmsg with
    | opened =>
      exact requested_of_same (by rw [hparty]; rfl) hasks fun _ => hno fun _ hc => nomatch hc
    | data hi hmsg =>
      refine requested_of_same (by rw [hparty]; rfl) hasks fun _ => hno fun c hc => ?_
      subst hc
      exact nomatch hmsg
    | @closed n c hi =>
      have hdrops : Drops i d ⟨s, .delivers i, s'⟩ ↔ (party (s i).channels).theirs d = some n := by
        have haddr : addressee (s i).channels ⟨UInt64.ofNat n, .Close c⟩
            = ((s i).channels.get_remote n).map ChannelHandle.discovery_key := by
          rw [addressee]
          dsimp only
          rw [toNat_ofNat_id hi]
        constructor
        · rintro (⟨c, hact, -⟩ | ⟨-, ch, c', rest', hq', hd⟩)
          · exact nomatch hact
          · rw [hq, List.cons_eq_cons] at hq'
            rw [← hq'.1, haddr, Option.map_eq_some_iff] at hd
            obtain ⟨h, hr, rfl⟩ := hd
            exact ((hs.side i).get_remote hr).1
        · intro htheirs
          refine Or.inr ⟨rfl, _, _, _, hq, ?_⟩
          rw [haddr]
          obtain ⟨h, hd, hr⟩ := Option.bind_eq_some_iff.mp htheirs
          have hget := (hs.side i).resolve d h n hd hr
          rw [hget, Option.map_some, ((hs.side i).wf.fits hd).keyed]
      rw [Requested, hdrops]
      show (party (s' i).channels).mine d ≠ none ↔ _
      rw [hparty]
      by_cases hn : (party (s i).channels).theirs d = some n
      · rw [show ((party (s i).channels).recv (.closed n)).mine d = none from if_pos hn]
        exact ⟨fun h => absurd rfl h, fun h => absurd hn (h.resolve_left hasks).2⟩
      · rw [show ((party (s i).channels).recv (.closed n)).mine d = _ from if_neg hn]
        exact ⟨fun h => Or.inr ⟨h, hn⟩, fun h => (h.resolve_left hasks).1⟩

/-- The side that takes the step. -/
def PeerAction.by : PeerAction X → Bool
  | .opens i _ => i
  | .sends i _ _ => i
  | .closes i _ => i
  | .delivers i => i

omit [CipherTrait σ] in
/-- Nothing is asked for or dropped by the side that does not take the step. -/
theorem requested_other (hby : t.act.by ≠ i) (hsame : (t.post i).channels = (t.pre i).channels) :
    Requested i d t := by
  refine requested_of_same (by rw [hsame]) ?_ fun _ => ?_
  · rintro ⟨key, hact, -⟩
    rw [hact] at hby
    exact hby rfl
  · rintro (⟨c, hact, -⟩ | ⟨hact, -⟩)
    · rw [hact] at hby
      exact hby rfl
    · rw [hact] at hby
      exact hby rfl

/-- Side `j` opens a key, and has an id for it. -/
theorem requested_opens (hs : Joined keys hash s) (hinj : Set.InjOn (discovery_key_of X) keys)
    {j : Bool} {key : Key} (hkey : key ∈ keys)
    (hnone : ∀ h, (s j).channels.channels (discovery_key_of X key) = some h → h.local_state = none)
    (hleaves : Method.Leaves (Protocol.on_command (.Open key)) (s j) p) (hself : s' j = p) :
    Requested j d ⟨s, .opens j key, s'⟩ := by
  obtain ⟨l, -, -, -, -, -, hparty, -⟩ :=
    (hs.side j).opens hinj hkey (mine_of_unattached hnone) hleaves
  rw [← hself] at hparty
  have hdrops : ¬ Drops j d ⟨s, .opens j key, s'⟩ := by
    rintro (⟨c, hact, -⟩ | ⟨hact, -⟩)
    · cases hact
    · cases hact
  by_cases hd : discovery_key_of X key = d
  · refine ⟨fun _ => Or.inl ⟨key, rfl, hd⟩, fun _ => ?_⟩
    show (party (s' j).channels).mine d ≠ none
    rw [hparty, Party.number, hd]
    dsimp only
    rw [Function.update_self]
    exact Option.some_ne_none l
  · refine requested_of_same ?_ ?_ fun _ => hdrops
    · show (party (s' j).channels).mine d = _
      rw [hparty, Party.number]
      exact Function.update_of_ne (Ne.symm hd) _ _
    · rintro ⟨key', hact, hd'⟩
      rw [← (PeerAction.opens.inj hact).2] at hd'
      exact hd hd'

/-- Side `j` sends, and its ids stay. -/
theorem requested_sends (hs : Joined keys hash s) {j : Bool} {c : Channel}
    {msgs : List (Message X)} (hc : Established (s j) c)
    (hmsgs : ∀ msg ∈ msgs, msg.is_open_or_close = false)
    (hleaves : Method.Leaves (Protocol.on_outbound_batch (batch_of c msgs)) (s j) p)
    (hself : s' j = p) : Requested j d ⟨s, .sends j c msgs, s'⟩ := by
  obtain ⟨-, -, hparty, -⟩ := (hs.side j).sends hc hmsgs hleaves
  refine requested_of_same ?_ ?_ fun _ => ?_
  · show (party (s' j).channels).mine d = _
    rw [hself, hparty]
  · rintro ⟨key, hact, -⟩
    cases hact
  · rintro (⟨c, hact, -⟩ | ⟨hact, -⟩)
    · cases hact
    · cases hact

omit [CipherTrait σ] in
/-- Side `j` closes a channel, and loses the id of its key. -/
theorem requested_closes {j : Bool} {c : Channel}
    (hself : party (s' j).channels = (party (s j).channels).forget c.discovery_key) :
    Requested j d ⟨s, .closes j c, s'⟩ := by
  have hasks : ¬ Asks j d ⟨s, .closes j c, s'⟩ := by
    rintro ⟨key, hact, -⟩
    cases hact
  by_cases hd : c.discovery_key = d
  · have hdrops : Drops j d ⟨s, .closes j c, s'⟩ := Or.inl ⟨c, rfl, hd⟩
    refine ⟨fun hmine => absurd ?_ hmine, fun h => absurd hdrops (h.resolve_left hasks).2⟩
    rw [hself, Party.forget, hd]
    exact Function.update_self _ _ _
  · refine requested_of_same ?_ hasks fun _ => ?_
    · show (party (s' j).channels).mine d = _
      rw [hself, Party.forget]
      exact Function.update_of_ne (Ne.symm hd) _ _
    · rintro (⟨c', hact, hd'⟩ | ⟨hact, -⟩)
      · rw [← (PeerAction.closes.inj hact).2] at hd'
        exact hd hd'
      · cases hact

/-- A step changes the local ids of the side that takes it only, as the request or the closing
says. -/
theorem requested_step (hs : Joined keys hash s) (hinj : Set.InjOn (discovery_key_of X) keys)
    {a : PeerAction X} (h : PeerStep keys s a s') (i : Bool) (d : DiscoveryKey) :
    Requested i d ⟨s, a, s'⟩ := by
  cases h with
  | @opens j key p hkey hnone hleaves =>
    by_cases hij : j = i
    · subst hij
      exact requested_opens hs hinj hkey hnone hleaves (Function.update_self _ _ _)
    · exact requested_other hij
        (congrArg Protocol.channels (Function.update_of_ne (Ne.symm hij) p s))
  | @sends j c msgs p hc hmsgs hleaves =>
    by_cases hij : j = i
    · subst hij
      exact requested_sends hs hc hmsgs hleaves (Function.update_self _ _ _)
    · exact requested_other hij
        (congrArg Protocol.channels (Function.update_of_ne (Ne.symm hij) p s))
  | @closes j c p hc hleaves =>
    obtain ⟨-, -, hparty, -⟩ := (hs.side j).closes hc hleaves
    generalize hs' : Function.update s j _ = s'
    by_cases hij : j = i
    · subst hij
      refine requested_closes ?_
      rw [← hs', Function.update_self]
      exact hparty
    · have hother : s' i = s i := by rw [← hs', Function.update_of_ne (Ne.symm hij)]
      exact requested_other hij (congrArg Protocol.channels hother)
  | @delivers j msg rest p hq hleaves =>
    generalize hs' : Function.update (Function.update s j p) (!j) _ = s'
    by_cases hij : j = i
    · subst hij
      refine requested_delivers hs hinj hq hleaves ?_
      rw [← hs', Function.update_of_ne (Bool.not_ne_self j).symm, Function.update_self]
    · obtain rfl : i = !j := Bool.eq_not_of_ne (Ne.symm hij)
      have hother : (s' !j).channels = (s !j).channels := by rw [← hs', Function.update_self]
      exact requested_other hij hother

/-- With nothing on the way a channel is open exactly if both sides have an id for it. -/
theorem Joined.usable_iff (hs : Joined keys hash s) (hempty : ∀ i, (s i).io.write_queue = [])
    (i : Bool) (d : DiscoveryKey) : Usable (s i).channels d ↔
      (party (s i).channels).mine d ≠ none ∧ (party (s !i).channels).mine d ≠ none := by
  obtain ⟨out, inn, hout, hinn, hagreed⟩ := hs.linked i
  rw [hempty, List.forall₂_nil_left_iff] at hout hinn
  subst hout hinn
  rw [(hs.side i).usable_iff, connected_iff_party, hagreed.settled.2, Option.isSome_iff_ne_none,
    Option.isSome_iff_ne_none]

/-- **A channel is open if it was asked for.** Two peers after the handshake, in any
interleaving of the steps of `PeerStep`, in which a key is opened only without local state, a
send or a close is drained in the step that queues it, and there is no `Command::Close`. When
nothing is on the way, a side has an open channel for a key, with a queue and a receiver behind
it, exactly if both sides have asked for the key and neither has closed it or heard of its
closing since. -/
theorem connected_iff_asked (hinj : Set.InjOn (discovery_key_of X) keys) {s₀ : Peers X σ}
    (h₀ : Handshaken hash s₀) (run : Run (PeerStep keys) s₀ tr s)
    (hempty : ∀ i, (s i).io.write_queue = []) (i : Bool) (d : DiscoveryKey) :
    Usable (s i).channels d ↔ ∀ j, Since (Asks j d) (Drops j d) tr := by
  -- the local ids follow the requests all along the run
  have hmine : ∀ j, (party (s j).channels).mine d ≠ none ↔ Since (Asks j d) (Drops j d) tr := by
    intro j
    refine run.invariant (I := fun tr s => (party (s j).channels).mine d ≠ none ↔
      Since (Asks j d) (Drops j d) tr) ?_ fun tr s a s' run hiff hstep => ?_
    · rw [h₀.channels]
      exact ⟨fun h => absurd rfl h, fun h => absurd h not_since_nil⟩
    · have hreq := requested_step (peers_invariant hinj h₀ run).1 hinj hstep j d
      rw [since_snoc, ← hiff]
      exact hreq
  rw [(peers_invariant hinj h₀ run).1.usable_iff hempty, hmine, hmine]
  constructor
  · rintro ⟨hi, hother⟩ j
    by_cases hj : j = i
    · exact hj ▸ hi
    · exact Bool.eq_not_of_ne hj ▸ hother
  · exact fun h => ⟨h i, h !i⟩

/-- Both sides ask for a key, and hear of each other. -/
theorem connected_iff_asked_both : ∃ tr s,
    Run (PeerStep {key | key ∈ [sample 1]}) fresh_peers tr s ∧
    (∀ i, (s i).io.write_queue = []) ∧ tr.length = 4 ∧
    ∀ j, Since (Asks j (discovery_key_of deps (sample 1)))
      (Drops j (discovery_key_of deps (sample 1))) tr := by
  have hcomputed : ((performs [sample 1] fresh_peers [.opens true (sample 1), .delivers false,
      .opens false (sample 1), .delivers true]).any fun r =>
      (r.2 true).io.write_queue.isEmpty && (r.2 false).io.write_queue.isEmpty &&
      (r.1.length == 4) &&
      ((r.2 true).channels.channels (discovery_key_of deps (sample 1))).any fun h =>
        h.is_connected && h.inbound_tx.any fun n => (r.2 true).channels.receives n) = true := by
    decide +kernel
  obtain ⟨⟨tr, s⟩, hrun, hfinal⟩ := (Option.any_eq_true _ _).mp hcomputed
  simp only [Bool.and_eq_true, List.isEmpty_iff, beq_iff_eq, Option.any_eq_true] at hfinal
  obtain ⟨⟨⟨htrue, hfalse⟩, hlen⟩, h, hd, hconn, n, hn, hreceives⟩ := hfinal
  have hempty : ∀ i, (s i).io.write_queue = [] := by
    intro i
    cases i with
    | true => exact htrue
    | false => exact hfalse
  have hinj : Set.InjOn (discovery_key_of deps) {key | key ∈ [sample 1]} := by
    intro k hk k' hk' _
    exact (List.mem_singleton.mp hk).trans (List.mem_singleton.mp hk').symm
  exact ⟨tr, s, performs_run hrun, hempty, hlen, (connected_iff_asked hinj handshaken_fresh
    (performs_run hrun) hempty true _).mp ⟨h, n, hd, hconn, hn, hreceives⟩⟩

end hypercore_protocol.session
