/-
Exactly-once delivery, in order.

Two applications open one key once on each side and send on the channel they get, in any
order, with polls of either side in between; frames pass between the connections when
they like, and a sink is ready when it likes. The pair is described from the side that
acts (`Paired`): its own state, the flow of messages to the other side, and the flow
from there. A poll keeps it because each of its parts does, and in the part that reads
frames the messages of a frame are in hand while they are dealt out one by one.

The applications are those of `Session`, with whole polls as steps. That a connection is
first in, first out is an assumption on it (`FifoCipher`).
-/
import HypercoreProtocol.Calls
import HypercoreProtocol.Flow

set_option autoImplicit false

namespace hypercore_protocol.session

open Rust Method Wire Runs Link schema message channels mqueue protocol crypto compact_encoding

variable {X : Deps} {σ : Type} [CipherTrait σ] {p p' : Protocol X σ} {m m' : ChannelMap X}
  {d : DiscoveryKey} {h : ChannelHandle} {c : Channel} {key : Key} {hash : Vec UInt8}

/-! ## The inbound queue of a key -/

/-- The messages in the inbound queue of the key, none as long as its channel is not open. -/
def waiting (m : ChannelMap X) (d : DiscoveryKey) : List (Message X) :=
  match (m.channels d).bind ChannelHandle.inbound_tx with
  | some n => inbox_queue m n
  | none => []

theorem waiting_of_some {n : ℕ} (hd : m.channels d = some h) (hn : h.inbound_tx = some n) :
    waiting m d = inbox_queue m n := by
  simp only [waiting, hd, Option.bind_some, hn]

/-- Before the key is attached from both sides, no queue is there, and nothing can wait. -/
theorem waiting_of_unconnected (hm : m.Wf)
    (hno : (party m).mine d = none ∨ (party m).theirs d = none) : waiting m d = [] := by
  cases hd : m.channels d with
  | none => simp only [waiting, hd, Option.bind_none]
  | some h =>
    cases hn : h.inbound_tx with
    | none => simp only [waiting, hd, Option.bind_some, hn]
    | some n =>
      obtain ⟨hl, hr⟩ := is_connected_iff.mp ((hm.fits hd).connected hn)
      rw [party_mine hd, party_theirs hd] at hno
      rcases hno with hno | hno
      · rw [hno] at hl
        exact nomatch hl
      · rw [hno] at hr
        exact nomatch hr

theorem waiting_accepted : waiting (m.accepted d h) d = [] := by
  rw [waiting_of_some (h := { h with inbound_tx := some m.shared.inboxes.next })
    (Function.update_self _ _ _) rfl, inbox_queue_accepted, inbox_queue,
    Arena.read_of_next_le (Nat.le_refl _)]
  rfl

theorem waiting_push {n : ℕ} {msg : Message X} (hd : m.channels d = some h)
    (hn : h.inbound_tx = some n) (ha : m.receives n = true) :
    waiting { m with shared := m.shared.push n msg } d = waiting m d ++ [msg] := by
  rw [waiting_of_some (m := { m with shared := m.shared.push n msg }) hd hn,
    waiting_of_some hd hn, inbox_queue_push (receives_lt ha), if_pos rfl]

/-- After an `Open` command the queue of its key is empty: it is not there, or new. -/
theorem waiting_opened (hm : p.channels.Wf)
    (heff : Protocol.CommandEffect p (.Open key) none p') :
    waiting p'.channels (discovery_key_of X key) = [] := by
  have hm' := heff.wf hm
  cases heff with
  | opened _ hd _ hr =>
    refine waiting_of_unconnected hm' (Or.inr ?_)
    rw [party_theirs hd, ChannelHandle.remote_id, hr]
    rfl
  | accepted => exact waiting_accepted

theorem waiting_heard (hm : p.channels.Wf) {i : ℕ} {cap : Option (Vec UInt8)}
    (heff : Protocol.InboundEffect p (open_message i d cap) none p') :
    waiting p'.channels d = [] := by
  have hm' := heff.wf hm
  rw [open_message] at heff
  cases heff with
  | announced hk _ hd _ hl =>
    obtain rfl : d = _ := Subtype.ext hk
    refine waiting_of_unconnected hm' (Or.inl ?_)
    rw [party_mine hd, ChannelHandle.local_id, hl]
    rfl
  | accepted hk =>
    obtain rfl : d = _ := Subtype.ext hk
    exact waiting_accepted
  | unknown hmsg => cases hmsg
  | delivered hmsg => cases hmsg

/-! ## Channels of one key -/

/-- The channel is the one of the key: its id and its queue are those of the entry. -/
structure Owned (m : ChannelMap X) (d : DiscoveryKey) (c : Channel) : Prop where
  mine : (party m).mine d = some c.local_id
  theirs : (party m).theirs d ≠ none
  inbound : (m.channels d).bind ChannelHandle.inbound_tx = c.inbound_rx

theorem Owned.of_same (hc : Owned m d c) (hsame : m'.channels = m.channels) : Owned m' d c :=
  ⟨party_congr hsame ▸ hc.mine, party_congr hsame ▸ hc.theirs, hsame ▸ hc.inbound⟩

/-- An entry is one of the key, the only one in use: the remote opens nothing else. -/
theorem Side.only (hs : Side {key} hash p) (htheirs : (party p.channels).theirs d ≠ none) :
    d = discovery_key_of X key := by
  obtain ⟨r, hr⟩ := Option.ne_none_iff_exists'.mp htheirs
  obtain ⟨h, hd, hr⟩ := Option.bind_eq_some_iff.mp hr
  obtain ⟨rs, hrs, -⟩ := Option.map_eq_some_iff.mp hr
  obtain ⟨key', hkey, hdk, -⟩ := hs.remote_keys d h rs hd hrs
  rw [← hdk, Set.mem_singleton_iff.mp hkey]

theorem Establishes.owned (hest : Establishes p p' c) (hs : Side {key} hash p') :
    Owned p'.channels (discovery_key_of X key) c := by
  obtain ⟨m, d, h, ls, rs, -, -, hl, hr, -, rfl, hp'⟩ := hest
  have hd : p'.channels.channels d = some { h with inbound_tx := some m.shared.inboxes.next } := by
    rw [hp']
    exact Function.update_self _ _ _
  have htheirs : (party p'.channels).theirs d ≠ none := by
    rw [party_theirs hd, ChannelHandle.remote_id, hr]
    exact Option.some_ne_none _
  obtain rfl := hs.only htheirs
  refine ⟨?_, htheirs, ?_⟩
  · rw [party_mine hd, ChannelHandle.local_id, hl]
    rfl
  · rw [hd]
    rfl

/-! ## First in, first out -/

/-- A connection that keeps frames in order and loses none: what it is going to return,
and what it was given and has not passed on. -/
structure FifoCipher (σ : Type) [CipherTrait σ] where
  lawful : LawfulCipher σ
  incoming : σ → List Bytes
  outgoing : σ → List Bytes
  poll_next_message : ∀ stream bs,
    (CipherTrait.poll_next stream).1 = .ready (some (.Message bs)) →
      incoming stream = bs :: incoming (CipherTrait.poll_next stream).2
  poll_next_other : ∀ stream,
    (∀ bs, (CipherTrait.poll_next stream).1 ≠ .ready (some (.Message bs))) →
      incoming (CipherTrait.poll_next stream).2 = incoming stream
  poll_next_outgoing : ∀ stream, outgoing (CipherTrait.poll_next stream).2 = outgoing stream
  poll_ready : ∀ stream, incoming (CipherTrait.poll_ready stream).2 = incoming stream ∧
    outgoing (CipherTrait.poll_ready stream).2 = outgoing stream
  poll_flush : ∀ stream, incoming (CipherTrait.poll_flush stream).2 = incoming stream ∧
    outgoing (CipherTrait.poll_flush stream).2 = outgoing stream
  start_send : ∀ stream bs, incoming (CipherTrait.start_send stream bs).2 = incoming stream ∧
    outgoing (CipherTrait.start_send stream bs).2 = outgoing stream ++ [bs]

/-- A value that has a size is encoded, or its buffer cannot be allocated, which is not an
error that is returned. -/
def EncodesOrPanics (X : Deps) : Prop :=
  ∀ {α : Type} (c : Codec EncodingError α) (x : α) (n : ℕ) (e : EncodingError),
    c.encoded_size x = .ok n → ISIZE_MAX < n → X.to_encoded_bytes c x ≠ .error (.err e)

theorem deps_encodesOrPanics : EncodesOrPanics deps := by
  intro α c x n e hsize hlarge hrun
  have hself : compact_encoding.to_encoded_bytes c x = .error (.err e) := hrun
  rw [compact_encoding.to_encoded_bytes, hsize, ok_bind, if_neg (Nat.not_le_of_lt hlarge)] at hself
  cases hself

/-! ## The system -/

/-- A session, with what its application has done: whether it has asked for the key, what it has
sent, and what it has received. -/
structure Endpoint (X : Deps) (σ : Type) where
  app : Session X σ
  /-- The key was opened. -/
  asked : Bool
  /-- The messages that entered the outbound queue. -/
  sent : List (Message X)
  /-- The messages that were received from the channel. -/
  taken : List (Message X)

namespace Endpoint

/-- What the application does: it opens the key once, sends, receives and polls. It closes
nothing, and keeps its receiver. -/
def Does (key : Key) (e : Endpoint X σ) : PollAction X → Prop
  | .app (.queue_command command) => command = .Open key ∧ e.asked = false
  | .app (.send _ messages) => ∀ msg ∈ messages, msg.is_open_or_close = false
  | .app (.enqueue _) => True
  | .app (.abandon _) => True
  | .app (.receive _ _) => True
  | .poll _ => True
  | _ => False

def after (e : Endpoint X σ) (a : PollAction X) (session : Session X σ) : Endpoint X σ :=
  match a with
  | .app (.queue_command _) => { e with app := session, asked := true }
  | .app (.enqueue x) =>
    { e with app := session, sent := e.sent ++ x.batch.map ChannelMessage.message }
  | .app (.receive _ msg) => { e with app := session, taken := e.taken ++ [msg] }
  | _ => { e with app := session }

/-- The endpoint after a poll that has left `p` and given away these channels, its application
having done nothing. -/
def polled (e : Endpoint X σ) (p : Protocol X σ) (channels : List Channel) : Endpoint X σ :=
  { e with app := e.app.polled p channels }

def with_stream (e : Endpoint X σ) (stream : σ) : Endpoint X σ :=
  { e with app := { e.app with
      protocol := { e.app.protocol with io := { e.app.protocol.io with stream := stream } } } }

omit [CipherTrait σ] in
theorem polled_self (e : Endpoint X σ) : e.polled e.app.protocol [] = e := by
  rw [polled, Session.polled_self]

end Endpoint

inductive PairAction (X : Deps) where
  | app (i : Bool) (a : PollAction X)
  /-- Frames pass from the connection of side `i` to the other one. -/
  | carries (i : Bool) (moved : List Bytes)

inductive PairStep (F : FifoCipher σ) (key : Key) :
    (Bool → Endpoint X σ) → PairAction X → (Bool → Endpoint X σ) → Prop where
  | app {s : Bool → Endpoint X σ} {i : Bool} {a : PollAction X} {t : Session X σ}
      (hdoes : (s i).Does key a) (h : PollStep (s i).app a t) :
      PairStep F key s (.app i a) (Function.update s i ((s i).after a t))
  | carries {s : Bool → Endpoint X σ} {i : Bool} {moved : List Bytes} {stream stream' : σ}
      (hkeeps : KeepsHandshake (s i).app.protocol.io.stream stream)
      (hkeeps' : KeepsHandshake (s !i).app.protocol.io.stream stream')
      (hout : F.outgoing (s i).app.protocol.io.stream = moved ++ F.outgoing stream)
      (hinn : F.incoming stream = F.incoming (s i).app.protocol.io.stream)
      (hout' : F.outgoing stream' = F.outgoing (s !i).app.protocol.io.stream)
      (hinn' : F.incoming stream' = F.incoming (s !i).app.protocol.io.stream ++ moved) :
      PairStep F key s (.carries i moved) (Function.update
        (Function.update s i ((s i).with_stream stream)) (!i) ((s !i).with_stream stream'))

/-- The handshake is complete on both sides, and nothing else has happened. The connections are
empty in both directions. -/
structure Unused (F : FifoCipher σ) (hash : Vec UInt8) (s : Bool → Endpoint X σ) : Prop where
  handshaken : Handshaken hash fun i => (s i).app.protocol
  command_rx : ∀ i, (s i).app.protocol.command_rx = []
  outbound_rx : ∀ i, (s i).app.protocol.outbound_rx = []
  held : ∀ i, (s i).app.held = []
  sending : ∀ i, (s i).app.sending = []
  asked : ∀ i, (s i).asked = false
  sent : ∀ i, (s i).sent = []
  taken : ∀ i, (s i).taken = []
  incoming : ∀ i, F.incoming (s i).app.protocol.io.stream = []
  outgoing : ∀ i, F.outgoing (s i).app.protocol.io.stream = []

/-! ## The invariant of a pair -/

def sender (F : FifoCipher σ) (d : DiscoveryKey) (p : Protocol X σ) : Sender X where
  mine := (party p.channels).mine d
  theirs := (party p.channels).theirs d
  is_initiator := p.is_initiator
  outbound_rx := p.outbound_rx
  write_queue := p.io.write_queue
  outgoing := F.outgoing p.io.stream

def receiver (F : FifoCipher σ) (d : DiscoveryKey) (p : Protocol X σ) : Receiver X where
  theirs := (party p.channels).theirs d
  waiting := waiting p.channels d
  incoming := F.incoming p.io.stream

/-- One of the two sides, by itself: what holds of it whatever the other does. -/
structure Seat (key : Key) (hash : Vec UInt8) (e : Endpoint X σ) : Prop where
  side : Side {key} hash e.app.protocol
  commands : e.app.protocol.command_rx = [] ∨ (e.app.protocol.command_rx = [.Open key] ∧
    (party e.app.protocol.channels).mine (discovery_key_of X key) = none)
  unasked : e.asked = false → e.app.protocol.command_rx = [] ∧
    (party e.app.protocol.channels).mine (discovery_key_of X key) = none
  owned : ∀ c, c ∈ e.app.held ∨ Event.Channel c ∈ e.app.protocol.queued_events →
    Owned e.app.protocol.channels (discovery_key_of X key) c
  sending : ∀ x ∈ e.app.sending, x.channel ∈ e.app.held ∧
    ∃ msgs, (∀ msg ∈ msgs, msg.is_open_or_close = false) ∧
      x.batch = on_channel x.channel.local_id msgs

/-- **The pair**, from the side of `e`, which has the messages `hand` in its hands. In both
directions the data is in order from the application that sends to the one that receives. -/
structure Paired (F : FifoCipher σ) (key : Key) (hash : Vec UInt8) (e o : Endpoint X σ)
    (hand : List (ChannelMessage X)) : Prop where
  seat : Seat key hash e
  other : Seat key hash o
  roles : o.app.protocol.is_initiator = !e.app.protocol.is_initiator
  out : ∃ w, Flows key hash (sender F (discovery_key_of X key) e.app.protocol)
    (receiver F (discovery_key_of X key) o.app.protocol) [] e.sent o.taken w
  inn : ∃ w, Flows key hash (sender F (discovery_key_of X key) o.app.protocol)
    (receiver F (discovery_key_of X key) e.app.protocol) hand o.sent e.taken w

variable {F : FifoCipher σ} {e o : Endpoint X σ} {hand : List (ChannelMessage X)}

theorem Paired.symm (hp : Paired F key hash e o []) : Paired F key hash o e [] :=
  ⟨hp.other, hp.seat, by rw [hp.roles, Bool.not_not], hp.inn, hp.out⟩

/-! ## The parts of a poll -/

/-- The message layer has done something, and what was on the way is on the way still. -/
theorem Paired.io (hp : Paired F key hash (e.polled p []) o hand) {io : MessageIo X σ}
    {hand' : List (ChannelMessage X)} (hstream : KeepsHandshake p.io.stream io.stream)
    (hout : ∃ w, Flows key hash
      { sender F (discovery_key_of X key) p with
        write_queue := io.write_queue
        outgoing := F.outgoing io.stream }
      (receiver F (discovery_key_of X key) o.app.protocol) [] e.sent o.taken w)
    (hinn : ∃ w, Flows key hash (sender F (discovery_key_of X key) o.app.protocol)
      { receiver F (discovery_key_of X key) p with incoming := F.incoming io.stream } hand' o.sent
      e.taken w) : Paired F key hash (e.polled { p with io := io } []) o hand' where
  seat := ⟨hp.seat.side.congr rfl (fun _ hc => hc) hstream rfl, hp.seat.commands, hp.seat.unasked,
    hp.seat.owned, hp.seat.sending⟩
  other := hp.other
  roles := hp.roles
  out := hout
  inn := hinn

theorem paired_outbound_round (hX : X.Lawful) (hpanics : EncodesOrPanics X) (p : Protocol X σ) :
    MessageIo.OutboundRound fun io => Paired F key hash (e.polled { p with io := io } []) o [] where
  ready io hio := by
    obtain ⟨hinn, hout⟩ := F.poll_ready io.stream
    refine hio.io (F.lawful.poll_ready io.stream) ?_ ?_
    · rw [hout]
      exact hio.out
    · rw [hinn]
      exact hio.inn
  flush io hio := by
    obtain ⟨hinn, hout⟩ := F.poll_flush io.stream
    refine hio.io (F.lawful.poll_flush io.stream) ?_ ?_
    · rw [hout]
      exact hio.out
    · rw [hinn]
      exact hio.inn
  frame io messages write_queue hio hne hframe := by
    -- the frame that leaves the write queue joins the bytes on the way
    obtain ⟨w, hw⟩ := hio.out
    obtain ⟨bs, hwire, hsent⟩ := hw.frame hX hne hframe
    refine ⟨fun buf hbuf => ?_, fun err herr => ?_⟩
    · obtain ⟨rfl, hle⟩ := (hwire.to_encoded_bytes_iff hX buf).mp hbuf
      obtain ⟨hinn, hout⟩ := F.start_send io.stream buf
      refine hio.io (F.lawful.start_send io.stream buf) ⟨w, ?_⟩ ?_
      · rw [hout]
        exact hsent (Nat.lt_of_le_of_lt hle (by decide))
      · rw [hinn]
        exact hio.inn
    · -- a frame is never dropped with an error
      exfalso
      by_cases hle : bs.length ≤ ISIZE_MAX
      · exact nomatch ((hwire.to_encoded_bytes_iff hX bs).mpr ⟨rfl, hle⟩).symm.trans herr
      · exact hpanics (vec_codec X) messages bs.length err hwire.size (Nat.lt_of_not_le hle) herr

theorem paired_inbound_round (p : Protocol X σ) :
    MessageIo.InboundRound (fun io => Paired F key hash (e.polled { p with io := io } []) o [])
      fun messages io => Paired F key hash (e.polled { p with io := io } []) o messages where
  other io hio hno := by
    refine hio.io (F.lawful.poll_next io.stream) ?_ ?_
    · rw [F.poll_next_outgoing]
      exact hio.out
    · rw [F.poll_next_other io.stream hno]
      exact hio.inn
  message io bs hio hbs := by
    obtain ⟨w, hw⟩ := hio.inn
    obtain ⟨messages, hdec, hread⟩ := hw.reads (F.poll_next_message io.stream bs hbs)
    refine ⟨fun messages' rest hdec' => ?_, fun err herr => nomatch hdec.symm.trans herr⟩
    obtain ⟨rfl, -⟩ := Prod.mk.inj (Except.ok.inj (hdec.symm.trans hdec'))
    refine hio.io (F.lawful.poll_next io.stream) ?_ ⟨w, hread⟩
    rw [F.poll_next_outgoing]
    exact hio.out

/-- A handler has opened the key or heard of it. No channel was there before, so this one is the
only one. -/
theorem Seat.establishes (hseat : Seat key hash (e.polled p [])) (hside : Side {key} hash p')
    (hnone : (party p.channels).mine (discovery_key_of X key) = none ∨
      (party p.channels).theirs (discovery_key_of X key) = none)
    {q : Protocol X σ} (hevents : ∃ es, p'.queued_events = p.queued_events ++ es ∧
      ∀ c, Event.Channel c ∈ es → Establishes q p' c) :
    ∀ c, c ∈ (e.polled p' []).app.held ∨ Event.Channel c ∈ p'.queued_events →
      Owned p'.channels (discovery_key_of X key) c := by
  have hno : ∀ c, ¬ (c ∈ (e.polled p []).app.held ∨ Event.Channel c ∈ p.queued_events) := by
    intro c hc
    have hown := hseat.owned c hc
    rcases hnone with hnone | hnone
    · exact nomatch hnone.symm.trans hown.mine
    · exact hown.theirs hnone
  obtain ⟨es, hes, hest⟩ := hevents
  rintro c (hc | hc)
  · exact absurd (Or.inl hc) (hno c)
  · rw [hes] at hc
    rcases List.mem_append.mp hc with hc | hc
    · exact absurd (Or.inr hc) (hno c)
    · exact (hest c hc).owned hside

/-- A handler that does not open the key leaves its side in order, if the channels that
are there are the channels of the key. -/
theorem Seat.handled (hseat : Seat key hash (e.polled p [])) (hside : Side {key} hash p')
    (hcommand : p'.command_rx = p.command_rx)
    (hmine : (party p'.channels).mine = (party p.channels).mine)
    (howned : ∀ c, c ∈ (e.polled p' []).app.held ∨ Event.Channel c ∈ p'.queued_events →
      Owned p'.channels (discovery_key_of X key) c) : Seat key hash (e.polled p' []) where
  side := hside
  commands := by
    show p'.command_rx = [] ∨ p'.command_rx = [.Open key] ∧ (party p'.channels).mine _ = none
    rw [hcommand, hmine]
    exact hseat.commands
  unasked := by
    show e.asked = false → p'.command_rx = [] ∧ (party p'.channels).mine _ = none
    rw [hcommand, hmine]
    exact hseat.unasked
  owned := howned
  sending := hseat.sending

/-- The next message in hand is handled without an error, and the flow towards this side is one
message shorter. -/
theorem Paired.hears {msg : ChannelMessage X}
    (hp : Paired F key hash (e.polled p []) o (msg :: hand)) :
    ∃ p', (Protocol.on_inbound_message msg).run p = .ok () p' ∧
      Paired F key hash (e.polled p' []) o hand := by
  obtain ⟨win, hwin⟩ := hp.inn
  obtain ⟨wout, hwout⟩ := hp.out
  have hs : Side {key} hash p := hp.seat.side
  rcases hwin.hears with ⟨i, cap, w', rfl, hi, hcap, hnone, hflow⟩ |
    ⟨i, x, w', rfl, hx, hi, htheirs, hknown, hflow⟩
  · -- the `Open`
    have hexp : (party p.channels).Expected (.opened (discovery_key_of X key) i) := by
      refine ⟨hnone, fun d hd => ?_⟩
      obtain rfl := hs.only fun hno => nomatch hno.symm.trans hd
      exact nomatch hnone.symm.trans hd
    have hrole : o.app.protocol.is_initiator = !p.is_initiator := hp.roles
    obtain ⟨p', hrun, hheard⟩ := hs.hears_open (Set.injOn_singleton _ _) rfl hi
      (hrole ▸ hcap : (replicate_capability X (!p.is_initiator) key.val hash.val : Res IoError _)
        = .ok cap) hexp
    have hframe := hheard.effect.frame
    have hmine : (party p'.channels).mine = (party p.channels).mine := by
      rw [hheard.party]
      rfl
    have htold : (party p'.channels).theirs (discovery_key_of X key) = some i := by
      rw [hheard.party]
      exact Function.update_self _ _ _
    -- we may send now, and the flow towards us has moved on by the `Open`
    have hsend : sender F (discovery_key_of X key) p' =
        { sender F (discovery_key_of X key) p with theirs := some i } := by
      simp only [sender, hmine, htold, hframe.is_initiator, hframe.outbound_rx, hheard.write_queue,
        hframe.stream]
    have hreceive : receiver F (discovery_key_of X key) p' =
        { receiver F (discovery_key_of X key) p with theirs := some i } := by
      simp only [receiver, htold, hframe.stream, waiting_heard hs.wf hheard.effect,
        waiting_of_unconnected hs.wf (Or.inr hnone)]
    refine ⟨p', hrun, hp.seat.handled hheard.side hframe.command_rx hmine
      (hp.seat.establishes hheard.side (Or.inr hnone) (inbound_events hs.wf hheard.effect)),
      hp.other, ?_, ⟨wout, ?_⟩, w', ?_⟩
    · exact hrole.trans (congrArg (!·) hframe.is_initiator.symm)
    · exact hsend ▸ hwout.answered i
    · exact hreceive ▸ hflow
  · -- data: the key is open on both sides, so there is a queue for it
    have hmine : (party p.channels).mine (discovery_key_of X key) ≠ none :=
      hwout.mine_of_theirs hknown
    have hexp : (party p.channels).Expected (.data i) := by
      intro d hd
      obtain rfl := hs.only fun hno => nomatch hno.symm.trans hd
      exact hmine
    obtain ⟨p', hrun, hheard⟩ := hs.hears_data hi (is_open_or_close_of_is_data hx) hexp
    have heff := hheard.effect
    have hdata := is_open_or_close_of_is_data hx
    cases heff with
    | unknown _ hr =>
      rw [toNat_ofNat_id hi] at hr
      exact absurd htheirs (hs.get_remote_none hr _)
    | @delivered _ _ h n _ hr hn ha =>
      rw [toNat_ofNat_id hi] at hr
      obtain ⟨htheirs', hd⟩ := hs.get_remote hr
      rw [hs.only fun hno => nomatch hno.symm.trans htheirs'] at hd
      refine ⟨_, hrun, hp.seat.handled hheard.side rfl rfl fun c hc =>
        (hp.seat.owned c hc).of_same rfl, hp.other, hp.roles, hp.out, w', ?_⟩
      have hreceive : receiver F (discovery_key_of X key) { p with channels := { p.channels with
            shared := p.channels.shared.push n x } } =
          { receiver F (discovery_key_of X key) p with
            waiting := waiting p.channels (discovery_key_of X key) ++ [x] } := by
        rw [← waiting_push hd hn ha]
        rfl
      exact hreceive ▸ hflow
    | announced => exact nomatch hdata
    | accepted => exact nomatch hdata
    | close_unknown => exact nomatch hdata
    | closed => exact nomatch hdata

/-- The command opens the key, which it can do since the key was not asked for before. -/
theorem Paired.commands (hp : Paired F key hash (e.polled p []) o []) {command : Command}
    {rest : List Command} (hq : p.command_rx = command :: rest)
    (hleaves : Leaves (Protocol.on_command command) { p with command_rx := rest } p') :
    Paired F key hash (e.polled p' []) o [] := by
  obtain ⟨hqueue, hmine⟩ : p.command_rx = [.Open key] ∧
      (party p.channels).mine (discovery_key_of X key) = none := by
    rcases hp.seat.commands with hnil | hopen
    · exact nomatch hq.symm.trans hnil
    · exact hopen
  -- the only command a seat queues, and it was not handled before
  obtain ⟨rfl, rfl⟩ := List.cons.inj (hq.symm.trans hqueue)
  have hs : Side {key} hash ({ p with command_rx := [] } : Protocol X σ) :=
    hp.seat.side.congr rfl (fun _ hc => hc) (.refl _) rfl
  obtain ⟨i, msg, heff, hside, hwrite, hmsg, hparty, -⟩ :=
    hs.opens (Set.injOn_singleton _ _) rfl hmine hleaves
  obtain ⟨key', hkey, cap, -, hi, hcap, rfl⟩ := hmsg.opening rfl
  rw [Set.mem_singleton_iff.mp hkey] at hcap
  have hframe := heff.frame
  have hnew : (party p'.channels).mine (discovery_key_of X key) = some i := by
    rw [hparty]
    exact Function.update_self _ _ _
  have htheirs : (party p'.channels).theirs = (party p.channels).theirs := by
    rw [hparty]
    rfl
  have hpos : 1 ≤ i := by
    obtain ⟨h, hd, hl⟩ := Option.bind_eq_some_iff.mp hnew
    exact ((hside.wf.fits hd).local_slot hl).1
  have hevents := command_events hs.wf heff
  obtain ⟨w, hw⟩ := hp.out
  refine ⟨⟨hside, Or.inl hframe.command_rx, fun hunasked => ?_, ?_, hp.seat.sending⟩, hp.other, ?_,
    ⟨⟨i, [open_message i (discovery_key_of X key) (some cap)], [], []⟩, ?_⟩, ?_⟩
  · exact nomatch hqueue.symm.trans (hp.seat.unasked hunasked).1
  · exact hp.seat.establishes hside (Or.inl hmine) hevents
  · exact hp.roles.trans (congrArg (!·) hframe.is_initiator.symm)
  · have hsend : sender F (discovery_key_of X key) p' =
        { sender F (discovery_key_of X key) p with
          mine := some i
          write_queue := p.io.write_queue ++
            [open_message i (discovery_key_of X key) (some cap)] } := by
      simp only [sender, hnew, htheirs, hframe.is_initiator, hframe.outbound_rx, hwrite,
        hframe.stream]
    exact hsend ▸ hw.opens hmine hpos hi hcap
  · -- nothing is lost of the other direction: no data came before the key was open here
    have hempty : waiting p.channels (discovery_key_of X key) = [] :=
      waiting_of_unconnected hs.wf (Or.inl hmine)
    have hreceive : receiver F (discovery_key_of X key) p' =
        receiver F (discovery_key_of X key) p := by
      simp only [receiver, htheirs, hframe.stream, waiting_opened hs.wf heff, hempty]
    exact hreceive ▸ hp.inn

/-- A batch is written: its data moves from the outbound queue to the write queue, in order. -/
theorem Paired.batch (hp : Paired F key hash (e.polled p []) o [])
    {batch : List (ChannelMessage X)} {rest : List (List (ChannelMessage X))}
    (hq : p.outbound_rx = batch :: rest)
    (hleaves : Leaves (Protocol.on_outbound_batch batch) { p with outbound_rx := rest } p') :
    Paired F key hash (e.polled p' []) o [] := by
  obtain ⟨w, hw⟩ := hp.out
  obtain ⟨i, msgs, w', rfl, hmsgs, hflow⟩ := hw.batch hq
  have hs : Side {key} hash ({ p with outbound_rx := rest } : Protocol X σ) :=
    hp.seat.side.congr rfl (fun _ hc => hc) (.refl _) rfl
  obtain ⟨kept, q, heff, hrun⟩ := Protocol.on_outbound_batch_spec hs.wf (on_channel i msgs)
  obtain rfl := leaves_of_run_ok hrun hleaves
  -- data leaves the map alone; only its signals do not go to the remote
  obtain ⟨hsame, rfl⟩ := batch_of_data hmsgs heff
  have hframe := heff.frame
  have hparty : party q.channels = party p.channels := congrArg party hsame
  have hside : Side {key} hash q :=
    hs.batch heff (hsame.symm ▸ ⟨hs.fresh, hs.resolve⟩) (hsame.symm ▸ hs.all_open)
  refine ⟨hp.seat.handled (hside.with_write_queue _) hframe.command_rx
    (congrArg Party.mine hparty) fun c hc => ?_, hp.other, ?_, ⟨w', ?_⟩, ?_⟩
  · obtain ⟨es, hes, hno⟩ := batch_events heff
    refine (hp.seat.owned c (hc.imp_right fun hc => ?_)).of_same
      (congrArg ChannelMap.channels hsame)
    have hc : Event.Channel c ∈ q.queued_events := hc
    rw [hes] at hc
    exact (List.mem_append.mp hc).resolve_right (hno c)
  · exact hp.roles.trans (congrArg (!·) hframe.is_initiator.symm)
  · have hsend : sender F (discovery_key_of X key) ({ q with io := { q.io with
          write_queue := q.io.write_queue ++ on_channel i (msgs.filter Message.is_data) } } :
          Protocol X σ) =
        { sender F (discovery_key_of X key) p with
          outbound_rx := rest
          write_queue := p.io.write_queue ++ on_channel i (msgs.filter Message.is_data) } := by
      simp only [sender, hparty, hframe.is_initiator, hframe.outbound_rx, heff.io]
    exact hsend ▸ hflow
  · have hreceive : receiver F (discovery_key_of X key) ({ q with io := { q.io with
          write_queue := q.io.write_queue ++ on_channel i (msgs.filter Message.is_data) } } :
          Protocol X σ) = receiver F (discovery_key_of X key) p := by
      simp only [receiver, hsame, heff.io]
    exact hreceive ▸ hp.inn

/-- An event is returned, and a channel that it carries is held from then on. The flows do not
see it. -/
theorem Paired.emits (hp : Paired F key hash (e.polled p []) o []) {channels : List Channel}
    {events : List Event} {emitted : Bool}
    (hgiven : ∀ c, c ∈ channels ∨ Event.Channel c ∈ events →
      Event.Channel c ∈ p.queued_events) :
    Paired F key hash
      (e.polled { p with queued_events := events, handshake_emitted := emitted } channels)
      o [] where
  seat := by
    refine ⟨hp.seat.side.congr rfl (fun c hc => hgiven c (Or.inr hc)) (.refl _) rfl,
      hp.seat.commands, hp.seat.unasked, fun c hc => hp.seat.owned c ?_, fun x hx => ?_⟩
    · rcases hc with hc | hc
      · rcases List.mem_append.mp hc with hc | hc
        · exact Or.inl (List.mem_append_left _ hc)
        · exact Or.inr (hgiven c (Or.inl hc))
      · exact Or.inr (hgiven c (Or.inr hc))
    · obtain ⟨hheld, hbatch⟩ := hp.seat.sending x hx
      exact ⟨List.mem_append_left _ ((List.append_nil e.app.held) ▸ hheld), hbatch⟩
  other := hp.other
  roles := hp.roles
  out := hp.out
  inn := hp.inn

/-- The first queued event is returned. -/
theorem Paired.pops (hp : Paired F key hash (e.polled p []) o []) {event : Event}
    {rest : List Event} (hq : p.queued_events = event :: rest) :
    Paired F key hash (e.polled { p with queued_events := rest } (given (.ready event))) o [] := by
  refine hp.emits fun c hc => ?_
  rw [hq]
  rcases hc with hc | hc
  · cases event with
    | Channel c' =>
      rw [List.mem_singleton.mp hc]
      exact List.mem_cons_self
    | _ => exact absurd hc List.not_mem_nil
  · exact List.mem_cons_of_mem _ hc

/-- A poll keeps the pair, whether it returns an event, nothing, or an error. It is put together
from the parts of a poll above. -/
theorem Paired.polls (hX : X.Lawful) (hpanics : EncodesOrPanics X)
    (hp : Paired F key hash e o []) (fuel : ℕ) :
    Triple (· = e.app.protocol) (Protocol.poll_next fuel)
      (fun result p => Paired F key hash (e.polled p (given result)) o [])
      (fun p => Paired F key hash (e.polled p []) o []) := by
  -- each part of a poll keeps the pair, with the messages of a frame in hand while they
  -- are handled
  have hread : Keeps (fun p : Protocol X σ => Paired F key hash (e.polled p []) o [])
      (Protocol.poll_inbound_read fuel) := by
    refine Protocol.keeps_poll_inbound_read
      (D := fun hand p => Paired F key hash (e.polled p []) o hand)
      paired_inbound_round (Protocol.triple_on_inbound_channel_messages (fun msg hand p hp => ?_)
        fun _ hp => hp) fuel
    obtain ⟨p', hrun, hp'⟩ := hp.hears
    refine ⟨fun a q hq => ?_, fun e q hq => nomatch hrun.symm.trans hq⟩
    injection hrun.symm.trans hq with _ hpq
    exact hpq ▸ hp'
  have hcommands : Keeps (fun p : Protocol X σ => Paired F key hash (e.polled p []) o [])
      Protocol.poll_commands :=
    (Protocol.triple_poll_commands fun p command rest hp hq => keeps_of_leaves
      fun q p' hq' hl => hp.commands hq (hq' ▸ hl)).conseq (fun _ h => h) (fun _ _ h => h.1)
        fun _ h => h
  have hwrite : Keeps (fun p : Protocol X σ => Paired F key hash (e.polled p []) o [])
      Protocol.poll_outbound_write :=
    (Protocol.triple_poll_outbound_write (Protocol.keeps_on_io fun p =>
      MessageIo.keeps_poll_outbound (paired_outbound_round hX hpanics p))
      fun p batch rest hp hq => keeps_of_leaves fun q p' hq' hl =>
        hp.batch hq (hq' ▸ hl)).conseq (fun _ h => h) (fun _ _ h => h.1) fun _ h => h
  -- after the handshake a poll does not wait for it
  have hhandshake : Triple (fun p : Protocol X σ => Paired F key hash (e.polled p []) o [])
      (Protocol.poll_handshake fuel) (fun wait p => if wait = true then
        Paired F key hash (e.polled p (given .pending)) o []
        else Paired F key hash (e.polled p []) o [])
      fun p => Paired F key hash (e.polled p []) o [] := by
    refine (keeps_poll_handshake fuel fun p hp => ?_).conseq (fun _ hp => hp) (fun wait p hp => ?_)
      fun _ hp => hp
    · exact Option.isSome_iff_exists.mpr ⟨hash, hp.seat.side.handshake_hash⟩
    · show if wait = true then Paired F key hash (e.polled p []) o [] else _
      rwa [ite_self]
  refine (Protocol.triple_poll_next (J := fun p => Paired F key hash (e.polled p []) o [])
    (L := fun p => Paired F key hash (e.polled p []) o [])
    (R := fun p => Paired F key hash (e.polled p []) o [])
    (M := fun p => Paired F key hash (e.polled p []) o []) hhandshake
    (fun p _ hp _ _ => hp.emits fun c hc => hc.resolve_left List.not_mem_nil) (fun _ hp _ => hp)
    (fun p event rest hp hq => hp.pops hq)
    (hread.conseq (fun _ hp => hp.1) (fun _ _ h => h) fun _ h => h) hcommands hwrite
    (fun p event rest hp hq => hp.pops hq) fun _ hp _ => hp).conseq (fun p hpe => ?_)
    (fun _ _ h => h) fun _ h => h
  rw [hpe, e.polled_self]
  exact hp

/-! ## The steps of an application -/

/-- Other queues in the same places, with the same receivers, are no difference to one side by
itself. -/
theorem Side.with_inboxes {keys : Set Key} (hs : Side keys hash p) {inboxes : Arena (Inbox X)}
    (hnext : inboxes.next = p.channels.shared.inboxes.next)
    (hreceives : ∀ n, p.channels.receives n = true →
      (inboxes.read n).any Inbox.receiver_alive = true) :
    Side keys hash { p with channels := { p.channels with
      shared := { p.channels.shared with inboxes := inboxes } } } where
  wf := hs.wf.with_shared rfl hnext
  fresh := ⟨hs.fresh.local_slot, hs.fresh.remote_slot⟩
  resolve := hs.resolve
  local_len := hs.local_len
  listening n hn := hreceives n (hs.listening n (Nat.lt_of_lt_of_eq hn hnext))
  all_open := hs.all_open
  local_keys := hs.local_keys
  remote_keys := hs.remote_keys
  backed c hc := (hs.backed c hc).with_shared rfl hnext fun h => h
  handshake_hash := hs.handshake_hash
  remote_key := hs.remote_key

/-- A message is taken from the queue of the channel, the first that waits there. -/
theorem Paired.receives (hp : Paired F key hash e o []) (hc : c ∈ e.app.held) {n : ℕ}
    {msg : Message X} {rest : List (Message X)} {alive : Bool} (hn : c.inbound_rx = some n)
    (hread : e.app.protocol.channels.shared.inboxes.read n = some ⟨msg :: rest, alive⟩) :
    Paired F key hash { e with
      app := e.app.with_shared { e.app.protocol.channels.shared with
        inboxes := e.app.protocol.channels.shared.inboxes.update n fun _ => ⟨rest, alive⟩ }
      taken := e.taken ++ [msg] } o [] := by
  have hown := hp.seat.owned c (Or.inl hc)
  -- the queue of the channel is that of its entry
  obtain ⟨h, hd, hn'⟩ := Option.bind_eq_some_iff.mp (hown.inbound.trans hn)
  have hwaiting : waiting e.app.protocol.channels (discovery_key_of X key) = msg :: rest := by
    rw [waiting_of_some hd hn', inbox_queue, hread]
    rfl
  obtain ⟨w, hw⟩ := hp.inn
  refine ⟨⟨hp.seat.side.with_inboxes (Arena.next_update _ _ _) fun k hk => ?_, hp.seat.commands,
    hp.seat.unasked, fun c hc => (hp.seat.owned c hc).of_same rfl, hp.seat.sending⟩, hp.other,
    hp.roles, hp.out, w, ?_⟩
  · rw [ChannelMap.receives] at hk
    rw [Arena.read_update]
    split
    · rename_i heq
      rw [heq, hread] at hk
      rw [hread]
      exact hk
    · exact hk
  · have hleft : waiting { e.app.protocol.channels with shared :=
        { e.app.protocol.channels.shared with inboxes :=
          e.app.protocol.channels.shared.inboxes.update n fun _ => ⟨rest, alive⟩ } }
        (discovery_key_of X key) = rest :=
      Eq.trans (waiting_of_some (m := { e.app.protocol.channels with shared := _ }) hd hn')
        (inbox_queue_update hread _)
    have hflow := hw.takes hwaiting
    rw [← hleft] at hflow
    exact hflow

/-- Whatever the application does keeps the pair: one case for each of its calls. -/
theorem Paired.does (hX : X.Lawful) (hpanics : EncodesOrPanics X) (hp : Paired F key hash e o [])
    {a : PollAction X} {t : Session X σ} (hdoes : e.Does key a) (h : PollStep e.app a t) :
    Paired F key hash (e.after a t) o [] := by
  cases h with
  | net => exact hdoes.elim
  | poll h => exact (hp.polls hX hpanics _ _ rfl).1 _ _ h
  | failed h => exact (hp.polls hX hpanics _ _ rfl).2 _ _ h
  | app h hno =>
    cases h with
    | protocol => exact absurd rfl (hno _)
    | queue_command command =>
      obtain ⟨rfl, hasked⟩ := hdoes
      obtain ⟨hnil, hmine⟩ := hp.seat.unasked hasked
      refine ⟨⟨hp.seat.side.congr rfl (fun _ hc => hc) (.refl _) rfl, Or.inr ⟨?_, hmine⟩,
        (fun hno => nomatch hno), hp.seat.owned, hp.seat.sending⟩, hp.other, hp.roles, hp.out,
        hp.inn⟩
      show e.app.protocol.command_rx ++ [.Open key] = [.Open key]
      rw [hnil]
      rfl
    | send messages hc =>
      refine ⟨⟨hp.seat.side, hp.seat.commands, hp.seat.unasked, hp.seat.owned, fun x hx => ?_⟩,
        hp.other, hp.roles, hp.out, hp.inn⟩
      rcases List.mem_append.mp hx with hx | hx
      · exact hp.seat.sending x hx
      · rw [List.mem_singleton.mp hx]
        exact ⟨hc, messages, hdoes, rfl⟩
    | close => exact hdoes.elim
    | @enqueue l r x hsending _ =>
      -- what waits was accepted from this channel; now it counts as sent
      obtain ⟨hheld, msgs, hmsgs, hbatch⟩ := hp.seat.sending x (by rw [hsending]; simp)
      have hown := hp.seat.owned x.channel (Or.inl hheld)
      obtain ⟨w, hw⟩ := hp.out
      have hsent : x.batch.map ChannelMessage.message = msgs := by
        rw [hbatch, on_channel, List.map_map]
        exact List.map_id _
      refine ⟨⟨hp.seat.side.congr rfl (fun _ hc => hc) (.refl _) rfl, hp.seat.commands,
        hp.seat.unasked, hp.seat.owned, fun y hy => hp.seat.sending y ?_⟩, hp.other, hp.roles,
        ⟨{ w with batches := w.batches ++ [msgs] }, ?_⟩, hp.inn⟩
      · rw [hsending]
        exact ((List.sublist_cons_self x r).append_left l).subset hy
      · show Flows key hash { sender F (discovery_key_of X key) e.app.protocol with
          outbound_rx := e.app.protocol.outbound_rx ++ [x.batch] } _ [] (e.sent ++ _) _ _
        rw [hsent, hbatch]
        exact hw.sends hown.mine hown.theirs hmsgs
    | @abandon l r x hsending =>
      refine ⟨⟨hp.seat.side, hp.seat.commands, hp.seat.unasked, hp.seat.owned,
        fun y hy => hp.seat.sending y ?_⟩, hp.other, hp.roles, hp.out, hp.inn⟩
      rw [hsending]
      exact ((List.sublist_cons_self x r).append_left l).subset hy
    | store_closed => exact hdoes.elim
    | receive hc hn hread => exact hp.receives hc hn hread
    | drop_receiver => exact hdoes.elim
    | local_send => exact hdoes.elim

/-! ## The pair -/

variable {s s' : Bool → Endpoint X σ} {i : Bool}

theorem paired_of (i : Bool) (h : Paired F key hash (s i) (s !i) []) (j : Bool) :
    Paired F key hash (s j) (s !j) [] := by
  by_cases hj : j = i
  · rw [hj]
    exact h
  · have hj : j = !i := by
      cases i <;> cases j <;> simp_all
    rw [hj, Bool.not_not]
    exact h.symm

theorem Seat.with_stream (hs : Seat key hash e) {stream : σ}
    (hkeeps : KeepsHandshake e.app.protocol.io.stream stream) :
    Seat key hash (e.with_stream stream) :=
  ⟨hs.side.congr rfl (fun _ hc => hc) hkeeps rfl, hs.commands, hs.unasked, hs.owned, hs.sending⟩

/-- Frames pass between the connections, from the sink of one to the stream of the other. -/
theorem Paired.carries (hp : Paired F key hash e o []) {moved : List Bytes} {stream stream' : σ}
    (hkeeps : KeepsHandshake e.app.protocol.io.stream stream)
    (hkeeps' : KeepsHandshake o.app.protocol.io.stream stream')
    (hout : F.outgoing e.app.protocol.io.stream = moved ++ F.outgoing stream)
    (hinn : F.incoming stream = F.incoming e.app.protocol.io.stream)
    (hout' : F.outgoing stream' = F.outgoing o.app.protocol.io.stream)
    (hinn' : F.incoming stream' = F.incoming o.app.protocol.io.stream ++ moved) :
    Paired F key hash (e.with_stream stream) (o.with_stream stream') [] := by
  obtain ⟨wout, hwout⟩ := hp.out
  obtain ⟨win, hwin⟩ := hp.inn
  refine ⟨hp.seat.with_stream hkeeps, hp.other.with_stream hkeeps', hp.roles, ⟨wout, ?_⟩, win, ?_⟩
  · show Flows key hash { sender F (discovery_key_of X key) e.app.protocol with
      outgoing := F.outgoing stream } { receiver F (discovery_key_of X key) o.app.protocol with
        incoming := F.incoming stream' } _ _ _ _
    rw [hinn']
    exact hwout.carries hout
  · show Flows key hash { sender F (discovery_key_of X key) o.app.protocol with
      outgoing := F.outgoing stream' } { receiver F (discovery_key_of X key) e.app.protocol with
        incoming := F.incoming stream } _ _ _ _
    rw [hout', hinn]
    exact hwin

theorem paired_step (hX : X.Lawful) (hpanics : EncodesOrPanics X)
    (hs : ∀ i, Paired F key hash (s i) (s !i) []) {a : PairAction X} (h : PairStep F key s a s') :
    ∀ i, Paired F key hash (s' i) (s' !i) [] := by
  cases h with
  | @app i a t hdoes h =>
    refine paired_of i ?_
    rw [Function.update_self, Function.update_of_ne (Bool.not_ne_self i)]
    exact (hs i).does hX hpanics hdoes h
  | @carries i moved stream stream' hkeeps hkeeps' hout hinn hout' hinn' =>
    refine paired_of i ?_
    rw [Function.update_of_ne (Bool.not_ne_self i).symm, Function.update_self, Function.update_self]
    exact (hs i).carries hkeeps hkeeps' hout hinn hout' hinn'

/-- At the start nothing is on the way, and the flows are empty. -/
theorem paired_of_unused (h : Unused F hash s) (i : Bool) : Paired F key hash (s i) (s !i) [] := by
  have hjoined : Joined {key} hash fun i => (s i).app.protocol :=
    joined_of_handshaken h.handshaken
  have hparty : ∀ i, party (s i).app.protocol.channels = ⟨fun _ => none, fun _ => none⟩ := by
    intro i
    rw [h.handshaken.channels i]
    rfl
  have hseat : ∀ i, Seat key hash (s i) := by
    intro i
    refine ⟨hjoined.side i, Or.inl (h.command_rx i), fun _ => ⟨h.command_rx i, ?_⟩, fun c hc => ?_,
      fun x hx => ?_⟩
    · rw [hparty i]
    · rw [h.held i, h.handshaken.queued_events i] at hc
      exact absurd hc (by simp)
    · rw [h.sending i] at hx
      exact absurd hx List.not_mem_nil
  -- no key is open, and all queues and the connection are empty
  have hflow : ∀ i j, Flows key hash (sender F (discovery_key_of X key) (s i).app.protocol)
      (receiver F (discovery_key_of X key) (s j).app.protocol) [] (s i).sent (s j).taken
      ⟨0, [], [], []⟩ := by
    intro i j
    refine ⟨⟨[], ?_, ?_⟩, h.outbound_rx i, (fun _ hm => absurd hm List.not_mem_nil),
      (fun _ hm => absurd hm List.not_mem_nil), ?_, fun _ => h.sent i, ?_⟩
    · show Decode (F.incoming _ ++ F.outgoing _) []
      rw [h.incoming, h.outgoing]
      exact .nil
    · exact h.handshaken.write_queue i
    · show Phase key hash _ ((party _).mine _) ((party _).theirs _) _
      rw [hparty i, hparty j]
      exact .unopened
    · show _ = _ ++ (waiting _ _ ++ _)
      rw [h.sent i, h.taken j, waiting_of_unconnected (hjoined.side j).wf (by rw [hparty j]; simp)]
      rfl
  exact ⟨hseat i, hseat !i, h.handshaken.roles i, ⟨_, hflow i !i⟩, _, hflow (!i) i⟩

/-! ## A run that is computed -/

/-- What an application is told to do: with the first channel it holds, and the first send
that waits. -/
inductive Order (X : Deps) where
  | opens
  | polls
  | sends (messages : List (Message X))
  | enqueues
  | takes

/-- The call that an order is for an endpoint. -/
def Order.call (key : Key) (e : Endpoint X Memory) : Order X → Option (Call X)
  | .opens => if e.asked = false then some (.command (.Open key)) else none
  | .polls => some (.poll 3)
  | .sends messages =>
    if ∀ msg ∈ messages, msg.is_open_or_close = false then
      e.app.held.head?.map (Call.send · messages)
    else none
  | .enqueues => some .enqueue
  | .takes => e.app.held.head?.map Call.receive

/-- The endpoint after an order, if it can be followed. -/
def Endpoint.follow (key : Key) (e : Endpoint X Memory) (order : Order X) :
    Option (PollAction X × Endpoint X Memory) := do
  let call ← order.call key e
  let (a, t) ← e.app.call call
  return (a, e.after a t)

/-- The call of an order is one that the application makes. -/
theorem Order.call_does {e : Endpoint X Memory} {order : Order X} {call : Call X}
    {a : PollAction X} {t : Session X Memory} (hcall : order.call key e = some call)
    (h : e.app.call call = some (a, t)) : e.Does key a := by
  cases order with
  | opens =>
    rw [Order.call, Option.ite_none_right_eq_some] at hcall
    obtain ⟨hasked, heq⟩ := hcall
    obtain rfl := Option.some.inj heq
    rw [Session.call, Option.ite_none_right_eq_some] at h
    obtain ⟨rfl, -⟩ := Prod.mk.inj (Option.some.inj h.2)
    exact ⟨rfl, hasked⟩
  | polls =>
    obtain rfl := Option.some.inj hcall
    obtain ⟨result, rfl⟩ := (poll_once_step h).2
    exact trivial
  | sends messages =>
    rw [Order.call, Option.ite_none_right_eq_some, Option.map_eq_some_iff] at hcall
    obtain ⟨hmessages, c, -, rfl⟩ := hcall
    rw [Session.call, Option.ite_none_right_eq_some] at h
    obtain ⟨rfl, -⟩ := Prod.mk.inj (Option.some.inj h.2)
    exact hmessages
  | enqueues =>
    obtain rfl := Option.some.inj hcall
    rw [Session.call] at h
    split at h
    · cases h
    · rw [Option.ite_none_right_eq_some] at h
      obtain ⟨rfl, -⟩ := Prod.mk.inj (Option.some.inj h.2)
      exact trivial
  | takes =>
    obtain ⟨c, -, rfl⟩ := Option.map_eq_some_iff.mp hcall
    simp only [Session.call, Option.bind_eq_bind, Option.bind_eq_some_iff] at h
    obtain ⟨n, -, h⟩ := h
    split at h
    · rw [Option.ite_none_right_eq_some] at h
      obtain ⟨rfl, -⟩ := Prod.mk.inj (Option.some.inj h.2)
      exact trivial
    · cases h

/-- The lists of a connection in memory are first in, first out: frames are put at one end and
taken from the other. -/
def memory_fifo : FifoCipher Memory where
  lawful := memory_lawful
  incoming := Memory.incoming
  outgoing := Memory.outgoing
  poll_next_message stream bs h := by
    rcases stream.poll_next_cases with ⟨hash, frame, incoming, -, hincoming, hnext⟩ | hnext
    · rw [hnext] at h ⊢
      obtain rfl : frame = bs := CipherEvent.Message.inj (Option.some.inj (Poll.ready.inj h))
      exact hincoming
    · rw [hnext] at h
      cases h
  poll_next_other stream h := by
    rcases stream.poll_next_cases with ⟨hash, frame, incoming, -, -, hnext⟩ | hnext
    · exact absurd (congrArg Prod.fst hnext) (h frame)
    · rw [hnext]
  poll_next_outgoing stream := by
    rcases stream.poll_next_cases with ⟨hash, frame, incoming, -, -, hnext⟩ | hnext
    · rw [hnext]
    · rw [hnext]
  poll_ready stream := ⟨rfl, rfl⟩
  poll_flush stream := ⟨rfl, rfl⟩
  start_send stream bs := ⟨rfl, rfl⟩

/-- One side follows an order, or all its frames pass to the other. With this a run of two
endpoints can be computed. -/
def follow (key : Key) (s : Bool → Endpoint X Memory) :
    Bool × Option (Order X) → Option (PairAction X × (Bool → Endpoint X Memory))
  | (i, some order) => do
    let (a, e) ← (s i).follow key order
    return (.app i a, Function.update s i e)
  | (i, none) =>
    let a := (s i).app.protocol.io.stream
    let b := (s !i).app.protocol.io.stream
    some (.carries i a.outgoing,
      Function.update (Function.update s i ((s i).with_stream { a with outgoing := [] })) (!i)
        ((s !i).with_stream { b with incoming := b.incoming ++ a.outgoing }))

theorem follow_step {s s' : Bool → Endpoint X Memory} {order : Bool × Option (Order X)}
    {a : PairAction X} (h : follow key s order = some (a, s')) :
    PairStep memory_fifo key s a s' := by
  obtain ⟨i, order⟩ := order
  cases order with
  | some order =>
    simp only [follow, Endpoint.follow, Option.bind_eq_bind, Option.bind_eq_some_iff] at h
    obtain ⟨⟨b, e⟩, ⟨call, hcall, ⟨b', t⟩, ht, heq⟩, hs'⟩ := h
    obtain ⟨rfl, rfl⟩ := Prod.mk.inj (Option.some.inj heq)
    obtain ⟨rfl, rfl⟩ := Prod.mk.inj (Option.some.inj hs')
    exact .app (Order.call_does hcall ht) (call_step ht)
  | none =>
    obtain ⟨rfl, rfl⟩ := Prod.mk.inj (Option.some.inj h)
    exact .carries (.refl _) (.refl _) (List.append_nil _).symm rfl rfl rfl

/-! ## Delivery -/

/-- Two applications open `key` once on each side, send on the channel they get, receive
and poll in any order, over connections that are first in, first out, with sinks that are
ready whenever they like. What one of them has received is always a prefix of what the
other has sent, without its local signals. And when nothing is left in the outbound queue,
in the write queue and on the connection, everything sent has reached the channel. -/
theorem channel_delivers_once (hX : X.Lawful) (hpanics : EncodesOrPanics X)
    {s₀ : Bool → Endpoint X σ} (h₀ : Unused F hash s₀)
    {tr : List (Transition (Bool → Endpoint X σ) (PairAction X))}
    (run : Run (PairStep F key) s₀ tr s) (i : Bool) :
    (s !i).taken ++ waiting (s !i).app.protocol.channels (discovery_key_of X key)
        <+: (s i).sent.filter Message.is_data ∧
    (s !i).taken <+: (s i).sent.filter Message.is_data ∧
    ((s i).app.protocol.outbound_rx = [] → (s i).app.protocol.io.write_queue = [] →
      F.outgoing (s i).app.protocol.io.stream = [] →
      F.incoming (s !i).app.protocol.io.stream = [] →
      (s !i).taken ++ waiting (s !i).app.protocol.channels (discovery_key_of X key)
        = (s i).sent.filter Message.is_data) := by
  have hs : ∀ i, Paired F key hash (s i) (s !i) [] :=
    run.invariant (I := fun _ s => ∀ i, Paired F key hash (s i) (s !i) [])
      (paired_of_unused h₀) fun _ _ _ _ _ hs h => paired_step hX hpanics hs h
  obtain ⟨w, hw⟩ := (hs i).out
  have harrived := hw.arrived_part
  exact ⟨harrived, (List.prefix_append _ _).trans harrived,
    fun hout hwrite houtgoing hincoming => hw.arrived hout hwrite houtgoing hincoming⟩

/-- Each side opens the key, one sends two messages and a local signal, and the other
receives one of them while the other one waits in its channel. The sink of the sender is
not ready at first, and its `Open` goes out after it has heard the other's. -/
theorem channel_delivers_once_signal :
    ∃ tr, ∃ s : Bool → Endpoint deps Memory,
      Run (PairStep memory_fifo (sample 1)) (fun i =>
        ⟨Session.new { Memory.connected i with schedule := [!i] }, false, [], []⟩) tr s ∧
      (s true).sent.length = 3 ∧ (s false).taken.length = 1 ∧
      (s false).taken ++ waiting (s false).app.protocol.channels (discovery_key_of deps (sample 1))
        = (s true).sent.filter Message.is_data := by
  have hcomputed : ((execute (follow (X := deps) (sample 1)) (fun i =>
      ⟨Session.new { Memory.connected i with schedule := [!i] }, false, [], []⟩)
      [(true, some .opens), (true, some .polls), (true, some .polls),
      (false, some .opens), (false, some .polls), (false, some .polls), (false, none),
      (true, some .polls), (true, none), (false, some .polls),
      (true, some (.sends [.Cancel ⟨5⟩, .LocalSignal PROTOCOL_NAME .empty, .Cancel ⟨0⟩])),
      (true, some .enqueues), (true, some .polls), (true, none), (false, some .polls),
      (false, some .takes)]).any fun r =>
      (r.2 true).sent.length == 3 && (r.2 false).taken.length == 1 &&
      (r.2 true).app.protocol.outbound_rx.isEmpty &&
      (r.2 true).app.protocol.io.write_queue.isEmpty &&
      (r.2 true).app.protocol.io.stream.outgoing.isEmpty &&
      (r.2 false).app.protocol.io.stream.incoming.isEmpty) = true := by
    decide +kernel
  obtain ⟨⟨tr, s⟩, hs, hfinal⟩ := (Option.any_eq_true _ _).mp hcomputed
  simp only [Bool.and_eq_true, beq_iff_eq, List.isEmpty_iff] at hfinal
  obtain ⟨⟨⟨⟨⟨hsent, htaken⟩, hout⟩, hwrite⟩, houtgoing⟩, hincoming⟩ := hfinal
  have run := (execute_run (C := fun _ => True) hs fun _ _ _ _ h => ⟨follow_step h, trivial⟩).1
  have hstart : Unused (X := deps) memory_fifo (to_vec (sample 0)) fun i =>
      ⟨Session.new { Memory.connected i with schedule := [!i] }, false, [], []⟩ :=
    ⟨⟨fun _ => rfl, fun _ => rfl, fun _ => rfl, fun _ => rfl, fun _ => rfl, fun _ => rfl⟩,
      fun _ => rfl, fun _ => rfl, fun _ => rfl, fun _ => rfl, fun _ => rfl, fun _ => rfl,
      fun _ => rfl, fun _ => rfl, fun _ => rfl⟩
  exact ⟨tr, s, run, hsent, htaken, (channel_delivers_once deps_lawful deps_encodesOrPanics
    hstart run true).2.2 hout hwrite houtgoing hincoming⟩

end hypercore_protocol.session
