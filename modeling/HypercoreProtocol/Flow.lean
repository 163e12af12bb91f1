/-
What is on the way.

Two protocols have one key open between them, and their applications send. A message
passes five places on its way from one application to the other: the outbound queue, the
write queue, the frames on the connection, the hands of a poll that has decoded a frame
and deals out its messages, and the inbound queue of the channel. The invariant (`Flows`)
is that the messages in these places, one after the other, are what was sent and is not
received yet. Which of them travel together in a frame depends on when the sink was ready;
the invariant holds for any division, since every frame decodes to the messages it was
made of.

What makes it more than a statement about queues is the `Open` at the head. The id that
the messages go under means something to the other side only after it has handled that
`Open`, and data can follow it closely.
-/
import HypercoreProtocol.Peers

set_option autoImplicit false

namespace hypercore_protocol.session

open Rust Method Wire Runs Link schema message channels mqueue protocol crypto compact_encoding

variable {X : Deps} {σ : Type} [CipherTrait σ]

/-! ## What is on the way -/

/-- What a flow of messages sees of the side that sends: its ids for the key, its queues, and
what is on its sink. -/
structure Sender (X : Deps) where
  /-- The id of the key here, and the one of the other side if its `Open` was handled. -/
  mine : Option ℕ
  theirs : Option ℕ
  is_initiator : Bool
  outbound_rx : List (List (ChannelMessage X))
  write_queue : List (ChannelMessage X)
  /-- The frames that the sink has taken. -/
  outgoing : List Bytes

/-- What it sees of the side that receives: the id it was told, what waits in the channel, and what
is on its stream. -/
structure Receiver (X : Deps) where
  theirs : Option ℕ
  /-- The messages in the inbound queue of the channel. -/
  waiting : List (Message X)
  /-- The frames that the stream is going to return. -/
  incoming : List Bytes

/-- What is on the way: an `Open` that is not handled yet, the data behind it, and the
batches that wait in the outbound queue. -/
structure Cargo (X : Deps) where
  id : ℕ
  opening : List (ChannelMessage X)
  data : List (Message X)
  batches : List (List (Message X))

/-- How far the two sides are with the key: the id it has at the sender, and the one the
receiver has heard of. -/
inductive Phase (key : Key) (hash : Vec UInt8) (is_initiator : Bool) :
    Option ℕ → Option ℕ → Cargo X → Prop where
  | unopened {i : ℕ} : Phase key hash is_initiator none none ⟨i, [], [], []⟩
  | announced {i : ℕ} {cap : Vec UInt8} {data : List (Message X)}
      {batches : List (List (Message X))} (hpos : 1 ≤ i) (hi : i < Vec.max_len SLOT_SIZE)
      (hcap : (replicate_capability X is_initiator key.val hash.val : Res IoError _) = .ok cap) :
      Phase key hash is_initiator (some i) none
        ⟨i, [open_message i (discovery_key_of X key) (some cap)], data, batches⟩
  | heard {i : ℕ} {data : List (Message X)} {batches : List (List (Message X))} (hpos : 1 ≤ i)
      (hi : i < Vec.max_len SLOT_SIZE) :
      Phase key hash is_initiator (some i) (some i) ⟨i, [], data, batches⟩

/-- The frames decode to these messages, each of them completely. -/
def Decode (frames : List Bytes) (msgs : List (List (ChannelMessage X))) : Prop :=
  List.Forall₂ (fun bs L => vec_decode X bs = .ok (L, [])) frames msgs

/-- `w` is on the way from `a` to `b`. The receiver has `hand` in its hands, `sent` was
sent so far and `taken` was received. -/
structure Flows (key : Key) (hash : Vec UInt8) (a : Sender X) (b : Receiver X)
    (hand : List (ChannelMessage X)) (sent taken : List (Message X)) (w : Cargo X) : Prop where
  link : ∃ msgs, Decode (b.incoming ++ a.outgoing) msgs ∧
    hand ++ (msgs.flatten ++ a.write_queue) = w.opening ++ on_channel w.id w.data
  outbound : a.outbound_rx = w.batches.map (on_channel w.id)
  data : ∀ msg ∈ w.data, msg.is_data = true
  batches : ∀ batch ∈ w.batches, ∀ msg ∈ batch, msg.is_open_or_close = false
  phase : Phase key hash a.is_initiator a.mine b.theirs w
  /-- Nothing is sent before the other side has opened. -/
  silent : a.theirs = none → sent = []
  account : sent.filter Message.is_data =
    taken ++ (b.waiting ++ (w.data ++ w.batches.flatten.filter Message.is_data))

variable {key : Key} {hash : Vec UInt8} {a : Sender X} {b : Receiver X}
  {hand : List (ChannelMessage X)} {sent taken : List (Message X)} {w : Cargo X}
  {is_initiator : Bool} {mine theirs : Option ℕ}

/-- Once the key has an id, any data may go under it, whatever is on the way already. -/
theorem Phase.loaded (h : Phase key hash is_initiator mine theirs w) {i : ℕ}
    (hmine : mine = some i) :
    w.id = i ∧ ∀ data batches,
      Phase key hash is_initiator mine theirs ⟨w.id, w.opening, data, batches⟩ := by
  cases h with
  | unopened => exact nomatch hmine
  | announced hpos hi hcap =>
    exact ⟨Option.some.inj hmine, fun _ _ => .announced hpos hi hcap⟩
  | heard hpos hi => exact ⟨Option.some.inj hmine, fun _ _ => .heard hpos hi⟩

theorem Phase.id_lt (h : Phase key hash is_initiator mine theirs w) (hmine : mine ≠ none) :
    1 ≤ w.id ∧ w.id < Vec.max_len SLOT_SIZE := by
  cases h with
  | unopened => exact absurd rfl hmine
  | announced hpos hi => exact ⟨hpos, hi⟩
  | heard hpos hi => exact ⟨hpos, hi⟩

/-! ### The sending side -/

/-- The key is opened here: the `Open` is the first thing on the way, and nothing was sent before
it. -/
theorem Flows.opens (h : Flows key hash a b [] sent taken w) (hmine : a.mine = none) {i : ℕ}
    {cap : Vec UInt8} (hpos : 1 ≤ i) (hi : i < Vec.max_len SLOT_SIZE)
    (hcap : (replicate_capability X a.is_initiator key.val hash.val : Res IoError _) = .ok cap) :
    Flows key hash { a with
        mine := some i
        write_queue := a.write_queue ++ [open_message i (discovery_key_of X key) (some cap)] }
      b [] sent taken ⟨i, [open_message i (discovery_key_of X key) (some cap)], [], []⟩ := by
  obtain ⟨⟨msgs, hdecode, hpipe⟩, hout, -, -, hphase, hsilent, haccount⟩ := h
  rw [hmine] at hphase
  generalize htheirs : b.theirs = heard at hphase
  cases hphase with
  | unopened =>
    refine ⟨⟨msgs, hdecode, ?_⟩, hout, (fun _ hm => absurd hm List.not_mem_nil),
      (fun _ hm => absurd hm List.not_mem_nil), htheirs ▸ .announced hpos hi hcap, hsilent,
      haccount⟩
    have hnil : msgs.flatten ++ a.write_queue = [] := hpipe
    rw [← List.append_assoc msgs.flatten, hnil]
    rfl

/-- The other side has opened, as far as this one knows. This changes nothing on the way from
here to there. -/
theorem Flows.answered (h : Flows key hash a b hand sent taken w) (r : ℕ) :
    Flows key hash { a with theirs := some r } b hand sent taken w :=
  ⟨h.link, h.outbound, h.data, h.batches, h.phase, (fun hno => nomatch hno), h.account⟩

/-- The application sends: its batch is the last thing on the way. -/
theorem Flows.sends (h : Flows key hash a b hand sent taken w) {i : ℕ} (hmine : a.mine = some i)
    (htheirs : a.theirs ≠ none) {msgs : List (Message X)}
    (hmsgs : ∀ msg ∈ msgs, msg.is_open_or_close = false) :
    Flows key hash { a with outbound_rx := a.outbound_rx ++ [on_channel i msgs] } b hand
      (sent ++ msgs) taken { w with batches := w.batches ++ [msgs] } := by
  obtain ⟨hlink, hout, hdata, hbatches, hphase, hsilent, haccount⟩ := h
  obtain ⟨rfl, hphase'⟩ := hphase.loaded hmine
  refine ⟨hlink, ?_, hdata, ?_, hphase' _ _, fun hno => absurd hno htheirs, ?_⟩
  · rw [hout, List.map_append]
    rfl
  · intro batch hbatch
    rcases List.mem_append.mp hbatch with hbatch | hbatch
    · exact hbatches batch hbatch
    · rw [List.mem_singleton.mp hbatch]
      exact hmsgs
  · rw [List.filter_append, haccount, List.flatten_append, List.flatten_singleton,
      List.filter_append]
    simp only [List.append_assoc]

/-- A batch goes from the outbound queue to the write queue, without its local signals. -/
theorem Flows.batch (h : Flows key hash a b hand sent taken w)
    {batch : List (ChannelMessage X)} {rest : List (List (ChannelMessage X))}
    (hq : a.outbound_rx = batch :: rest) :
    ∃ i msgs w', batch = on_channel i msgs ∧
      (∀ msg ∈ msgs, msg.is_open_or_close = false) ∧
      Flows key hash { a with
        outbound_rx := rest
        write_queue := a.write_queue ++ on_channel i (msgs.filter Message.is_data) }
        b hand sent taken w' := by
  obtain ⟨⟨frames, hdecode, hpipe⟩, hout, hdata, hbatches, hphase, hsilent, haccount⟩ := h
  obtain ⟨i, opening, data, batches⟩ := w
  cases batches with
  | nil => exact nomatch hq.symm.trans hout
  | cons msgs batches =>
    obtain ⟨rfl, rfl⟩ := List.cons.inj (hq.symm.trans hout)
    -- batches are only there once the key was opened, so the data follows the `Open`
    obtain ⟨l, hmine⟩ : ∃ l, a.mine = some l := by
      generalize a.mine = mine, b.theirs = theirs at hphase
      cases hphase with
      | announced => exact ⟨_, rfl⟩
      | heard => exact ⟨_, rfl⟩
    refine ⟨i, msgs, ⟨i, opening, data ++ msgs.filter Message.is_data, batches⟩, rfl,
      hbatches msgs List.mem_cons_self, ⟨frames, hdecode, ?_⟩, rfl, ?_, ?_,
      (hphase.loaded hmine).2 _ _, hsilent, ?_⟩
    · rw [← List.append_assoc frames.flatten, ← List.append_assoc hand, hpipe]
      simp only [on_channel, List.map_append, List.append_assoc]
    · intro msg hmsg
      rcases List.mem_append.mp hmsg with hmsg | hmsg
      · exact hdata msg hmsg
      · exact (List.mem_filter.mp hmsg).2
    · exact fun batch hbatch => hbatches batch (List.mem_cons_of_mem _ hbatch)
    · rw [haccount]
      simp only [List.flatten_cons, List.filter_append, List.append_assoc]

/-- What is on the way can be sent in any pieces that keep the `Open` by itself. -/
theorem Phase.unswitched (hphase : Phase key hash is_initiator mine theirs w)
    (hdata : ∀ msg ∈ w.data, msg.is_data = true)
    {messages : List (ChannelMessage X)} (hne : messages ≠ [])
    (hmem : ∀ msg ∈ messages, msg ∈ w.opening ++ on_channel w.id w.data)
    (hshape : (∃ msg, messages = [msg]) ∨
      ∀ msg ∈ messages, msg.message.is_open_or_close = false) : UnswitchedFrame messages := by
  have hpos : w.data ≠ [] → 1 ≤ UInt64.ofNat w.id := by
    intro hw
    have hid : 1 ≤ w.id ∧ w.id < Vec.max_len SLOT_SIZE := by
      refine hphase.id_lt ?_
      rintro rfl
      cases hphase
      exact hw rfl
    rw [UInt64.le_iff_toNat_le, toNat_ofNat_id hid.2]
    exact hid.1
  -- a message that is no `Open` is data under the id
  have hon : ∀ msg ∈ messages, msg ∉ w.opening →
      msg.message.is_data = true ∧ msg.channel = UInt64.ofNat w.id ∧ w.data ≠ [] := by
    intro msg hmsg hnot
    rcases List.mem_append.mp (hmem msg hmsg) with h | h
    · exact absurd h hnot
    · obtain ⟨x, hx, rfl⟩ := List.mem_map.mp h
      exact ⟨hdata x hx, rfl, List.ne_nil_of_mem hx⟩
  have hsingle : ∀ msg, messages = [msg] → UnswitchedFrame messages := by
    rintro msg rfl
    by_cases hmsg : msg ∈ w.opening
    · cases hphase with
      | unopened => exact absurd hmsg List.not_mem_nil
      | @announced i cap _ _ _ _ hcap =>
        obtain rfl := List.mem_singleton.mp hmsg
        refine .opening ⟨UInt64.ofNat i, PROTOCOL_NAME, to_vec (discovery_key_of X key), some cap⟩
          (discovery_key_of X key).property fun c hc => ?_
        rw [← Option.some.inj hc]
        exact replicate_capability_length hcap
      | heard => exact absurd hmsg List.not_mem_nil
    · obtain ⟨hd, hc, hw⟩ := hon msg List.mem_cons_self hmsg
      exact .single msg hd (hc ▸ hpos hw)
  rcases hshape with ⟨msg, hmsg⟩ | hnone
  · exact hsingle msg hmsg
  · have hall : ∀ msg ∈ messages, msg ∉ w.opening := by
      intro msg hmsg hopen
      cases hphase with
      | unopened => exact absurd hopen List.not_mem_nil
      | announced =>
        rw [List.mem_singleton.mp hopen] at hmsg
        exact nomatch hnone _ hmsg
      | heard => exact absurd hopen List.not_mem_nil
    match messages, hne with
    | [msg], _ => exact hsingle msg rfl
    | msg :: msg' :: messages, _ =>
      have hw := (hon msg List.mem_cons_self (hall msg List.mem_cons_self)).2.2
      exact .batch (UInt64.ofNat w.id) _ (Nat.le_add_left _ _) (hpos hw)
        (fun m hm => (hon m hm (hall m hm)).1) fun m hm => (hon m hm (hall m hm)).2.1

/-- A frame goes to the sink. Whatever it takes along, it decodes to, since all its data is on
one channel. -/
theorem Flows.frame (hX : X.Lawful) (h : Flows key hash a b hand sent taken w)
    {messages write_queue : List (ChannelMessage X)} (hne : a.write_queue ≠ [])
    (hframe : next_frame [] a.write_queue = (messages, write_queue)) :
    ∃ bs, FrameWire messages bs ∧ (bs.length < 2 ^ 64 →
      Flows key hash { a with write_queue := write_queue, outgoing := a.outgoing ++ [bs] } b hand
        sent taken w) := by
  obtain ⟨⟨msgs, hdecode, hpipe⟩, hout, hdata, hbatches, hphase, hsilent, haccount⟩ := h
  -- the frame is a front part of the write queue
  have hsplit : messages ++ write_queue = a.write_queue := by
    have hself := next_frame_append [] a.write_queue
    rwa [hframe] at hself
  have hshape := next_frame_shape [] a.write_queue fun _ hm => absurd hm List.not_mem_nil
  have hsome := next_frame_ne_nil hne
  rw [hframe] at hshape hsome
  have hmem : ∀ msg ∈ messages, msg ∈ w.opening ++ on_channel w.id w.data := by
    intro msg hmsg
    rw [← hpipe, ← hsplit]
    simp only [List.mem_append, hmsg, true_or, or_true]
  obtain ⟨bs, hwire, hdec⟩ := (hphase.unswitched hdata hsome hmem hshape).travels hX
  refine ⟨bs, hwire, fun hfit => ⟨⟨msgs ++ [messages], ?_, ?_⟩, hout, hdata, hbatches, hphase,
    hsilent, haccount⟩⟩
  · rw [← List.append_assoc]
    exact List.rel_append hdecode (.cons (hdec hfit) .nil)
  · rw [List.flatten_append, List.flatten_singleton, List.append_assoc, hsplit]
    exact hpipe

/-! ### The connection and the receiving side -/

/-- Frames pass from the sink of one side to the stream of the other, in order and unchanged. -/
theorem Flows.carries (h : Flows key hash a b hand sent taken w) {moved outgoing : List Bytes}
    (hmoved : a.outgoing = moved ++ outgoing) :
    Flows key hash { a with outgoing := outgoing } { b with incoming := b.incoming ++ moved } hand
      sent taken w := by
  obtain ⟨⟨msgs, hdecode, hpipe⟩, hout, hdata, hbatches, hphase, hsilent, haccount⟩ := h
  refine ⟨⟨msgs, ?_, hpipe⟩, hout, hdata, hbatches, hphase, hsilent, haccount⟩
  rw [List.append_assoc, ← hmoved]
  exact hdecode

/-- The next frame is read, and its messages are in hand. -/
theorem Flows.reads (h : Flows key hash a b [] sent taken w) {bs : Bytes} {incoming : List Bytes}
    (hnext : b.incoming = bs :: incoming) :
    ∃ messages, vec_decode X bs = .ok (messages, []) ∧
      Flows key hash a { b with incoming := incoming } messages sent taken w := by
  obtain ⟨⟨msgs, hdecode, hpipe⟩, hout, hdata, hbatches, hphase, hsilent, haccount⟩ := h
  rw [hnext] at hdecode
  cases hdecode with
  | @cons _ messages _ rest hhead htail =>
    refine ⟨messages, hhead, ⟨rest, htail, ?_⟩, hout, hdata, hbatches, hphase, hsilent, haccount⟩
    rw [← hpipe, List.flatten_cons, List.append_assoc]
    rfl

/-- The application takes a message, the first that waits. -/
theorem Flows.takes (h : Flows key hash a b hand sent taken w) {msg : Message X}
    {waiting : List (Message X)} (hnext : b.waiting = msg :: waiting) :
    Flows key hash a { b with waiting := waiting } hand sent (taken ++ [msg]) w := by
  obtain ⟨hlink, hout, hdata, hbatches, hphase, hsilent, haccount⟩ := h
  refine ⟨hlink, hout, hdata, hbatches, hphase, hsilent, ?_⟩
  rw [haccount, hnext, List.append_assoc, List.singleton_append, List.cons_append]

/-- The next message in hand is the `Open`, or data that goes to the channel. -/
theorem Flows.hears {msg : ChannelMessage X} (h : Flows key hash a b (msg :: hand) sent taken w) :
    (∃ i cap w', msg = open_message i (discovery_key_of X key) (some cap) ∧
      i < Vec.max_len SLOT_SIZE ∧
      (replicate_capability X a.is_initiator key.val hash.val : Res IoError _) = .ok cap ∧
      b.theirs = none ∧ Flows key hash a { b with theirs := some i } hand sent taken w') ∨
    ∃ i x w', msg = ⟨UInt64.ofNat i, x⟩ ∧ x.is_data = true ∧ i < Vec.max_len SLOT_SIZE ∧
      b.theirs = some i ∧ a.theirs ≠ none ∧
      Flows key hash a { b with waiting := b.waiting ++ [x] } hand sent taken w' := by
  obtain ⟨⟨msgs, hdecode, hpipe⟩, hout, hdata, hbatches, hphase, hsilent, haccount⟩ := h
  -- the phase says what can be next in line
  generalize hm : a.mine = mine, ht : b.theirs = theirs at hphase
  cases hphase with
  | unopened => exact nomatch hpipe
  | @announced i cap data batches hpos hi hcap =>
    left
    obtain ⟨rfl, hrest⟩ := List.cons.inj hpipe
    refine ⟨i, cap, ⟨i, [], data, batches⟩, rfl, hi, hcap, rfl, ⟨msgs, hdecode, hrest⟩, hout, hdata,
      hbatches, ?_, hsilent, haccount⟩
    rw [hm]
    exact .heard hpos hi
  | @heard i data batches hpos hi =>
    right
    cases data with
    | nil => exact nomatch hpipe
    | cons x data =>
      obtain ⟨rfl, hrest⟩ := List.cons.inj hpipe
      -- data on the way was sent, and nobody sends before being opened
      have hsent : sent ≠ [] := by
        rintro rfl
        simp only [List.filter_nil, List.cons_append] at haccount
        have hlen := congrArg List.length haccount
        simp only [List.length_nil, List.length_append, List.length_cons] at hlen
        omega
      refine ⟨i, x, ⟨i, [], data, batches⟩, rfl, hdata x List.mem_cons_self, hi, rfl,
        fun hno => hsent (hsilent hno), ⟨msgs, hdecode, hrest⟩, hout,
        fun msg hmsg => hdata msg (List.mem_cons_of_mem _ hmsg), hbatches, ?_, hsilent, ?_⟩
      · rw [hm]
        exact .heard hpos hi
      · rw [haccount, List.append_assoc b.waiting]
        rfl

/-! ### What has arrived -/

/-- If the sender knows that it was opened, the receiver has told it so: ids are not made up. -/
theorem Flows.mine_of_theirs (h : Flows key hash a b hand sent taken w)
    (htheirs : b.theirs ≠ none) : a.mine ≠ none := by
  have hphase := h.phase
  generalize a.mine = mine, b.theirs = theirs at hphase htheirs
  cases hphase with
  | unopened => exact absurd rfl htheirs
  | announced => exact fun hno => nomatch hno
  | heard => exact fun hno => nomatch hno

theorem Flows.arrived_part (h : Flows key hash a b hand sent taken w) :
    taken ++ b.waiting <+: sent.filter Message.is_data := by
  rw [h.account, ← List.append_assoc]
  exact List.prefix_append _ _

/-- With nothing on the way, everything has arrived: what was taken and what waits is all the
data that was sent. -/
theorem Flows.arrived (h : Flows key hash a b [] sent taken w) (hout : a.outbound_rx = [])
    (hwrite : a.write_queue = []) (houtgoing : a.outgoing = []) (hincoming : b.incoming = []) :
    taken ++ b.waiting = sent.filter Message.is_data := by
  obtain ⟨⟨msgs, hdecode, hpipe⟩, hbatches, -, -, -, -, haccount⟩ := h
  rw [hout, eq_comm, List.map_eq_nil_iff] at hbatches
  rw [hincoming, houtgoing] at hdecode
  cases hdecode
  rw [hwrite] at hpipe
  have hdata : w.data = [] :=
    List.map_eq_nil_iff.mp (List.append_eq_nil_iff.mp hpipe.symm).2
  rw [haccount, hdata, hbatches]
  simp only [List.flatten_nil, List.filter_nil, List.append_nil]

end hypercore_protocol.session
