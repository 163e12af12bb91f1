/-
What one side puts into its write queue, the other side handles.

The layers have been looked at one by one: batches and `Open`s go into the write queue, the
queue is cut into frames, frames are encoded, decoded and handled message by message. Here
they are put together, for a session that writes and another one that reads what was
written, over any transport that gives the reader the frames of the writer in order.

`messages_cross` says when the whole is a pipe: what the reader handles is, message by
message, what the writer put into its queue, for all channels and all keys at once, exactly
if no frame that was read mixes the channels of two messages. A frame that does comes out
with a message on channel 0, which is nobody's channel, and nothing keeps `poll_outbound`
from making one when messages of two channels wait next to each other.
-/
import HypercoreProtocol.Heard
import HypercoreProtocol.Written
import HypercoreProtocol.FrameSpec

set_option autoImplicit false

namespace hypercore_protocol.message

open Rust Wire schema

variable {X : Deps}

/-! ## Frames on one channel -/

/-- The frame has messages on two channels. Of the frames that `poll_outbound` makes only a batch
can, as an `Open` or a `Close` has a frame of its own. -/
def Mixes (L : List (ChannelMessage X)) : Prop := ∃ m ∈ L, ∃ m' ∈ L, m.channel ≠ m'.channel

/-- A message as an application that sends only data makes the protocol write it: data on a
channel with an id, an `Open` with a discovery key and a capability of their proper lengths, or a
`Close`. -/
inductive Regular : ChannelMessage X → Prop where
  | data (m : ChannelMessage X) (hc : 1 ≤ m.channel) (hdata : m.message.is_data = true) : Regular m
  | opening (o : Open) (hc : 1 ≤ o.channel) (hdk : o.discovery_key.val.length = 32)
      (hcap : ∀ cap, o.capability = some cap → cap.val.length = 32) :
      Regular ⟨o.channel, .Open o⟩
  | closing (c : Close) (hc : 1 ≤ c.channel) : Regular ⟨c.channel, .Close c⟩

theorem Regular.channel_ne {m : ChannelMessage X} (h : Regular m) : m.channel ≠ 0 := by
  cases h with
  | data _ hc hdata => exact channel_ne_zero hc
  | opening o hc hdk hcap => exact channel_ne_zero hc
  | closing c hc => exact channel_ne_zero hc

theorem Regular.is_data {m : ChannelMessage X} (h : Regular m)
    (hno : m.message.is_open_or_close = false) : m.message.is_data = true ∧ 1 ≤ m.channel := by
  cases h with
  | data _ hc hdata => exact ⟨hdata, hc⟩
  | opening o hc hdk hcap => cases hno
  | closing c hc => cases hno

theorem Regular.alone {m : ChannelMessage X} (h : Regular m)
    (hyes : m.message.is_open_or_close = true) : UnswitchedFrame [m] := by
  cases h with
  | data _ hc hdata => exact absurd hyes (by rw [is_open_or_close_of_is_data hdata]; simp)
  | opening o hc hdk hcap => exact .opening o hdk hcap
  | closing c hc => exact .closing c

/-- What `poll_outbound` makes of such messages is one of them alone, or data. A frame with an
`Open` or a `Close` has nothing else in it. -/
theorem regular_cases {L : List (ChannelMessage X)} (hframe : mqueue.IsFrame L)
    (hL : ∀ m ∈ L, Regular m) :
    (∃ m, L = [m] ∧ UnswitchedFrame L) ∨ ∀ m ∈ L, m.message.is_data = true ∧ 1 ≤ m.channel := by
  by_cases hex : ∃ m ∈ L, m.message.is_open_or_close = true
  · obtain ⟨m, hm, hyes⟩ := hex
    have hone := hframe.2 m hm hyes
    exact Or.inl ⟨m, hone, hone ▸ (hL m hm).alone hyes⟩
  · refine Or.inr fun m hm => (hL m hm).is_data ?_
    by_contra hyes
    exact hex ⟨m, hm, Bool.not_eq_false _ ▸ hyes⟩

/-- If it does not mix channels, it is a frame that never switches. Such a frame is a single
message, or a batch on one channel. -/
theorem unswitched_of_regular {L : List (ChannelMessage X)} (hframe : mqueue.IsFrame L)
    (hL : ∀ m ∈ L, Regular m) (hone : ¬ Mixes L) : UnswitchedFrame L := by
  rcases regular_cases hframe hL with ⟨m, -, hunswitched⟩ | hdata
  · exact hunswitched
  · obtain ⟨m, rest, rfl⟩ := List.exists_cons_of_ne_nil hframe.1
    have hfirst := hdata m List.mem_cons_self
    cases rest with
    | nil => exact .single m hfirst.1 hfirst.2
    | cons m' rest =>
      refine .batch m.channel _ ?_ hfirst.2 (fun n hn => (hdata n hn).1) fun n hn => ?_
      · simp only [List.length_cons]
        omega
      · by_contra hne
        exact hone ⟨n, hn, m, List.mem_cons_self, hne⟩

/-- If it mixes channels and decodes, then to something with a message on channel 0. No message
that was written is on this channel. -/
theorem mixes_on_zero (hX : X.Lawful) {L out : List (ChannelMessage X)} {bs rest : Bytes}
    (hframe : mqueue.IsFrame L) (hL : ∀ m ∈ L, Regular m) (hmix : Mixes L)
    (henc : to_encoded_bytes L = .ok bs) (hdec : vec_decode X bs = .ok (out, rest)) :
    ∃ m ∈ out, m.channel = 0 := by
  obtain ⟨m, hm, m', hm', hne⟩ := hmix
  have hdata : ∀ m ∈ L, m.message.is_data = true := by
    rcases regular_cases hframe hL with ⟨n, rfl, -⟩ | hdata
    · rw [List.mem_singleton.mp hm, List.mem_singleton.mp hm'] at hne
      exact absurd rfl hne
    · exact fun m hm => (hdata m hm).1
  have h₂ : 2 ≤ L.length := by
    match L, hm, hm' with
    | [n], hm, hm' =>
      rw [List.mem_singleton.mp hm, List.mem_singleton.mp hm'] at hne
      exact absurd rfl hne
    | _ :: _ :: _, _, _ =>
      simp only [List.length_cons]
      omega
  obtain ⟨x, hx⟩ := switching_batch_on_zero hX h₂ hdata ⟨m, hm, m', hm', hne⟩ henc hdec
  exact ⟨⟨0, x⟩, hx, rfl⟩

/-- A frame that never switches decodes to what it was made of, with nothing left over, whenever
it could be encoded. -/
theorem UnswitchedFrame.decodes (hX : X.Lawful) {L : List (ChannelMessage X)} {bs : Bytes}
    (h : UnswitchedFrame L) (henc : to_encoded_bytes L = .ok bs) :
    vec_decode X bs = .ok (L, []) := by
  obtain ⟨bs', hwire, hdec⟩ := h.travels hX
  obtain ⟨rfl, hfits⟩ := (hwire.to_encoded_bytes_iff hX bs).mp henc
  exact hdec (Nat.lt_of_le_of_lt hfits (by decide))

end hypercore_protocol.message

namespace hypercore_protocol.session

open Rust Method Wire Runs schema message channels mqueue protocol

variable {X : Deps} {σ τ : Type} [CipherTrait σ] [CipherTrait τ]

/-! ## What an application makes the protocol write -/

section Tidy

variable {s s' : Session X σ} {p p' : Protocol X σ}

/-- The ids of channels can be written, and the batches on their way to the protocol hold
regular messages and local signals. -/
structure Tidy (s : Session X σ) : Prop where
  numbered : ∀ c, s.Knows c → 1 ≤ UInt64.ofNat c.local_id
  regular : ∀ batch, s.Batched batch → ∀ m ∈ batch, m.message.local_signal = none → Regular m

theorem establishes_numbered {c : Channel} (h : Establishes p p' c) :
    1 ≤ UInt64.ofNat c.local_id := by
  obtain ⟨m, d, h, ls, rs, hm, hd, hl, -, -, rfl, -⟩ := h
  exact local_id_numbered hm hd hl

/-- A message that is neither `Open`, `Close` nor a local signal is data. All other variants of
the enumeration are. -/
theorem is_data_of_not {msg : Message X} (hno : msg.is_open_or_close = false)
    (hlocal : msg.local_signal = none) : msg.is_data = true := by
  cases msg with
  | Open o => cases hno
  | Close c => cases hno
  | LocalSignal name data => cases hlocal
  | _ => rfl

theorem Step.tidy {a : Action X} (h : Step s a s') (hs : Inv s) (ho : Tidy s)
    (hsend : ∀ c messages, a = .send c messages → ∀ msg ∈ messages,
      msg.is_open_or_close = false) : Tidy s' where
  numbered c hc := by
    rcases h.knows hs.wf hc with hc | hc
    · exact ho.numbered c hc
    · exact establishes_numbered hc
  regular batch hb := by
    rcases h.batched hs.wf hb with hb | ⟨c, hc, messages, rfl, hact⟩
    · exact ho.regular batch hb
    · intro m hm hlocal
      obtain ⟨msg, hmsg, rfl⟩ := List.mem_map.mp hm
      rcases hact with hact | ⟨-, rfl⟩
      · exact .data _ (ho.numbered c (Or.inl hc))
          (is_data_of_not (hsend c messages hact msg hmsg) hlocal)
      · rw [List.mem_singleton.mp hmsg]
        exact .closing ⟨UInt64.ofNat c.local_id⟩ (ho.numbered c (Or.inl hc))

theorem tidy_new (stream : σ) : Tidy (Session.new stream : Session X σ) where
  numbered c hc := absurd hc (not_knows_new stream c)
  regular batch hb := by
    rcases hb with hb | ⟨x, hx, -⟩
    · exact absurd hb List.not_mem_nil
    · exact absurd hx List.not_mem_nil

theorem regular_open {i : ℕ} {d : DiscoveryKey} {cap : Option (Vec UInt8)}
    (h : (open_message (X := X) i d cap).message.Encodable)
    (hi : 1 ≤ (open_message (X := X) i d cap).channel) :
    Regular (open_message (X := X) i d cap) :=
  .opening ⟨UInt64.ofNat i, PROTOCOL_NAME, to_vec d, cap⟩ hi d.property h

/-- What a step puts into the write queue is regular, as long as the application sends nothing
but data on its channels. -/
theorem Step.adds_regular {a : Action X} (h : Step s a s') (hs : Inv s) (ho : Tidy s) :
    ∀ m ∈ adds (⟨s, a, s'⟩ : Happening X σ), Regular m := by
  intro m hm
  rcases h.move_or_aside with ⟨move, rfl, hmove⟩ | ⟨hno, -⟩
  · cases move with
    | command c =>
      obtain ⟨msgs, hqueue, hopen, hencodable⟩ := command_adds hs.wf hmove
      rw [adds_command rfl hqueue] at hm
      rcases hopen with rfl | ⟨key, i, cap, -, rfl⟩
      · exact absurd hm List.not_mem_nil
      · obtain ⟨henc, hi⟩ := hencodable m hm
        rw [List.mem_singleton.mp hm] at henc hi ⊢
        exact regular_open henc hi
    | outbound batch =>
      obtain ⟨rest, kept, q, hrx, -⟩ := outbound_effect hs.wf hmove
      exact ho.regular batch (Or.inl (hrx ▸ List.mem_cons_self)) m (List.mem_filter.mp hm).1
        (local_signal_of_mem_written hm)
    | _ => exact absurd hm List.not_mem_nil
  · cases a with
    | protocol move => exact absurd rfl (hno move)
    | _ => exact absurd hm List.not_mem_nil

theorem adds_regular {stream : σ} {tr : List (Happening X σ)}
    (run : Run Step (Session.new stream) tr s)
    (hsend : ∀ t ∈ tr, ∀ c messages, t.act = .send c messages → ∀ msg ∈ messages,
      msg.is_open_or_close = false) : ∀ m ∈ tr.flatMap adds, Regular m := by
  suffices hboth : Tidy s ∧ ∀ m ∈ tr.flatMap adds, Regular m from hboth.2
  induction run with
  | nil => exact ⟨tidy_new stream, fun _ h => absurd h List.not_mem_nil⟩
  | @snoc tr s s' a run h ih =>
    obtain ⟨ho, hall⟩ := ih fun t ht => hsend t (List.mem_append_left _ ht)
    have hlast := hsend ⟨s, a, s'⟩ (List.mem_append_right _ (List.mem_singleton.mpr rfl))
    refine ⟨h.tidy (reachable_inv run) ho hlast, ?_⟩
    rw [List.flatMap_append, List.flatMap_singleton]
    exact List.forall_mem_append.mpr ⟨hall, h.adds_regular (reachable_inv run) ho⟩

end Tidy

/-! ## From frames to frames -/

/-- Without an exception every frame was encoded and passed on, in the order in which they were
cut off the queue. -/
theorem passed_encoded {frames : List (List (ChannelMessage X))} {calls : List SinkCall}
    (h : Passed frames calls 0) :
    List.Forall₂ (fun L bs => to_encoded_bytes L = .ok bs) frames (sent calls) := by
  obtain ⟨-, hbytes, hcut⟩ := h
  rw [← hbytes]
  have hall : ∀ L ∈ frames, ∃ bs, to_encoded_bytes L = .ok bs := by
    intro L hL
    have hnone := List.countP_eq_zero.mp (Nat.eq_zero_of_add_eq_zero_right hcut) L hL
    cases henc : to_encoded_bytes L with
    | ok bs => exact ⟨bs, rfl⟩
    | error f =>
      rw [frame_bytes, henc] at hnone
      exact absurd rfl hnone
  clear hbytes hcut
  induction frames with
  | nil => exact .nil
  | cons L frames ih =>
    obtain ⟨bs, hbs⟩ := hall L List.mem_cons_self
    have hsome : frame_bytes L = some bs := by
      rw [frame_bytes, hbs]
      rfl
    rw [List.filterMap_cons_some hsome]
    exact .cons hbs (ih fun L hL => hall L (List.mem_cons_of_mem _ hL))

/-- What the frames decode to, one after the other. A frame that fails to decode contributes
nothing. -/
def decoded (X : Deps) (frames : List Bytes) : List (ChannelMessage X) :=
  frames.flatMap fun bs =>
    match vec_decode X bs with
    | .ok (messages, _) => messages
    | .error _ => []

theorem decoded_cons {bs rest : Bytes} {L : List (ChannelMessage X)} {frames : List Bytes}
    (h : vec_decode X bs = .ok (L, rest)) : decoded X (bs :: frames) = L ++ decoded X frames := by
  rw [decoded, List.flatMap_cons, h]
  rfl

/-- Without an exception every frame was decoded and all its messages handled, in the order in
which they came. -/
theorem handled_decoded {frames : List Bytes} {receipts : List (Receipt X)}
    (h : Handled X frames receipts 0) :
    receipts.map Prod.fst = decoded X frames ∧
      ∀ bs ∈ frames, ∃ L rest, vec_decode X bs = .ok (L, rest) := by
  generalize hcut : 0 = cut at h
  induction h with
  | nil => exact ⟨rfl, fun _ h => absurd h List.not_mem_nil⟩
  | @whole frames receipts part cut bs rest h hdec ih =>
    obtain ⟨hmessages, hall⟩ := ih hcut
    refine ⟨?_, List.forall_mem_append.mpr ⟨hall, List.forall_mem_singleton.mpr ⟨part, rest, hdec⟩⟩⟩
    have hlast : decoded X [bs] = part := by
      rw [decoded_cons hdec]
      exact List.append_nil _
    have hpart : (all_handled part).map Prod.fst = part := (List.map_map ..).trans (List.map_id _)
    rw [decoded, List.flatMap_append, ← decoded, ← decoded, hlast, List.map_append, hmessages,
      hpart]
  | front h hdec ih => cases hcut
  | undecoded h hdec ih => cases hcut

/-- Frames that were made of regular messages come out as they went in, exactly if none of
them mixes channels, and exactly if nothing comes out on channel 0. -/
theorem frames_come_out (hX : X.Lawful) {frames : List (List (ChannelMessage X))} {bs : List Bytes}
    (hframes : ∀ L ∈ frames, IsFrame L) (hregular : ∀ L ∈ frames, ∀ m ∈ L, Regular m)
    (henc : List.Forall₂ (fun L b => to_encoded_bytes L = .ok b) frames bs)
    (hdec : ∀ b ∈ bs, ∃ L rest, vec_decode X b = .ok (L, rest)) :
    ((∀ L ∈ frames, ¬ Mixes L) ↔ ∀ m ∈ decoded X bs, m.channel ≠ 0) ∧
      ((∀ L ∈ frames, ¬ Mixes L) → decoded X bs = frames.flatten) := by
  induction henc with
  | nil =>
    exact ⟨⟨fun _ _ h => absurd h List.not_mem_nil, fun _ _ h => absurd h List.not_mem_nil⟩,
      fun _ => rfl⟩
  | @cons L b frames bs hLb henc ih =>
    rw [List.forall_mem_cons] at hframes hregular hdec
    obtain ⟨hiff, heq⟩ := ih hframes.2 hregular.2 hdec.2
    obtain ⟨⟨out, rest, hout⟩, -⟩ := hdec
    -- the first frame by itself
    have hsame : ¬ Mixes L → out = L := fun hmix => by
      have hL := (unswitched_of_regular hframes.1 hregular.1 hmix).decodes hX hLb
      exact (Prod.mk.inj (Except.ok.inj (hout.symm.trans hL))).1
    have hzero : ¬ Mixes L ↔ ∀ m ∈ out, m.channel ≠ 0 := by
      refine ⟨fun hmix m hm => (hregular.1 m (hsame hmix ▸ hm)).channel_ne, fun hno hmix => ?_⟩
      obtain ⟨m, hm, hchannel⟩ := mixes_on_zero hX hframes.1 hregular.1 hmix hLb hout
      exact hno m hm hchannel
    rw [decoded_cons hout]
    constructor
    · rw [List.forall_mem_cons, List.forall_mem_append, hzero, hiff]
    · intro hmix
      rw [List.forall_mem_cons] at hmix
      rw [hsame hmix.1, heq hmix.2, List.flatten_cons]

/-! ## The pipe -/

/-- When a reader handles what a writer has put into its queue. Take any two runs of calls and
polls, one of a session that writes and one of a session that reads, in which no poll failed,
the application of the writer sends data and local signals on its channels, and the frames the
reader was given are a front part of those the writer passed on. There are runs of moves to
the two sessions that show the applications the same; what the reader handles is what the
frames decode to. It is a front part of what was put into the writer's queue, in order, each
message once, exactly if none of the frames that were read mixes channels, and exactly if
nothing is handled on channel 0. If so, and all frames have been read and nothing waits in the
queue, it is everything. -/
theorem messages_cross (hX : X.Lawful) (hcipher : LawfulCipher σ) (hcipher' : LawfulCipher τ)
    {stream : σ} {stream' : τ} {w : Session X (Logged σ)} {r : Session X (Noted τ)}
    {writes : List (Transition (Session X (Logged σ)) (PollAction X))}
    {reads : List (Transition (Session X (Noted τ)) (PollAction X))}
    (hwrite : Run PollStep (Session.new ⟨stream, []⟩) writes w)
    (hread : Run PollStep (Session.new ⟨stream', []⟩) reads r)
    (hcalls : ∀ t ∈ writes, t.act = .net →
      t.post.protocol.io.stream.calls = t.pre.protocol.io.stream.calls)
    (hframes : ∀ t ∈ reads, t.act = .net →
      t.post.protocol.io.stream.frames = t.pre.protocol.io.stream.frames)
    (hok : failures writes = 0) (hok' : failures reads = 0)
    (hsend : ∀ t ∈ writes, ∀ c messages, t.act = .app (.send c messages) →
      ∀ msg ∈ messages, msg.is_open_or_close = false)
    (hlink : r.protocol.io.stream.frames <+: sent w.protocol.io.stream.calls) :
    ∃ tw tr, ∃ frames : List (List (ChannelMessage X)),
      Run Step (Session.new ⟨stream, []⟩) tw w ∧
      (tw.flatMap fun t => t.act.sight) = (writes.flatMap fun t => t.act.sight) ∧
      Run Step (Session.new ⟨stream', []⟩) tr r ∧
      (tr.flatMap fun t => t.act.sight) = (reads.flatMap fun t => t.act.sight) ∧
      List.Forall₂ (fun L bs => to_encoded_bytes L = .ok bs) frames
        (sent w.protocol.io.stream.calls) ∧
      frames.flatten ++ w.protocol.io.write_queue = tw.flatMap adds ∧
      inbound tr = decoded X r.protocol.io.stream.frames ∧
      (inbound tr <+: tw.flatMap adds ↔
        ∀ L ∈ frames.take r.protocol.io.stream.frames.length, ¬ Mixes L) ∧
      (inbound tr <+: tw.flatMap adds ↔ ∀ m ∈ inbound tr, m.channel ≠ 0) ∧
      (inbound tr <+: tw.flatMap adds →
        r.protocol.io.stream.frames = sent w.protocol.io.stream.calls →
        w.protocol.io.write_queue = [] → inbound tr = tw.flatMap adds) := by
  obtain ⟨tw, cut, runw, hseenw, ⟨calls, frames, hlog, hqueue, hpassed⟩, hcut⟩ :=
    polls_written hcipher hwrite hcalls
  obtain ⟨tr, cut', runr, hseenr, ⟨given, hgiven, hhandled⟩, hcut'⟩ :=
    polls_handled hcipher' hread hframes
  obtain rfl : cut = 0 := Nat.le_zero.mp (hok ▸ hcut)
  obtain rfl : cut' = 0 := Nat.le_zero.mp (hok' ▸ hcut')
  have hlog : w.protocol.io.stream.calls = calls := hlog
  have hgiven : r.protocol.io.stream.frames = given := hgiven
  have hqueue : frames.flatten ++ w.protocol.io.write_queue = tw.flatMap adds := hqueue
  rw [hlog, hgiven] at hlink ⊢
  have henc := passed_encoded hpassed
  obtain ⟨hinbound, hdec⟩ := handled_decoded hhandled
  rw [receipts_messages] at hinbound
  -- what the application sent is regular
  have hregular : ∀ m ∈ tw.flatMap adds, Regular m := by
    refine adds_regular runw fun t ht c messages hact => ?_
    have hmem : Sight.app (.send c messages) ∈ writes.flatMap fun t => t.act.sight := by
      rw [← hseenw]
      exact List.mem_flatMap.mpr ⟨t, ht, by rw [hact]; exact List.mem_singleton.mpr rfl⟩
    obtain ⟨t', ht', hact'⟩ := call_seen hmem
    exact hsend t' ht' c messages hact'
  -- the frames that were read are the first ones
  obtain ⟨later, hlater⟩ := hlink
  have hfirst : List.Forall₂ (fun L bs => to_encoded_bytes L = .ok bs)
      (frames.take given.length) given :=
    List.forall₂_take_append frames given later (hlater ▸ henc)
  have hfront : (frames.take given.length).flatten <+: tw.flatMap adds := by
    rw [← hqueue]
    refine List.IsPrefix.trans ⟨(frames.drop given.length).flatten, ?_⟩ (List.prefix_append _ _)
    rw [← List.flatten_append, List.take_append_drop]
  obtain ⟨hiff, hsame⟩ := frames_come_out hX
    (fun L hL => hpassed.frame L (List.mem_of_mem_take hL))
    (fun L hL m hm => hregular m (hfront.subset (List.mem_flatten.mpr ⟨L, hL, hm⟩))) hfirst hdec
  rw [← hinbound] at hiff hsame
  have hzero : inbound tr <+: tw.flatMap adds ↔ ∀ m ∈ inbound tr, m.channel ≠ 0 := by
    refine ⟨fun hpre m hm => (hregular m (hpre.subset hm)).channel_ne, fun hno => ?_⟩
    rw [hsame (hiff.mpr hno)]
    exact hfront
  refine ⟨tw, tr, frames, runw, hseenw, runr, hseenr, henc, hqueue, hinbound, hzero.trans hiff.symm,
    hzero, fun hpre hall hnil => ?_⟩
  have hlen : frames.length = given.length := by
    rw [hall]
    exact henc.length_eq
  rw [hsame (hiff.mpr (hzero.mp hpre)), ← hlen, List.take_length, ← hqueue, hnil, List.append_nil]

section Witness

open compact_encoding

/-- The frames that a session writes which asks for two keys: each `Open` in a frame of its
own. -/
def two_opens : List Bytes :=
  ((poll_times 1 2 (asks_two (⟨Memory.connected false, []⟩ : Logged Memory))).map fun r =>
    sent r.2.protocol.io.stream.calls).getD []

/-- Two `Open`s are written, and the other side handles them. They are on two channels, but in
two frames. -/
theorem messages_cross_opens : ∃ writes, ∃ w : Session deps (Logged Memory),
    ∃ reads, ∃ r : Session deps (Noted Memory), ∃ tw tr,
      Run PollStep (Session.new ⟨Memory.connected false, []⟩) writes w ∧
      Run PollStep (Session.new ⟨{ Memory.connected true with incoming := two_opens }, []⟩)
        reads r ∧
      Run Step (Session.new ⟨Memory.connected false, []⟩) tw w ∧
      Run Step (Session.new ⟨{ Memory.connected true with incoming := two_opens }, []⟩) tr r ∧
      inbound tr = tw.flatMap adds ∧ (inbound tr).length = 2 := by
  have hwritten : ((poll_times 1 2 (asks_two (⟨Memory.connected false, []⟩ : Logged Memory))).any
      fun r => failures r.1 == 0 && r.2.protocol.io.write_queue.isEmpty) = true := by
    decide +kernel
  have hheard : ((poll_times 3 2 (Session.new ⟨{ Memory.connected true with
      incoming := two_opens }, []⟩ : Session deps (Noted Memory))).any fun r =>
      failures r.1 == 0 && r.2.protocol.io.stream.frames == two_opens) = true := by
    decide +kernel
  have hdecoded : (decoded deps two_opens).length = 2 ∧
      (decoded deps two_opens).all (fun m => m.channel != 0) = true := by
    decide +kernel
  obtain ⟨⟨polls, w⟩, hpolls, hw⟩ := (Option.any_eq_true _ _).mp hwritten
  obtain ⟨⟨reads, r⟩, hreads, hr⟩ := (Option.any_eq_true _ _).mp hheard
  rw [Bool.and_eq_true, beq_iff_eq, List.isEmpty_iff] at hw
  rw [Bool.and_eq_true, beq_iff_eq, beq_iff_eq] at hr
  have hsent : two_opens = sent w.protocol.io.stream.calls := by
    rw [two_opens, hpolls]
    rfl
  obtain ⟨calls, run₀, hcommands⟩ := asks_two_run (⟨Memory.connected false, []⟩ : Logged Memory)
  obtain ⟨run₁, hall⟩ := poll_times_run hpolls
  obtain ⟨run₂, hall'⟩ := poll_times_run hreads
  have hquiet := not_net_or_send hcommands hall
  have hread : r.protocol.io.stream.frames = sent w.protocol.io.stream.calls := hr.2.trans hsent
  obtain ⟨tw, tr, frames, runw, -, runr, -, -, -, hinbound, -, hzero, hsame⟩ :=
    messages_cross deps_lawful memory_lawful memory_lawful (run₀.append run₁) run₂
      (fun t ht hact => absurd hact (hquiet t ht).1)
      (fun t ht hact => by
        obtain ⟨result, hpoll⟩ := hall' t ht
        cases hact.symm.trans hpoll)
      ((failures_of_commands hcommands).trans hw.1) hr.1
      (fun t ht c messages hact => absurd hact ((hquiet t ht).2 c messages))
      (hread ▸ List.prefix_rfl)
  rw [hr.2] at hinbound
  have hpre := hzero.mpr fun m hm => by
    rw [hinbound] at hm
    exact bne_iff_ne.mp (List.all_eq_true.mp hdecoded.2 m hm)
  exact ⟨_, w, reads, r, tw, tr, run₀.append run₁, run₂, runw, runr, hsame hpre hread hw.2,
    hinbound ▸ hdecoded.1⟩

end Witness

end hypercore_protocol.session
