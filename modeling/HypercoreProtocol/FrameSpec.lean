/-
What the framing of `src/message.rs` does to the messages it carries.

`Parts.Batch` describes the bytes of a batch after its first channel number, and
`batch_layout` says that this is what the encoder writes. The decoder is
followed one iteration at a time (`decode_batch_loop_message`). As long as the
channel stays the same, it reads back what was written. At a channel change it
does not: the separator `0x00` is itself taken for the new channel number, so
the next message, whatever it is decoded to, comes out on channel 0.
-/
import HypercoreProtocol.MessageSpec
import HypercoreProtocol.CompactEncoding

set_option autoImplicit false

namespace hypercore_protocol.message

open Rust Wire schema

variable {X : Deps}

instance nontrivial_u64 : Nontrivial UInt64 := ⟨0, 1, by decide⟩

/-! ## The bytes of a batch -/

/-- How the parts of a batch are written: a message, the length in front of it, and a
channel number. -/
structure Parts (X : Deps) where
  body : Message X → Bytes → Prop
  length : ℕ → Bytes → Prop
  channel : UInt64 → Bytes → Prop

/-- **The layout of a batch** after its first channel number: for each message its length and
its bytes, and before them a `0x00` and the channel number when the channel is not the one of
the message before. What is known of the parts is a parameter, since the size of a batch asks
less of them than reading it back. -/
inductive Parts.Batch (P : Parts X) : UInt64 → List (ChannelMessage X) → Bytes → Prop where
  | nil (c : UInt64) : Batch P c [] []
  | same {m : ChannelMessage X} {ms : List (ChannelMessage X)} {mb lb bs : Bytes}
      (hm : P.body m.message mb) (hl : P.length mb.length lb) (h : Batch P m.channel ms bs) :
      Batch P m.channel (m :: ms) (lb ++ (mb ++ bs))
  | switch {c : UInt64} {m : ChannelMessage X} {ms : List (ChannelMessage X)}
      {cb mb lb bs : Bytes} (hc : m.channel ≠ c) (hcb : P.channel m.channel cb)
      (hm : P.body m.message mb) (hl : P.length mb.length lb) (h : Batch P m.channel ms bs) :
      Batch P c (m :: ms) (CHANNEL_CHANGE_SEPERATOR ++ (cb ++ (lb ++ (mb ++ bs))))

/-- The encoder writes a batch in this layout, and announces the number of its bytes. What is
known of the parts is a parameter, so that sizes and round trips use the same traversal. -/
theorem batch_layout (hX : X.Sized) {P : Parts X} {ms : List (ChannelMessage X)}
    (hmessage : ∀ m ∈ ms, ∃ mb, (Message.codec X).Emits m.message mb ∧ P.body m.message mb)
    (hlength : ∀ n, ∃ lb, X.u64.Emits (UInt64.ofNat n) lb ∧ P.length n lb)
    (hchannel : ∀ c, ∃ cb, X.u64.Emits c cb ∧ P.channel c cb) (c : UInt64) :
    ∃ bs, P.Batch c ms bs ∧ batch_encoded_size c ms = .ok bs.length ∧
      Writes (encode_batch c ms) bs := by
  -- size and encoder both pass the channel of a message on to the next
  induction ms generalizing c with
  | nil => exact ⟨[], .nil c, rfl, writes_pure⟩
  | cons m ms ih =>
    obtain ⟨mb, hm, hPm⟩ := hmessage m List.mem_cons_self
    obtain ⟨lb, hl, hPl⟩ := hlength mb.length
    obtain ⟨bs, hbs, hsize, hwrites⟩ :=
      ih (fun m' hm' => hmessage m' (List.mem_cons_of_mem m hm')) m.channel
    have hmsize : m.message.encoded_size = .ok mb.length := hm.size
    -- length, message and the rest are written alike whether or not the channel changed
    have htail : Writes (do
        let msg_len ← Method.lift m.message.encoded_size
        X.u64.encode (UInt64.ofNat msg_len)
        m.message.encode
        encode_batch m.channel ms) (lb ++ (mb ++ bs)) := by
      rw [hmsize]
      exact writes_bind hl.writes (writes_bind hm.writes hwrites)
    by_cases hc : m.channel = c
    · subst hc
      refine ⟨lb ++ (mb ++ bs), .same hPm hPl hbs, ?_, ?_⟩
      · simp only [batch_encoded_size, ne_eq, not_true_eq_false, if_false, pure_bind, hmsize,
          ok_bind, hl.size, hsize]
        refine congrArg Except.ok ?_
        simp only [List.length_append]
        omega
      · simp only [encode_batch, ne_eq, not_true_eq_false, if_false]
        exact htail
    · obtain ⟨cb, hcb, hPcb⟩ := hchannel m.channel
      refine ⟨CHANNEL_CHANGE_SEPERATOR ++ (cb ++ (lb ++ (mb ++ bs))),
        .switch hc hPcb hPm hPl hbs, ?_, ?_⟩
      · simp only [batch_encoded_size, ne_eq, hc, not_false_eq_true, if_true, hcb.size, ok_bind,
          pure_bind, hmsize, hl.size, hsize]
        refine congrArg Except.ok ?_
        simp only [List.length_append]
        omega
      · simp only [encode_batch, ne_eq, hc, not_false_eq_true, if_true]
        exact writes_bind (hX.write_array _) (writes_bind hcb.writes htail)

/-- Parts that are read back: a message of at least two bytes, and the numbers. The instance of
the layout for round trips. -/
def read_back (X : Deps) : Parts X where
  body m mb := (Message.codec X).Carries m mb ∧ 2 ≤ mb.length
  length n lb := X.u64.Carries (UInt64.ofNat n) lb
  channel c cb := X.u64.Carries c cb

/-- The bytes of a batch of which every part is read back. That the batch is read back as a whole
is another matter: it fails where the channel changes. -/
abbrev BatchWire (c : UInt64) (ms : List (ChannelMessage X)) (bs : Bytes) : Prop :=
  (read_back X).Batch c ms bs

/-- The encoder writes exactly these bytes, and announces their number, for data on any
channels. -/
theorem batch_travels (hX : X.Lawful) (ms : List (ChannelMessage X))
    (hms : ∀ m ∈ ms, m.message.is_data = true) (c : UInt64) :
    ∃ bs, BatchWire c ms bs ∧ batch_encoded_size c ms = .ok bs.length ∧
      Writes (encode_batch c ms) bs := by
  have hnumber : ∀ n, ∃ bs, X.u64.Emits n bs ∧ X.u64.Carries n bs := by
    intro n
    obtain ⟨bs, h⟩ := hX.u64 n
    exact ⟨bs, h.emits, h⟩
  refine batch_layout hX.sized (fun m hm => ?_) (fun n => hnumber _) hnumber c
  obtain ⟨mb, h, h₂⟩ := message_travels hX m.message (hms m hm)
  exact ⟨mb, h.emits, h, h₂⟩

/-- A number other than zero does not start with the byte `0x00`, which is the
number zero. -/
theorem head_ne_zero (hX : X.Lawful) {n : UInt64} {bs s : Bytes} (h : X.u64.Carries n bs)
    (hn : n ≠ 0) : (bs ++ s).head? ≠ some 0 := by
  intro hhead
  obtain ⟨t, ht⟩ := List.head?_eq_some_iff.mp hhead
  have ht' : bs ++ s = [(0 : UInt64).toUInt8] ++ t := ht
  exact hn (Reads.inj h.reads (hX.u64_small 0 (by decide)).reads ht').1

/-! ## The decoder, one message at a time -/

/-- One iteration of the batch loop, on a length and a message as the encoder
writes them. -/
theorem decode_batch_loop_message (hX : X.Lawful) {m : Message X} {mb lb bs : Bytes}
    (hm : (Message.codec X).Carries m mb) (hm₂ : 2 ≤ mb.length) (hfit : mb.length < 2 ^ 64)
    (hl : X.u64.Carries (UInt64.ofNat mb.length) lb) (og_len fuel : ℕ) (c : UInt64)
    (acc : List (ChannelMessage X)) :
    decode_batch_loop X og_len (fuel + 1) c (lb ++ (mb ++ bs)) acc =
      if bs.head? = some 0 then do
        let (c', bs') ← map_err X.into_io_error (X.u64.decode bs)
        decode_batch_loop X og_len fuel c' bs' (acc ++ [⟨c, m⟩])
      else decode_batch_loop X og_len fuel c bs (acc ++ [⟨c, m⟩]) := by
  have hne : (lb ++ (mb ++ bs)).isEmpty = false := by
    rw [List.isEmpty_eq_false_iff]
    exact List.append_ne_nil_of_left_ne_nil (hX.u64.ne_nil hl) _
  have hlen : (UInt64.ofNat mb.length).toNat = mb.length := UInt64.toNat_ofNat_of_lt' hfit
  have hlong : ¬ mb.length > (mb ++ bs).length := by rw [List.length_append]; omega
  have hshort : ¬ (mb ++ bs).length ≤ 1 := by rw [List.length_append]; omega
  have hmsg : Message.decode X (mb ++ bs) = .ok (m, bs) := hm.reads bs
  rw [decode_batch_loop]
  simp only [hne, Bool.false_eq_true, if_false, hX.decode_usize _ _ hl (mb ++ bs), hlen,
    map_err_ok, ok_bind, hlong, ChannelMessage.decode_with_channel, hshort, hmsg, pure_bind]

/-- Whatever the batch loop decodes next comes out on the current channel, behind
the messages it already has. -/
theorem decode_batch_loop_next {og_len fuel : ℕ} {c : UInt64} {buf rest : Bytes}
    {acc out : List (ChannelMessage X)}
    (h : decode_batch_loop X og_len fuel c buf acc = .ok (out, rest)) :
    (buf = [] ∧ out = acc) ∨ ∃ x, acc ++ [⟨c, x⟩] <+: out := by
  induction fuel generalizing c buf acc with
  | zero =>
    rw [decode_batch_loop] at h
    split at h
    · rename_i he
      simp only [Except.ok.injEq, Prod.mk.injEq] at h
      exact Or.inl ⟨List.isEmpty_iff.mp he, h.1.symm⟩
    · exact nomatch h
  | succ fuel ih =>
    rw [decode_batch_loop] at h
    split at h
    · rename_i he
      simp only [Except.ok.injEq, Prod.mk.injEq] at h
      exact Or.inl ⟨List.isEmpty_iff.mp he, h.1.symm⟩
    · right
      obtain ⟨⟨len, buf₁⟩, -, h⟩ := bind_eq_ok h
      dsimp only at h
      split at h
      · exact nomatch h
      obtain ⟨⟨cm, buf₂⟩, hcm, h⟩ := bind_eq_ok h
      obtain ⟨x, rfl⟩ : ∃ x, cm = ⟨c, x⟩ := by
        rw [ChannelMessage.decode_with_channel] at hcm
        split at hcm
        · exact nomatch hcm
        · obtain ⟨⟨x, _⟩, -, hx⟩ := bind_eq_ok hcm
          exact ⟨x, (congrArg Prod.fst (Except.ok.inj hx)).symm⟩
      -- every way on keeps `acc ++ [⟨c, x⟩]` at the front
      have hkeep : ∀ c' buf', decode_batch_loop X og_len fuel c' buf' (acc ++ [⟨c, x⟩])
          = .ok (out, rest) → acc ++ [⟨c, x⟩] <+: out := by
        intro c' buf' h'
        rcases ih h' with ⟨-, rfl⟩ | ⟨y, hy⟩
        · exact List.prefix_rfl
        · exact (List.prefix_append _ _).trans hy
      dsimp only at h
      split at h
      · obtain ⟨⟨c', buf'⟩, -, h⟩ := bind_eq_ok h
        exact ⟨x, hkeep c' buf' h⟩
      · exact ⟨x, hkeep c buf₂ h⟩

/-- A batch that starts on the current channel does not start with `0x00`: a
length is never zero. -/
theorem BatchWire.head_ne_zero (hX : X.Lawful) {c : UInt64} {ms : List (ChannelMessage X)}
    {bs : Bytes} (h : BatchWire c ms bs) (hfit : bs.length < 2 ^ 64)
    (hhead : ∀ m ∈ ms.head?, m.channel = c) : bs.head? ≠ some 0 := by
  cases h with
  | nil => exact fun h => nomatch h
  | @same m ms mb lb bs hm hl h =>
    obtain ⟨hm, hm₂⟩ := hm
    refine message.head_ne_zero hX hl fun h0 => ?_
    have hlen : mb.length < 2 ^ 64 := by simp only [List.length_append] at hfit; omega
    have := congrArg UInt64.toNat h0
    rw [UInt64.toNat_ofNat_of_lt' hlen] at this
    simp only [UInt64.toNat_zero] at this
    omega
  | switch hc => exact absurd (hhead _ rfl) hc

/-- On one channel the batch loop reads back what was written. No length starts with the byte
`0x00`, so the loop sees no change of the channel. -/
theorem decode_batch_same (hX : X.Lawful) {c : UInt64} {ms : List (ChannelMessage X)} {bs : Bytes}
    (h : BatchWire c ms bs) (hsame : ∀ m ∈ ms, m.channel = c) (hfit : bs.length < 2 ^ 64)
    (og_len : ℕ) {fuel : ℕ} (hfuel : bs.length ≤ fuel) (acc : List (ChannelMessage X)) :
    decode_batch_loop X og_len fuel c bs acc = .ok (acc ++ ms, []) := by
  induction h generalizing fuel acc with
  | nil c => rw [decode_batch_loop.eq_def, List.isEmpty_nil, if_pos rfl, List.append_nil]
  | @same m ms mb lb bs hm hl h ih =>
    obtain ⟨hm, hm₂⟩ := hm
    have hlens : (lb ++ (mb ++ bs)).length = lb.length + (mb.length + bs.length) := by
      simp only [List.length_append]
    have hlb := hX.u64.length_pos hl
    obtain ⟨fuel, rfl⟩ : ∃ f, fuel = f + 1 := ⟨fuel - 1, by omega⟩
    have htail : ∀ m' ∈ ms, m'.channel = m.channel := fun m' hm' =>
      hsame m' (List.mem_cons_of_mem m hm')
    have hhead : bs.head? ≠ some 0 :=
      BatchWire.head_ne_zero hX h (by omega) fun m' hm' => htail m' (List.mem_of_mem_head? hm')
    rw [decode_batch_loop_message hX hm hm₂ (by omega) hl, if_neg hhead,
      ih htail (by omega) (by omega), List.append_assoc]
    rfl
  | switch hc => exact absurd (hsame _ List.mem_cons_self) hc

/-- A batch that changes channel at its first message starts with the separator, and
something follows it. -/
theorem BatchWire.switch_head (hX : X.Lawful) {c : UInt64} {ms : List (ChannelMessage X)}
    {bs : Bytes} (h : BatchWire c ms bs) (hhead : ¬ ∀ m ∈ ms.head?, m.channel = c) :
    ∃ t, bs = [0] ++ t ∧ t ≠ [] := by
  cases h with
  | nil => exact absurd (fun m hm => nomatch hm) hhead
  | same => exact absurd (fun m hm => by rw [Option.mem_some.mp hm]) hhead
  | switch hc hcb => exact ⟨_, rfl, List.append_ne_nil_of_left_ne_nil (hX.u64.ne_nil hcb) _⟩

/-- When the channel changes somewhere in the batch, the message after the first
change comes out on channel 0, if the loop succeeds at all. -/
theorem decode_batch_switch (hX : X.Lawful) {c : UInt64} {ms : List (ChannelMessage X)} {bs : Bytes}
    (h : BatchWire c ms bs) (hhead : ∀ m ∈ ms.head?, m.channel = c)
    (hswitch : ∃ m ∈ ms, m.channel ≠ c) (hfit : bs.length < 2 ^ 64) {og_len fuel : ℕ}
    {acc out : List (ChannelMessage X)} {rest : Bytes}
    (hdec : decode_batch_loop X og_len fuel c bs acc = .ok (out, rest)) :
    ∃ i x, i < acc.length + ms.length ∧ out[i]? = some ⟨0, x⟩ := by
  induction h generalizing fuel acc with
  | nil c =>
    obtain ⟨m, hm, -⟩ := hswitch
    exact absurd hm List.not_mem_nil
  | switch hc => exact absurd (hhead _ rfl) hc
  | @same m ms mb lb bs hm hl h ih =>
    obtain ⟨hm, hm₂⟩ := hm
    have hlens : (lb ++ (mb ++ bs)).length = lb.length + (mb.length + bs.length) := by
      simp only [List.length_append]
    have hswitch' : ∃ m' ∈ ms, m'.channel ≠ m.channel := by
      obtain ⟨m', hm', hne⟩ := hswitch
      rcases List.mem_cons.mp hm' with rfl | hm'
      · exact absurd rfl hne
      · exact ⟨m', hm', hne⟩
    cases fuel with
    -- with bytes left the loop has failed, not succeeded
    | zero =>
      rw [decode_batch_loop, if_neg] at hdec
      · exact nomatch hdec
      · rw [List.isEmpty_iff]
        exact List.append_ne_nil_of_left_ne_nil (hX.u64.ne_nil hl) _
    | succ fuel =>
      rw [decode_batch_loop_message hX hm hm₂ (by omega) hl] at hdec
      by_cases hms : ∀ m' ∈ ms.head?, m'.channel = m.channel
      · -- the next message is on the same channel, so the change is further on
        rw [if_neg (BatchWire.head_ne_zero hX h (by omega) hms)] at hdec
        obtain ⟨i, x, hi, hx⟩ := ih hms hswitch' (by omega) hdec
        refine ⟨i, x, ?_, hx⟩
        simp only [List.length_append, List.length_singleton] at hi
        rw [List.length_cons]
        omega
      · -- the separator is read as channel number 0
        obtain ⟨t, rfl, ht⟩ := BatchWire.switch_head hX h hms
        have hzero : X.u64.decode ([0] ++ t) = .ok (0, t) :=
          (hX.u64_small 0 (by decide)).reads t
        have hhead : List.head? ([(0 : UInt8)] ++ t) = some 0 := rfl
        rw [if_pos hhead, hzero, map_err_ok, ok_bind] at hdec
        rcases decode_batch_loop_next hdec with ⟨hnil, -⟩ | ⟨x, l, rfl⟩
        · exact absurd hnil ht
        · obtain ⟨m', hm', -⟩ := hswitch'
          have := List.length_pos_of_mem hm'
          refine ⟨acc.length + 1, x, by rw [List.length_cons]; omega, ?_⟩
          rw [List.append_assoc, List.getElem?_append_right (by simp)]
          simp

/-! ## Whole frames -/

/-- The encoder announces the length of `bs` for the frame `L`, and writes `bs`. All that is
encoded is shown to be so by one of these. -/
structure FrameWire (L : List (ChannelMessage X)) (bs : Bytes) : Prop where
  size : vec_channel_messages_encoded_size L = .ok bs.length
  writes : Writes (vec_encode L) bs

/-- So `bs` is what `to_encoded_bytes` returns, whenever it can be allocated, and otherwise it
returns nothing at all. -/
theorem FrameWire.to_encoded_bytes_iff (hX : X.Lawful) {L : List (ChannelMessage X)} {bs : Bytes}
    (h : FrameWire L bs) (b : Bytes) :
    to_encoded_bytes L = .ok b ↔ b = bs ∧ bs.length ≤ ISIZE_MAX := by
  have hsize : (vec_codec X).encoded_size L = .ok bs.length := h.size
  have hok : bs.length ≤ ISIZE_MAX → to_encoded_bytes L = .ok bs := by
    intro hle
    rw [to_encoded_bytes, hX.to_encoded_bytes (vec_codec X) L bs.length bs [] hsize hle
      h.writes.fill, List.append_nil]
  constructor
  · intro hb
    obtain ⟨n, hn, hle⟩ := hX.to_encoded_bytes_fits (vec_codec X) L b hb
    rw [hsize] at hn
    obtain rfl := Except.ok.inj hn
    rw [hok hle] at hb
    exact ⟨(Except.ok.inj hb).symm, hle⟩
  · rintro ⟨rfl, hle⟩
    exact hok hle

/-- A frame of several messages is written behind its prefix and its first channel, and the sizes
add up. -/
theorem batch_frame_wire (hX : X.Sized) {m m' : ChannelMessage X} {ms : List (ChannelMessage X)}
    {cb body : Bytes} (hcb : X.u64.Emits m.channel cb)
    (hsize : batch_encoded_size m.channel (m :: m' :: ms) = .ok body.length)
    (hwrites : Writes (encode_batch m.channel (m :: m' :: ms)) body) :
    FrameWire (m :: m' :: ms) (MULTI_MESSAGE_PREFIX ++ (cb ++ body)) := by
  refine ⟨?_, writes_bind (hX.write_array _) (writes_bind hcb.writes hwrites)⟩
  simp only [vec_channel_messages_encoded_size, hcb.size, hsize, ok_bind]
  refine congrArg Except.ok ?_
  simp only [List.length_append]
  omega

/-- A frame of several messages: the prefix, the first channel, the batch. The channels may
differ. -/
theorem batch_frame_travels (hX : X.Lawful) (L : List (ChannelMessage X)) (h₂ : 2 ≤ L.length)
    (hdata : ∀ m ∈ L, m.message.is_data = true) :
    ∃ c cb body, (∀ m ∈ L.head?, m.channel = c) ∧ X.u64.Carries c cb ∧ BatchWire c L body ∧
      FrameWire L (MULTI_MESSAGE_PREFIX ++ (cb ++ body)) := by
  match L, h₂ with
  | m :: m' :: ms, _ =>
    obtain ⟨cb, hcb⟩ := hX.u64 m.channel
    obtain ⟨body, hbody, hsize, hwrites⟩ := batch_travels hX (m :: m' :: ms) hdata m.channel
    exact ⟨m.channel, cb, body, fun x hx => by rw [← Option.mem_some.mp hx], hcb, hbody,
      batch_frame_wire hX.sized hcb.emits hsize hwrites⟩

/-- Such a frame is handed to the batch loop, with what is left of the buffer as its fuel. -/
theorem decode_batch_frame (hX : X.Lawful) {c : UInt64} {cb body : Bytes}
    (hcb : X.u64.Carries c cb) :
    decode_unframed_channel_messages X (MULTI_MESSAGE_PREFIX ++ (cb ++ body)) = do
      let (messages, buf) ← decode_batch_loop X (MULTI_MESSAGE_PREFIX ++ (cb ++ body)).length
        body.length c body []
      return (messages, (MULTI_MESSAGE_PREFIX ++ (cb ++ body)).length - buf.length) := by
  have hpos := hX.u64.length_pos hcb
  have hlong : (MULTI_MESSAGE_PREFIX ++ (cb ++ body)).length ≥ 3 := by
    simp only [MULTI_MESSAGE_PREFIX, List.length_append, List.length_cons, List.length_nil]
    omega
  have htake : X.take_array 2 (MULTI_MESSAGE_PREFIX ++ (cb ++ body))
      = .ok (⟨MULTI_MESSAGE_PREFIX, rfl⟩, cb ++ body) :=
    hX.take_array 2 _ (by omega)
  rw [decode_unframed_channel_messages, if_pos ⟨hlong, rfl⟩, htake]
  simp only [map_err_ok, ok_bind, hcb.reads body]
  rfl

theorem vec_encode_single {m : ChannelMessage X} (h : m.message.is_open_or_close = false) :
    vec_encode [m] = (do X.u64.encode m.channel; m.message.encode) := by
  obtain ⟨channel, message⟩ := m
  cases message with
  | Open x => exact nomatch h
  | Close x => exact nomatch h
  | _ => rfl

/-- A single message is written behind its channel number, without a prefix and without a
length. -/
theorem data_frame_wire {m : ChannelMessage X} {cb mb : Bytes}
    (hnot : m.message.is_open_or_close = false) (hcb : X.u64.Emits m.channel cb)
    (hmb : (Message.codec X).Emits m.message mb) : FrameWire [m] (cb ++ mb) := by
  have hmsize : m.message.encoded_size = .ok mb.length := hmb.size
  constructor
  · simp only [vec_channel_messages_encoded_size, ChannelMessage.encoded_size, hnot,
      Bool.false_eq_true, if_false, hcb.size, ok_bind, hmsize, List.length_append]
    rfl
  · rw [vec_encode_single hnot]
    exact writes_bind hcb.writes hmb.writes

/-- An `Open` is written behind its prefix, without a channel number: its own first field is the
channel. -/
theorem open_frame_wire (hX : X.Sized) (channel : UInt64) {o : Open} {ob : Bytes}
    (hob : (Open.codec X).Emits o ob) :
    FrameWire [⟨channel, (Message.Open o : Message X)⟩] (OPEN_MESSAGE_PREFIX ++ ob) := by
  refine ⟨?_, writes_bind (hX.write_array _) (writes_bind writes_pure hob.writes)⟩
  simp only [vec_channel_messages_encoded_size, ChannelMessage.encoded_size,
    Message.encoded_size, Message.is_open_or_close, if_true, pure_bind, hob.size, ok_bind]
  refine congrArg Except.ok ?_
  simp only [OPEN_MESSAGE_PREFIX, List.length_append, List.length_cons, List.length_nil]
  omega

/-- A `Close` is written behind its prefix, without a channel number: it is one. -/
theorem close_frame_wire (hX : X.Sized) (channel : UInt64) {c : Close} {cb : Bytes}
    (hcb : (Close.codec X).Emits c cb) :
    FrameWire [⟨channel, (Message.Close c : Message X)⟩] (CLOSE_MESSAGE_PREFIX ++ cb) := by
  refine ⟨?_, writes_bind (hX.write_array _) (writes_bind writes_pure hcb.writes)⟩
  simp only [vec_channel_messages_encoded_size, ChannelMessage.encoded_size,
    Message.encoded_size, Message.is_open_or_close, if_true, pure_bind, hcb.size, ok_bind]
  refine congrArg Except.ok ?_
  simp only [CLOSE_MESSAGE_PREFIX, List.length_append, List.length_cons, List.length_nil]
  omega

/-- The frame is read to its end, whatever follows. Frames of this kind can stand in front of
others in one buffer. -/
def EndsAt (L : List (ChannelMessage X)) (bs : Bytes) : Prop :=
  ∀ rest, decode_unframed_channel_messages X (bs ++ rest) = .ok (L, bs.length)

theorem EndsAt.alone {L : List (ChannelMessage X)} {bs : Bytes} (h : EndsAt L bs) :
    decode_unframed_channel_messages X bs = .ok (L, bs.length) := by
  have halone := h []
  rwa [List.append_nil] at halone

/-- A single message behind its channel number ends by itself. Channel 0 is excluded, since its
number looks like a prefix. -/
theorem data_frame_travels (hX : X.Lawful) (m : ChannelMessage X)
    (hdata : m.message.is_data = true) (hm : m.channel ≠ 0) :
    ∃ bs, FrameWire [m] bs ∧ EndsAt [m] bs := by
  obtain ⟨cb, hcb⟩ := hX.u64 m.channel
  obtain ⟨mb, hmb, hmb₂⟩ := message_travels hX m.message hdata
  have hwire := data_frame_wire (is_open_or_close_of_is_data hdata) hcb.emits hmb.emits
  refine ⟨cb ++ mb, hwire, fun rest => ?_⟩
  have hlen : (cb ++ mb ++ rest).length ≥ 2 := by
    rw [List.length_append, List.length_append]
    omega
  have hhead : (cb ++ mb ++ rest).head? ≠ some 0 := by
    rw [List.append_assoc]
    exact message.head_ne_zero hX hcb hm
  have hread : Message.decode X (mb ++ rest) = .ok (m.message, rest) := hmb.reads rest
  rw [decode_unframed_channel_messages, if_neg fun h => hhead h.2, if_pos hlen,
    ChannelMessage.decode_from_channel_and_message, List.append_assoc]
  simp only [hcb.reads (mb ++ rest), hread, ok_bind]
  refine congrArg (fun n => Except.ok (_, n)) ?_
  simp only [List.length_append]
  omega

/-- A frame that starts with the prefix of an `Open` goes to the decoder of `Open`, and its
length counts the prefix. -/
theorem decode_open_frame {ob : Bytes} (hlong : 1 ≤ ob.length) :
    decode_unframed_channel_messages X (OPEN_MESSAGE_PREFIX ++ ob) =
      (ChannelMessage.decode_open_message X ob >>= fun x => pure ([x.1], x.2 + 2)) := by
  have hlen : (OPEN_MESSAGE_PREFIX ++ ob).length ≥ 3 := by
    simp only [OPEN_MESSAGE_PREFIX, List.length_append, List.length_cons, List.length_nil]
    omega
  have hslice : (slice_from (OPEN_MESSAGE_PREFIX ++ ob) 2 : Res IoError Bytes) = .ok ob := by
    rw [slice_from, if_pos (by omega)]
    rfl
  rw [decode_unframed_channel_messages, if_pos ⟨hlen, rfl⟩]
  show (slice_from (OPEN_MESSAGE_PREFIX ++ ob) 2 >>= fun buf =>
    ChannelMessage.decode_open_message X buf >>= fun x => pure ([x.1], x.2 + 2)) = _
  rw [hslice, ok_bind]

/-- A frame that starts with the prefix of a `Close` goes to the decoder of `Close`, and its
length counts the prefix. -/
theorem decode_close_frame {cb : Bytes} (hlong : 1 ≤ cb.length) :
    decode_unframed_channel_messages X (CLOSE_MESSAGE_PREFIX ++ cb) =
      (ChannelMessage.decode_close_message X cb >>= fun x => pure ([x.1], x.2 + 2)) := by
  have hlen : (CLOSE_MESSAGE_PREFIX ++ cb).length ≥ 3 := by
    simp only [CLOSE_MESSAGE_PREFIX, List.length_append, List.length_cons, List.length_nil]
    omega
  have hslice : (slice_from (CLOSE_MESSAGE_PREFIX ++ cb) 2 : Res IoError Bytes) = .ok cb := by
    rw [slice_from, if_pos (by omega)]
    rfl
  rw [decode_unframed_channel_messages, if_pos ⟨hlen, rfl⟩]
  show (slice_from (CLOSE_MESSAGE_PREFIX ++ cb) 2 >>= fun buf =>
    ChannelMessage.decode_close_message X buf >>= fun x => pure ([x.1], x.2 + 2)) = _
  rw [hslice, ok_bind]

/-- An `Open` that the decoder of `Open` finds is what the frame decodes to, also if it reads
beyond its own bytes. -/
theorem open_frame_reads {o : Open} {ob rest left : Bytes} (hlong : 32 ≤ ob.length)
    (hdec : Open.decode X (ob ++ rest) = .ok (o, left)) :
    decode_unframed_channel_messages X (OPEN_MESSAGE_PREFIX ++ ob ++ rest) =
      .ok ([⟨o.channel, .Open o⟩], (ob ++ rest).length - left.length + 2) := by
  have hlen : ob.length ≤ (ob ++ rest).length := by
    rw [List.length_append]
    omega
  rw [List.append_assoc, decode_open_frame (by omega), ChannelMessage.decode_open_message,
    if_neg (by omega), hdec]
  rfl

/-- And nothing else is: a frame with the prefix of an `Open` decodes to a single `Open`. -/
theorem open_frame_found {ob rest : Bytes} {L : List (ChannelMessage X)} {n : ℕ}
    (hlong : 32 ≤ ob.length)
    (h : decode_unframed_channel_messages X (OPEN_MESSAGE_PREFIX ++ ob ++ rest) = .ok (L, n)) :
    ∃ o left, Open.decode X (ob ++ rest) = .ok (o, left) ∧ L = [⟨o.channel, .Open o⟩] := by
  have hlen : ob.length ≤ (ob ++ rest).length := by
    rw [List.length_append]
    omega
  rw [List.append_assoc, decode_open_frame (by omega), ChannelMessage.decode_open_message,
    if_neg (by omega)] at h
  obtain ⟨⟨msg, k⟩, hmsg, h⟩ := bind_eq_ok h
  obtain ⟨⟨o, left⟩, hdec, hmsg⟩ := bind_eq_ok hmsg
  obtain ⟨rfl, -⟩ := Prod.mk.inj (Except.ok.inj hmsg)
  obtain ⟨rfl, -⟩ := Prod.mk.inj (Except.ok.inj h)
  exact ⟨o, left, map_err_eq_ok hdec, rfl⟩

/-- An `Open` behind its prefix. An `Open` reads a capability whenever bytes are left, so that
it decodes to itself is said for the frame alone. -/
theorem open_frame_travels (hX : X.Lawful) (o : Open) (hdk : o.discovery_key.val.length = 32)
    (hcap : ∀ cap, o.capability = some cap → cap.val.length = 32) :
    ∃ ob, Open.Travels X o ob ∧ 32 ≤ ob.length ∧
      FrameWire [⟨o.channel, (Message.Open o : Message X)⟩] (OPEN_MESSAGE_PREFIX ++ ob) ∧
      decode_unframed_channel_messages X (OPEN_MESSAGE_PREFIX ++ ob) =
        .ok ([⟨o.channel, .Open o⟩], (OPEN_MESSAGE_PREFIX ++ ob).length) := by
  obtain ⟨ob, hopen⟩ := Open.travels hX o hcap
  have hlong : 32 ≤ ob.length := hdk ▸ hopen.key_le
  refine ⟨ob, hopen, hlong, open_frame_wire hX.sized o.channel hopen.emits, ?_⟩
  have hdec : Open.decode X (ob ++ []) = .ok (o, []) := by
    rw [List.append_nil]
    exact hopen.alone
  have halone := open_frame_reads hlong hdec
  rw [List.append_nil, List.append_nil, List.length_nil, Nat.sub_zero] at halone
  rw [halone, List.length_append, Nat.add_comm]
  rfl

/-- A `Close` behind its prefix ends by itself, being a number. -/
theorem close_frame_travels (hX : X.Lawful) (c : Close) :
    ∃ bs, FrameWire [⟨c.channel, (Message.Close c : Message X)⟩] bs ∧
      EndsAt [⟨c.channel, (Message.Close c : Message X)⟩] bs := by
  obtain ⟨cb, hcb⟩ := Close.round_trips hX c
  have hpos := (Close.round_trips hX).length_pos hcb
  refine ⟨CLOSE_MESSAGE_PREFIX ++ cb, close_frame_wire hX.sized c.channel hcb.emits, fun rest => ?_⟩
  have hlong : 1 ≤ (cb ++ rest).length := by
    rw [List.length_append]
    omega
  rw [List.append_assoc, decode_close_frame hlong, ChannelMessage.decode_close_message,
    if_neg (by rw [List.isEmpty_iff]; exact List.ne_nil_of_length_pos hlong)]
  simp only [hcb.reads rest, map_err_ok, ok_bind]
  refine congrArg (fun n => Except.ok (_, n)) ?_
  simp only [CLOSE_MESSAGE_PREFIX, List.length_append, List.length_cons, List.length_nil]
  omega

/-- One frame that fills the buffer is all the outer loop sees: it decodes it and stops. -/
theorem vec_decode_frame {bs : Bytes} {L : List (ChannelMessage X)} (hne : bs ≠ [])
    (h : decode_unframed_channel_messages X bs = .ok (L, bs.length)) :
    vec_decode X bs = .ok (L, []) := by
  obtain ⟨n, hn⟩ : ∃ n, bs.length = n + 1 := by
    obtain ⟨b, t, rfl⟩ := List.exists_cons_of_ne_nil hne
    exact ⟨t.length, rfl⟩
  have hempty : bs.isEmpty = false := List.isEmpty_eq_false_iff.mpr hne
  have hslice : (slice_from bs bs.length : Res EncodingError Bytes) = .ok [] := by
    rw [slice_from, if_pos (Nat.le_refl _), List.drop_length]
  rw [vec_decode, hn, vec_decode_loop.eq_def]
  simp only [hempty, Bool.false_eq_true, if_false, h, map_err_ok, ok_bind, hslice]
  rw [vec_decode_loop.eq_def, List.isEmpty_nil, if_pos rfl, List.nil_append]

/-- The outer loop only ever appends: what it decodes first comes out first, whatever follows
it. -/
theorem vec_decode_loop_prefix {fuel : ℕ} {bs rest : Bytes} {acc out : List (ChannelMessage X)}
    (h : vec_decode_loop X fuel bs acc = .ok (out, rest)) : acc <+: out := by
  induction fuel generalizing bs acc with
  | zero =>
    rw [vec_decode_loop] at h
    split at h
    · obtain ⟨rfl, -⟩ := Prod.mk.inj (Except.ok.inj h)
      exact List.prefix_rfl
    · exact nomatch h
  | succ fuel ih =>
    rw [vec_decode_loop] at h
    split at h
    · obtain ⟨rfl, -⟩ := Prod.mk.inj (Except.ok.inj h)
      exact List.prefix_rfl
    · obtain ⟨⟨msgs, n⟩, -, h⟩ := bind_eq_ok h
      obtain ⟨bs', -, h⟩ := bind_eq_ok h
      exact (List.prefix_append acc msgs).trans (ih h)

theorem vec_decode_first {bs rest : Bytes} {out : List (ChannelMessage X)} (hne : bs ≠ [])
    (h : vec_decode X bs = .ok (out, rest)) :
    ∃ msgs n, decode_unframed_channel_messages X bs = .ok (msgs, n) ∧ msgs <+: out := by
  obtain ⟨b, t, rfl⟩ := List.exists_cons_of_ne_nil hne
  rw [vec_decode, List.length_cons, vec_decode_loop] at h
  split at h
  · rename_i he
    exact absurd he (by simp)
  · obtain ⟨⟨msgs, n⟩, hmsgs, h⟩ := bind_eq_ok h
    obtain ⟨bs', -, h⟩ := bind_eq_ok h
    exact ⟨msgs, n, map_err_eq_ok hmsgs, vec_decode_loop_prefix h⟩

/-! ## Round trips -/

/-- The frames on one channel: a single message, an `Open`, a `Close`, or a batch
that never switches. -/
inductive UnswitchedFrame : List (ChannelMessage X) → Prop where
  | single (m : ChannelMessage X) (hdata : m.message.is_data = true) (hc : 1 ≤ m.channel) :
      UnswitchedFrame [m]
  | opening (o : Open) (hdk : o.discovery_key.val.length = 32)
      (hcap : ∀ cap, o.capability = some cap → cap.val.length = 32) :
      UnswitchedFrame [⟨o.channel, .Open o⟩]
  | closing (c : Close) : UnswitchedFrame [⟨c.channel, .Close c⟩]
  | batch (c : UInt64) (L : List (ChannelMessage X)) (h₂ : 2 ≤ L.length) (hc : 1 ≤ c)
      (hdata : ∀ m ∈ L, m.message.is_data = true) (hsame : ∀ m ∈ L, m.channel = c) :
      UnswitchedFrame L

theorem channel_ne_zero {c : UInt64} (hc : 1 ≤ c) : c ≠ 0 := by
  rintro rfl
  exact absurd hc (by decide)

/-- Each of them is written to some bytes that decode to it alone. The bound is that of a length
on the wire. -/
theorem UnswitchedFrame.travels (hX : X.Lawful) {L : List (ChannelMessage X)}
    (h : UnswitchedFrame L) :
    ∃ bs, FrameWire L bs ∧ (bs.length < 2 ^ 64 → vec_decode X bs = .ok (L, [])) := by
  -- the outer loop ends after the one frame
  have hframe : ∀ {L : List (ChannelMessage X)} {bs : Bytes},
      decode_unframed_channel_messages X bs = .ok (L, bs.length) →
        vec_decode X bs = .ok (L, []) := by
    intro L bs hdec
    refine vec_decode_frame ?_ hdec
    rintro rfl
    exact nomatch hdec
  cases h with
  | single m hdata hc =>
    obtain ⟨bs, hbs, hends⟩ := data_frame_travels hX m hdata (channel_ne_zero hc)
    exact ⟨bs, hbs, fun _ => hframe hends.alone⟩
  | opening o hdk hcap =>
    obtain ⟨ob, -, -, hbs, hdec⟩ := open_frame_travels hX o hdk hcap
    exact ⟨_, hbs, fun _ => hframe hdec⟩
  | closing c =>
    obtain ⟨bs, hbs, hends⟩ := close_frame_travels hX c
    exact ⟨bs, hbs, fun _ => hframe hends.alone⟩
  | batch c L h₂ hc hdata hsame =>
    obtain ⟨c', cb, body, hhead, hcb, hbody, hwire⟩ := batch_frame_travels hX L h₂ hdata
    -- the batch starts with the channel of its first message, which is that of all
    have hc' : c' = c := by
      obtain ⟨m, ms, rfl⟩ := List.exists_cons_of_length_pos (Nat.lt_of_lt_of_le Nat.two_pos h₂)
      rw [← hhead m rfl, hsame m List.mem_cons_self]
    subst hc'
    refine ⟨_, hwire, fun hfit => hframe ?_⟩
    simp only [List.length_append] at hfit
    rw [decode_batch_frame hX hcb,
      decode_batch_same hX hbody hsame (by omega) _ (Nat.le_refl _) []]
    rfl

/-- A frame that stays on one channel survives the wire. It is encoded when its
bytes can be allocated, and the bytes decode to the frame and nothing else. -/
theorem unswitched_frame_round_trips (hX : X.Lawful) (L : List (ChannelMessage X))
    (h : UnswitchedFrame L) :
    (∀ b, to_encoded_bytes L = .ok b → vec_decode X b = .ok (L, [])) ∧
      ∃ n, vec_channel_messages_encoded_size L = .ok n ∧
        (n ≤ ISIZE_MAX → ∃ b, to_encoded_bytes L = .ok b ∧ b.length = n) := by
  obtain ⟨bs, hwire, hdec⟩ := h.travels hX
  refine ⟨fun b hb => ?_, bs.length, hwire.size, fun hle => ⟨bs, ?_, rfl⟩⟩
  · obtain ⟨rfl, hle⟩ := (hwire.to_encoded_bytes_iff hX b).mp hb
    exact hdec (Nat.lt_of_le_of_lt hle (by decide))
  · exact (hwire.to_encoded_bytes_iff hX bs).mpr ⟨rfl, hle⟩

/-- Two cancellations on channel 3 are such a frame. -/
theorem unswitched_frame_round_trips_cancels :
    ∃ b, to_encoded_bytes ([⟨3, .Cancel ⟨5⟩⟩, ⟨3, .Cancel ⟨0⟩⟩] :
        List (ChannelMessage compact_encoding.deps)) = .ok b ∧
      vec_decode compact_encoding.deps b = .ok ([⟨3, .Cancel ⟨5⟩⟩, ⟨3, .Cancel ⟨0⟩⟩], []) :=
  ⟨[0, 0, 3, 2, 2, 5, 2, 2, 0], rfl,
    (unswitched_frame_round_trips compact_encoding.deps_lawful _
      (.batch 3 _ (by decide) (by decide) (by simp [Message.is_data]) (by simp))).1 _ rfl⟩

/-- If what the encoder makes of a batch that switches channel is decoded at all, some message
comes out on channel 0. -/
theorem switching_batch_on_zero (hX : X.Lawful) {L : List (ChannelMessage X)} (h₂ : 2 ≤ L.length)
    (hdata : ∀ m ∈ L, m.message.is_data = true)
    (hswitch : ∃ m ∈ L, ∃ m' ∈ L, m.channel ≠ m'.channel) {b rest : Bytes}
    {out : List (ChannelMessage X)} (hb : to_encoded_bytes L = .ok b)
    (hdec : vec_decode X b = .ok (out, rest)) : ∃ x, (⟨0, x⟩ : ChannelMessage X) ∈ out := by
  obtain ⟨c, cb, body, hhead, hcb, hbody, hwire⟩ := batch_frame_travels hX L h₂ hdata
  obtain ⟨rfl, hle⟩ := (hwire.to_encoded_bytes_iff hX b).mp hb
  obtain ⟨msgs, n, hmsgs, hpre⟩ := vec_decode_first (by simp [MULTI_MESSAGE_PREFIX]) hdec
  rw [decode_batch_frame hX hcb] at hmsgs
  obtain ⟨⟨out', rest'⟩, hloop, hout⟩ := bind_eq_ok hmsgs
  obtain ⟨rfl, -⟩ := Prod.mk.inj (Except.ok.inj hout)
  have hswitch' : ∃ m ∈ L, m.channel ≠ c := by
    obtain ⟨m, hm, m', hm', hne⟩ := hswitch
    by_cases h : m.channel = c
    · exact ⟨m', hm', fun h' => hne (h.trans h'.symm)⟩
    · exact ⟨m, hm, h⟩
  have hfit : body.length < 2 ^ 64 := by
    simp only [List.length_append] at hle
    exact Nat.lt_of_le_of_lt (Nat.le_trans (by omega) hle) (by decide)
  obtain ⟨i, x, -, hx⟩ := decode_batch_switch hX hbody hhead hswitch' hfit hloop
  exact ⟨x, hpre.subset (List.mem_of_getElem? hx)⟩

/-- A batch that switches channel never survives the wire: the bytes the encoder
makes of it decode to something else, or to an error. -/
theorem switching_batch_never_round_trips (hX : X.Lawful) (L : List (ChannelMessage X))
    (h₂ : 2 ≤ L.length) (hdata : ∀ m ∈ L, m.message.is_data = true)
    (hc : ∀ m ∈ L, 1 ≤ m.channel) (hswitch : ∃ m ∈ L, ∃ m' ∈ L, m.channel ≠ m'.channel) :
    ¬ ∃ b, to_encoded_bytes L = .ok b ∧ vec_decode X b = .ok (L, []) := by
  rintro ⟨b, hb, hdec⟩
  -- some message comes out on channel 0, and none went in there
  obtain ⟨x, hx⟩ := switching_batch_on_zero hX h₂ hdata hswitch hb hdec
  exact channel_ne_zero (hc _ hx) rfl

/-- A cancellation on channel 1 and one on channel 2 are such a batch. -/
theorem switching_batch_never_round_trips_cancels :
    ¬ ∃ b, to_encoded_bytes ([⟨1, .Cancel ⟨5⟩⟩, ⟨2, .Cancel ⟨0⟩⟩] :
        List (ChannelMessage compact_encoding.deps)) = .ok b ∧
      vec_decode compact_encoding.deps b = .ok ([⟨1, .Cancel ⟨5⟩⟩, ⟨2, .Cancel ⟨0⟩⟩], []) :=
  switching_batch_never_round_trips compact_encoding.deps_lawful _ (by decide)
    (by simp [Message.is_data]) (by simp)
    ⟨_, List.mem_cons_self, _, List.mem_cons_of_mem _ List.mem_cons_self, by decide⟩

/-- The second one is not lost but comes out changed: its channel number 2 is
taken for a length, and what is left is the cancellation of request 2 on
channel 0. -/
theorem switching_batch_misread :
    to_encoded_bytes ([⟨1, .Cancel ⟨5⟩⟩, ⟨2, .Cancel ⟨0⟩⟩] :
        List (ChannelMessage compact_encoding.deps)) = .ok [0, 0, 1, 2, 2, 5, 0, 2, 2, 2, 0] ∧
      vec_decode compact_encoding.deps [0, 0, 1, 2, 2, 5, 0, 2, 2, 2, 0]
        = .ok ([⟨1, .Cancel ⟨5⟩⟩, ⟨0, .Cancel ⟨2⟩⟩], []) :=
  ⟨rfl, rfl⟩

end hypercore_protocol.message
