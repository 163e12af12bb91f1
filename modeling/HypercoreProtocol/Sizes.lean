/-
The announced size of a frame is the size it is written in.

`vec_channel_messages_encoded_size` is a traversal of its own, written next to
`vec_encode` and not derived from it. Here both are followed along the same list,
for every list the encoder is given: no message, one message, or a batch over any
channels, which may hold an `Open` or a `Close` as well. Of the other crates it is
only assumed that their encoders write what they announce (`Deps.Sized`); nothing is
said about reading the bytes back.

`BatchBytes` is the layout of a batch with parts that are `announced`. The length in
front of a message is a `u64` made of a `usize`, so it is the length of the message as
long as that is a `usize`; the bound stands where it is used, as `2 ^ 64`.
-/
import HypercoreProtocol.FrameSpec
import HypercoreProtocol.Handshake

set_option autoImplicit false

namespace hypercore_protocol.message

open Rust Wire schema

variable {X : Deps}

/-- The message may be put on the wire: it is not a local signal, and an `Open` has no
capability or one of 32 bytes. -/
def Message.Encodable (m : Message X) : Prop :=
  match m with
  | .LocalSignal _ _ => False
  | .Open o => ∀ cap, o.capability = some cap → cap.val.length = 32
  | _ => True

theorem payloads_sized (hX : X.Sized) : Payloads X fun _ c => c.Sized where
  synchronize := Synchronize.sized hX
  request := Request.sized hX
  cancel := Cancel.sized hX
  data := Data.sized hX
  no_data := NoData.sized hX
  want := Want.sized hX
  unwant := Unwant.sized hX
  bitfield := Bitfield.sized hX
  range := Range.sized hX
  extension := Extension.sized hX

/-- Every message that may be put on the wire is written in as many bytes as announced. -/
theorem Message.emits (hX : X.Sized) (m : Message X) (hm : m.Encodable) :
    ∃ bs, (Message.codec X).Emits m bs := by
  cases hd : m.is_data with
  | true =>
    obtain ⟨α, c, n, mk, x, harm, hc, rfl⟩ := Message.of_data (payloads_sized hX) m hd
    obtain ⟨nb, hn⟩ := hX.u64 n
    obtain ⟨xb, hx⟩ := hc x
    exact ⟨nb ++ xb, harm.emits hn hx⟩
  | false =>
    -- the two messages without a type number
    cases m with
    | Open o =>
      obtain ⟨bs, hopen⟩ := Open.sized hX o hm
      have hwrites : Writes (pure () >>= fun _ => (Open.codec X).encode o) _ :=
        writes_bind writes_pure hopen.writes
      refine ⟨_, ?_, hwrites⟩
      simp only [Message.codec, Message.encoded_size, Message.is_open_or_close, if_true, pure_bind,
        hopen.size, ok_bind]
      exact congrArg Except.ok (Nat.zero_add _)
    | Close c =>
      obtain ⟨bs, hclose⟩ := Close.sized hX c
      refine ⟨bs, ?_, writes_bind writes_pure hclose.writes⟩
      simp only [Message.codec, Message.encoded_size, Message.is_open_or_close, if_true, pure_bind,
        hclose.size, ok_bind]
      exact congrArg Except.ok (Nat.zero_add _)
    | LocalSignal name data => exact absurd hm id
    | _ => cases hd

/-! ## A batch -/

/-- Parts that are written as announced: a message, a length that is the `u64` of this value,
and a channel number. -/
def announced (X : Deps) : Parts X where
  body m mb := (Message.codec X).Emits m mb
  length n lb := ∃ k : UInt64, k.toNat = n ∧ X.u64.Emits k lb
  channel c cb := X.u64.Emits c cb

/-- The bytes of a batch after its first channel number, as they are announced: lengths are those
that the size counts. -/
abbrev BatchBytes (c : UInt64) (ms : List (ChannelMessage X)) (bs : Bytes) : Prop :=
  (announced X).Batch c ms bs

/-- A layout with other lengths, if these are as good up to the size of the batch. -/
theorem Parts.Batch.lengths {P : Parts X} {length : ℕ → Bytes → Prop} {N : ℕ} {c : UInt64}
    {ms : List (ChannelMessage X)} {bs : Bytes} (h : P.Batch c ms bs) (hN : bs.length < N)
    (hlength : ∀ n lb, n < N → P.length n lb → length n lb) :
    { P with length := length }.Batch c ms bs := by
  induction h with
  | nil c => exact .nil c
  | same hm hl h ih =>
    simp only [List.length_append] at hN
    exact .same hm (hlength _ _ (by omega) hl) (ih (by omega))
  | switch hc hcb hm hl h ih =>
    simp only [List.length_append] at hN
    exact .switch hc hcb hm (hlength _ _ (by omega) hl) (ih (by omega))

/-- The two traversals of a batch agree, from any current channel: the one that adds up sizes and
the one that writes. -/
theorem batch_emits (hX : X.Sized) (ms : List (ChannelMessage X))
    (hms : ∀ m ∈ ms, m.message.Encodable) (c : UInt64) :
    ∃ bs, batch_encoded_size c ms = .ok bs.length ∧ Writes (encode_batch c ms) bs ∧
      (bs.length < 2 ^ 64 → BatchBytes c ms bs) := by
  -- the length is written as a `u64`, whatever the length is
  let written : Parts X :=
    { announced X with length := fun n lb => X.u64.Emits (UInt64.ofNat n) lb }
  have hnumber : ∀ n, ∃ bs, X.u64.Emits n bs ∧ X.u64.Emits n bs := by
    intro n
    obtain ⟨bs, h⟩ := hX.u64 n
    exact ⟨bs, h, h⟩
  obtain ⟨bs, hbatch, hsize, hwrites⟩ := batch_layout hX (P := written) (fun m hm => by
    obtain ⟨mb, h⟩ := Message.emits hX m.message (hms m hm)
    exact ⟨mb, h, h⟩) (fun n => hnumber _) hnumber c
  refine ⟨bs, hsize, hwrites, fun hfit => hbatch.lengths hfit fun n lb hn hl => ?_⟩
  exact ⟨UInt64.ofNat n, UInt64.toNat_ofNat_of_lt' hn, hl⟩

/-! ## Whole frames -/

/-- One message: an `Open` or a `Close` behind its prefix, another one behind its channel number.
Three layouts, and one size for each. -/
theorem single_frame_emits (hX : X.Sized) (m : ChannelMessage X) (hm : m.message.Encodable) :
    ∃ bs, FrameWire [m] bs := by
  cases hoc : m.message.is_open_or_close with
  | false =>
    obtain ⟨cb, hcb⟩ := hX.u64 m.channel
    obtain ⟨mb, hmb⟩ := Message.emits hX m.message hm
    exact ⟨_, data_frame_wire hoc hcb hmb⟩
  | true =>
    obtain ⟨channel, message⟩ := m
    cases message with
    | Open o =>
      obtain ⟨ob, hob⟩ := Open.sized hX o hm
      exact ⟨_, open_frame_wire hX channel hob⟩
    | Close c =>
      obtain ⟨cb, hcb⟩ := Close.sized hX c
      exact ⟨_, close_frame_wire hX channel hcb⟩
    | _ => cases hoc

/-- Any list: the size is the number of bytes written, and a batch has the layout of one. -/
theorem frame_emits (hX : X.Sized) (L : List (ChannelMessage X))
    (hL : ∀ m ∈ L, m.message.Encodable) :
    ∃ bs, FrameWire L bs ∧
      ∀ m ms, L = m :: ms → ms ≠ [] → bs.length < 2 ^ 64 →
        ∃ cb body, bs = MULTI_MESSAGE_PREFIX ++ (cb ++ body) ∧ X.u64.Emits m.channel cb ∧
          BatchBytes m.channel L body := by
  match L, hL with
  | [], _ => exact ⟨[], ⟨rfl, writes_pure⟩, fun m ms h => by cases h⟩
  | [m], hL =>
    obtain ⟨bs, h⟩ := single_frame_emits hX m (hL m List.mem_cons_self)
    refine ⟨bs, h, fun m' ms h hms => ?_⟩
    exact absurd (List.cons.inj h).2.symm hms
  | m :: m' :: ms, hL =>
    obtain ⟨cb, hcb⟩ := hX.u64 m.channel
    obtain ⟨body, hsize, hwrites, hbytes⟩ := batch_emits hX (m :: m' :: ms) hL m.channel
    refine ⟨_, batch_frame_wire hX hcb hsize hwrites, ?_⟩
    rintro m₀ ms₀ h - hfit
    obtain ⟨rfl, -⟩ := List.cons.inj h
    simp only [List.length_append] at hfit
    exact ⟨cb, body, rfl, hcb, hbytes (by omega)⟩

/-- Size and encoder agree on every frame. The size that is announced for `L` is the number
of bytes `vec_encode` writes, in a buffer of any size that has room for them; in a buffer of
exactly that size it succeeds and leaves no byte unwritten; and in a batch each length
stands for the number of bytes of the message behind it. -/
theorem frame_size_agrees (hX : X.Sized) (L : List (ChannelMessage X))
    (hL : ∀ m ∈ L, m.message.Encodable) :
    ∃ bs, vec_channel_messages_encoded_size L = .ok bs.length ∧
      (vec_encode L).run ⟨[], List.replicate bs.length 0⟩ = .ok () ⟨bs, []⟩ ∧
      Writes (vec_encode L) bs ∧
      ∀ m ms, L = m :: ms → ms ≠ [] → bs.length < 2 ^ 64 →
        ∃ cb body, bs = MULTI_MESSAGE_PREFIX ++ (cb ++ body) ∧ X.u64.Emits m.channel cb ∧
          BatchBytes m.channel L body := by
  obtain ⟨bs, hwire, hbatch⟩ := frame_emits hX L hL
  exact ⟨bs, hwire.size, hwire.writes.fill, hwire.writes, hbatch⟩

/-- An `Open` with a capability, a range on another channel and a `Close`. -/
def mixed_batch : List (ChannelMessage compact_encoding.deps) :=
  [⟨1, .Open ⟨1, PROTOCOL_NAME, to_vec (compact_encoding.sample 7),
      some (to_vec (compact_encoding.sample 9))⟩⟩,
    ⟨2, .Range ⟨false, 300, 1⟩⟩, ⟨1, .Close ⟨1⟩⟩]

theorem mixed_batch_encodable : ∀ m ∈ mixed_batch, m.message.Encodable := by
  intro m hm
  simp only [mixed_batch, List.mem_cons, List.not_mem_nil, or_false] at hm
  rcases hm with rfl | rfl | rfl
  · rintro cap ⟨⟩
    rfl
  · exact trivial
  · exact trivial

/-- In one batch they take 99 bytes. -/
theorem frame_size_agrees_mixed :
    ∃ bs : Bytes, bs.length = 99 ∧
      (vec_encode mixed_batch).run ⟨[], List.replicate bs.length 0⟩ = .ok () ⟨bs, []⟩ := by
  obtain ⟨bs, hsize, hfill, -⟩ :=
    frame_size_agrees compact_encoding.deps_lawful.sized mixed_batch mixed_batch_encodable
  have h99 : vec_channel_messages_encoded_size mixed_batch = .ok 99 := rfl
  rw [h99] at hsize
  exact ⟨bs, (Except.ok.inj hsize).symm, hfill⟩

end hypercore_protocol.message
