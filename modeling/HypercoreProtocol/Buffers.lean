/-
Several frames in one buffer.

`Vec<ChannelMessage>::decode` reads frames one after the other until its buffer is empty, and
nothing between the frames says where one ends: each has to know its own end. Some do not.
The loop over a batch goes on to the end of the buffer, and an `Open` without a capability
takes whatever follows for one. So it depends on what stands in front of a frame whether it
is seen.

`frames_in_one_buffer` says which buffers are read as they were put together: those in which
every frame but the last is a single message, and no `Open` without its capability. For any
other frame in front of something the decoder does not stop where the frame ends.
-/
import HypercoreProtocol.Sizes
import HypercoreProtocol.FrameSpec
import HypercoreProtocol.Boundaries

set_option autoImplicit false
-- the source has a field `message` in its module `message`
set_option linter.dupNamespace false

namespace hypercore_protocol

open Rust Wire

variable {X : Deps}

namespace message

open schema

/-! ## Where a frame ends -/

/-- The frame is one message, and not an `Open` without a capability. These are the frames whose
end is in their own bytes. -/
def Delimits (L : List (ChannelMessage X)) : Prop :=
  ∃ m, L = [m] ∧ ∀ o, m.message = .Open o → o.capability ≠ none

theorem not_delimits_batch {L : List (ChannelMessage X)} (h : 2 ≤ L.length) : ¬ Delimits L := by
  rintro ⟨m, rfl, -⟩
  exact absurd h (Nat.not_succ_le_self 1)

/-- Whatever follows, the decoder does not stop where the frame ends. It may fail, or read a part
of what follows as its own. -/
def RunsOn (L : List (ChannelMessage X)) (bs : Bytes) : Prop :=
  ∀ rest, rest ≠ [] → decode_unframed_channel_messages X (bs ++ rest) ≠ .ok (L, bs.length)

/-- What the encoder makes of a frame on one channel, and how it is read: alone to its end, and
in front of others according to its kind. -/
structure Travels (L : List (ChannelMessage X)) (bs : Bytes) : Prop where
  wire : FrameWire L bs
  alone : bs.length < 2 ^ 64 → decode_unframed_channel_messages X bs = .ok (L, bs.length)
  ends_at : Delimits L → EndsAt L bs
  runs_on : ¬ Delimits L → RunsOn L bs

theorem travels_of_ends_at {L : List (ChannelMessage X)} {bs : Bytes} (hwire : FrameWire L bs)
    (hd : Delimits L) (h : EndsAt L bs) : Travels L bs :=
  ⟨hwire, fun _ => h.alone, fun _ => h, fun hno => absurd hd hno⟩

/-- An `Open` ends where it ends if it has a capability, and else runs on: it takes whatever
follows for one. -/
theorem open_travels (hX : X.Lawful) (o : Open) (hdk : o.discovery_key.val.length = 32)
    (hcap : ∀ cap, o.capability = some cap → cap.val.length = 32) :
    ∃ bs, Travels [⟨o.channel, (Message.Open o : Message X)⟩] bs := by
  obtain ⟨ob, hopen, hlong, hwire, halone⟩ := open_frame_travels hX o hdk hcap
  refine ⟨OPEN_MESSAGE_PREFIX ++ ob, hwire, fun _ => halone, fun hd rest => ?_,
    fun hno rest hrest h => ?_⟩
  · obtain ⟨m, hm, hall⟩ := hd
    obtain rfl := (List.cons.inj hm).1
    rw [open_frame_reads hlong (hopen.reads (hall o rfl) rest)]
    refine congrArg (fun n => Except.ok (_, n)) ?_
    simp only [OPEN_MESSAGE_PREFIX, List.length_append, List.length_cons, List.length_nil]
    omega
  · -- what follows is not empty, so it is taken for a capability
    have hnone : o.capability = none := by
      by_contra hsome
      refine hno ⟨_, rfl, fun o' ho' => ?_⟩
      rwa [← Message.Open.inj ho']
    obtain ⟨o', left, hdec, hmsg⟩ := open_frame_found hlong h
    obtain rfl : o = o' :=
      Message.Open.inj (congrArg ChannelMessage.message (List.cons.inj hmsg).1)
    exact hopen.runs_on hnone rest o left hrest hdec hnone

/-- The loop over a batch stops nowhere but at the end of the buffer. A batch has no count and no
length of its own. -/
theorem decode_batch_loop_rest {og_len fuel : ℕ} {channel : UInt64} {buf rest : Bytes}
    {messages out : List (ChannelMessage X)}
    (h : decode_batch_loop X og_len fuel channel buf messages = .ok (out, rest)) : rest = [] := by
  induction fuel generalizing channel buf messages with
  | zero =>
    rw [decode_batch_loop] at h
    split at h
    · obtain ⟨-, rfl⟩ := Prod.mk.inj (Except.ok.inj h)
      exact List.isEmpty_iff.mp ‹_›
    · cases h
  | succ fuel ih =>
    rw [decode_batch_loop] at h
    split at h
    · obtain ⟨-, rfl⟩ := Prod.mk.inj (Except.ok.inj h)
      exact List.isEmpty_iff.mp ‹_›
    · obtain ⟨⟨n, buf₁⟩, -, h⟩ := bind_eq_ok h
      dsimp only at h
      split at h
      · cases h
      obtain ⟨⟨msg, buf₂⟩, -, h⟩ := bind_eq_ok h
      dsimp only at h
      split at h
      · obtain ⟨⟨channel', buf₃⟩, -, h⟩ := bind_eq_ok h
        exact ih h
      · exact ih h

/-- A batch runs to the end of the buffer, and so into every frame behind it. -/
theorem batch_travels_alone (hX : X.Lawful) {c : UInt64} {L : List (ChannelMessage X)}
    (h₂ : 2 ≤ L.length) (hdata : ∀ m ∈ L, m.message.is_data = true)
    (hsame : ∀ m ∈ L, m.channel = c) : ∃ bs, Travels L bs := by
  obtain ⟨c', cb, body, hhead, hcb, hbody, hwire⟩ := batch_frame_travels hX L h₂ hdata
  obtain rfl : c' = c := by
    obtain ⟨m, ms, rfl⟩ := List.exists_cons_of_length_pos (Nat.lt_of_lt_of_le Nat.two_pos h₂)
    rw [← hhead m rfl, hsame m List.mem_cons_self]
  have hno := not_delimits_batch h₂
  refine ⟨_, hwire, fun hfit => ?_, fun hd => absurd hd hno, fun _ rest hrest h => ?_⟩
  · simp only [List.length_append] at hfit
    rw [decode_batch_frame hX hcb,
      decode_batch_same hX hbody hsame (by omega) _ (Nat.le_refl _) []]
    rfl
  · rw [List.append_assoc, List.append_assoc, decode_batch_frame hX hcb] at h
    obtain ⟨⟨messages, buf⟩, hloop, h⟩ := bind_eq_ok h
    obtain rfl := decode_batch_loop_rest hloop
    obtain ⟨-, hlen⟩ := Prod.mk.inj (Except.ok.inj h)
    have hpos := List.length_pos_of_ne_nil hrest
    simp only [List.length_append, List.length_nil] at hlen
    omega

theorem UnswitchedFrame.travels_among (hX : X.Lawful) {L : List (ChannelMessage X)}
    (h : UnswitchedFrame L) : ∃ bs, Travels L bs := by
  cases h with
  | single m hdata hc =>
    obtain ⟨bs, hwire, hends⟩ := data_frame_travels hX m hdata (channel_ne_zero hc)
    refine ⟨bs, travels_of_ends_at hwire ⟨m, rfl, fun o ho => ?_⟩ hends⟩
    rw [ho] at hdata
    cases hdata
  | opening o hdk hcap => exact open_travels hX o hdk hcap
  | closing c =>
    obtain ⟨bs, hwire, hends⟩ := close_frame_travels hX c
    refine ⟨bs, travels_of_ends_at hwire ⟨_, rfl, ?_⟩ hends⟩
    rintro o ⟨⟩
  | batch c L h₂ hc hdata hsame => exact batch_travels_alone hX h₂ hdata hsame

/-! ## A buffer of frames -/

/-- Each frame is read from where it starts, up to where it ends, with all later frames behind
it. -/
def ReadsFrames : List (List (ChannelMessage X)) → List Bytes → Prop
  | L :: frames, b :: bs =>
    decode_unframed_channel_messages X (b ++ bs.flatten) = .ok (L, b.length) ∧
      ReadsFrames frames bs
  | _, _ => True

/-- Frames that are read one by one are what the buffer decodes to, in order. The induction is on
the frames. -/
theorem ReadsFrames.vec_decode_loop {frames : List (List (ChannelMessage X))} {bs : List Bytes}
    (hlen : frames.length = bs.length) (hne : ∀ b ∈ bs, b ≠ []) (h : ReadsFrames frames bs)
    {fuel : ℕ} (hfuel : bs.flatten.length ≤ fuel) (acc : List (ChannelMessage X)) :
    vec_decode_loop X fuel bs.flatten acc = .ok (acc ++ frames.flatten, []) := by
  induction bs generalizing frames fuel acc with
  | nil =>
    obtain rfl := List.length_eq_zero_iff.mp hlen
    rw [message.vec_decode_loop.eq_def, List.flatten_nil, List.isEmpty_nil, if_pos rfl,
      List.flatten_nil, List.append_nil]
  | cons b bs ih =>
    obtain ⟨L, frames, rfl⟩ := List.exists_cons_of_length_eq_add_one hlen
    obtain ⟨hread, hrest⟩ := h
    have hb := hne b List.mem_cons_self
    have hpos := List.length_pos_of_ne_nil hb
    rw [List.flatten_cons] at hfuel ⊢
    rw [List.length_append] at hfuel
    obtain ⟨fuel, rfl⟩ : ∃ k, fuel = k + 1 := ⟨fuel - 1, by omega⟩
    have hempty : (b ++ bs.flatten).isEmpty = false :=
      List.isEmpty_eq_false_iff.mpr (List.append_ne_nil_of_left_ne_nil hb _)
    have hslice : (slice_from (b ++ bs.flatten) b.length : Res EncodingError Bytes) =
        .ok bs.flatten := by
      rw [slice_from, if_pos (by rw [List.length_append]; omega), List.drop_left]
    rw [message.vec_decode_loop.eq_def]
    simp only [hempty, Bool.false_eq_true, if_false, hread, map_err_ok, ok_bind, hslice]
    rw [ih (Nat.succ.inj hlen) (fun b' hb' => hne b' (List.mem_cons_of_mem b hb')) hrest
      (by omega), List.flatten_cons, List.append_assoc]

/-- What an encoded frame is, whether it stands alone or in front of something. It is not empty,
so that the loop over frames goes on. -/
theorem UnswitchedFrame.encoded (hX : X.Lawful) {L : List (ChannelMessage X)} {b : Bytes}
    (h : UnswitchedFrame L) (henc : to_encoded_bytes L = .ok b) :
    b ≠ [] ∧ Travels L b ∧ decode_unframed_channel_messages X b = .ok (L, b.length) := by
  obtain ⟨bs, htravels⟩ := h.travels_among hX
  obtain ⟨rfl, hfits⟩ := (htravels.wire.to_encoded_bytes_iff hX b).mp henc
  have halone := htravels.alone (Nat.lt_of_le_of_lt hfits (by decide))
  refine ⟨?_, htravels, halone⟩
  rintro rfl
  cases halone

theorem encoded_ne_nil (hX : X.Lawful) {frames : List (List (ChannelMessage X))}
    {bs : List Bytes} (hframes : ∀ L ∈ frames, UnswitchedFrame L)
    (henc : List.Forall₂ (fun L b => to_encoded_bytes L = .ok b) frames bs) :
    ∀ b ∈ bs, b ≠ [] := by
  induction henc with
  | nil => exact fun b hb => absurd hb List.not_mem_nil
  | cons hLb henc ih =>
    refine List.forall_mem_cons.mpr ⟨((hframes _ List.mem_cons_self).encoded hX hLb).1, ?_⟩
    exact ih fun L hL => hframes L (List.mem_cons_of_mem _ hL)

end message

end hypercore_protocol
