/-
The message codec in both directions.

Written and read: every message that may share a frame travels under any suffix. Read
and written: whatever `Message::decode` accepts is a message that travels, in no more
bytes than were taken for it, so that decoding and encoding again gives a shorter or
equal form of the same message. The forms that are not the encoder's own are numbers
in a wider form than they need, bits of a flags byte that mean nothing, and defaults
that are written out: the priority 0 of a request, the length 1 of a range.

Both are assumed of the other crates' codecs, as `Deps.Lawful` and
`Deps.Normalizing`, and the second half goes through the parsers of the schema one
field at a time. A flags byte is read for its bits and written again from the
decoded fields, which is where unknown bits are dropped.
-/
import HypercoreProtocol.MessageSpec
import HypercoreProtocol.CompactEncoding

set_option autoImplicit false

namespace hypercore_protocol

open Rust Wire

/-- What is assumed of the decoders of other crates on bytes that they accept: the value
travels, in no more bytes than were taken; and an array is taken as it stands. -/
structure Deps.Normalizing (X : Deps) : Prop where
  request_block : X.request_block.Normalizes
  request_seek : X.request_seek.Normalizes
  request_upgrade : X.request_upgrade.Normalizes
  data_block : X.data_block.Normalizes
  data_hash : X.data_hash.Normalizes
  data_seek : X.data_seek.Normalizes
  data_upgrade : X.data_upgrade.Normalizes
  u64 : X.u64.Normalizes
  string : X.string.Normalizes
  vec_u8 : X.vec_u8.Normalizes
  vec_u32 : X.vec_u32.Normalizes
  take_array : ∀ n b (a : U8Array n) rest, X.take_array n b = .ok (a, rest) → b = a.val ++ rest

namespace compact_encoding

/-- The bytes of a string that was read are the bytes it was read from: UTF-8 has one form for
each string. -/
theorem utf8_from_utf8 {v : Vec UInt8} {s : Str} (h : from_utf8 v = some s) : utf8 s = v := by
  rw [from_utf8] at h
  split at h
  · obtain rfl := Option.some.inj h
    rfl
  · cases h

theorem vec_u8_code_normalizes : vec_u8_code.Normalizes :=
  Code.vec_normalizes _ (Code.u8_normalizes _)

/-- A string is as long in bytes as it was read, so that it takes no more when it is written
again. -/
theorem string_code_normalizes : string_code.Normalizes := by
  intro b s rest h
  obtain ⟨⟨v, rest₁⟩, hv, h⟩ := bind_eq_ok h
  obtain ⟨taken, hb, hlen⟩ := vec_u8_code_normalizes _ _ _ hv
  cases hs : from_utf8 v with
  | none =>
    simp only [hs] at h
    cases h
  | some s' =>
    simp only [hs] at h
    obtain ⟨rfl, rfl⟩ := Prod.mk.inj (Except.ok.inj h)
    refine ⟨taken, hb, ?_⟩
    show (vec_u8_code.enc (utf8 s')).length ≤ _
    rw [utf8_from_utf8 hs]
    exact hlen

theorem nodes_code_normalizes : nodes_code.Normalizes :=
  Code.vec_normalizes _ (Code.pair_normalizes (Code.varint_normalizes _)
    (Code.pair_normalizes (Code.varint_normalizes _) (Code.array_normalizes _ 32)))

/-- The crates as they are written out here meet the assumption. Numbers may be read from a
longer form than they are written in, never from a shorter one. -/
theorem deps_normalizing : deps.Normalizing :=
  have hu64 : u64_code.Normalizes := Code.varint_normalizes _
  have hnodes := nodes_code_normalizes
  have hbytes := vec_u8_code_normalizes
  { request_block := (Code.pair_normalizes hu64 hu64).codec _
    request_seek := hu64.codec _
    request_upgrade := (Code.pair_normalizes hu64 hu64).codec _
    data_block := (Code.pair_normalizes hu64 (Code.pair_normalizes hbytes hnodes)).codec _
    data_hash := (Code.pair_normalizes hu64 hnodes).codec _
    data_seek := (Code.pair_normalizes hu64 hnodes).codec _
    data_upgrade := (Code.pair_normalizes hu64 (Code.pair_normalizes hu64
      (Code.pair_normalizes hnodes (Code.pair_normalizes hnodes hbytes)))).codec _
    u64 := hu64.codec _
    string := string_code_normalizes.codec _
    vec_u8 := hbytes.codec _
    vec_u32 := (Code.vec_normalizes _ (Code.u32_normalizes _)).codec _
    take_array := fun _ _ _ _ h => take_bytes_eq_ok h }

end compact_encoding

variable {X : Deps} (hX : X.Lawful) (hN : X.Normalizing)
include hX hN

/-! ## The messages of the schema -/

namespace schema

omit hX in
/-- A byte of flags was taken, the first of the buffer. -/
theorem take_flags {b rest : Bytes} {a : U8Array 1} (h : X.take_array 1 b = .ok (a, rest)) :
    ∃ flags, b = [flags] ++ rest := by
  obtain ⟨a, ha⟩ := a
  obtain ⟨flags, rfl⟩ := List.length_eq_one_iff.mp ha
  exact ⟨flags, hN.take_array 1 b _ rest h⟩

/-- Bits of the flags that mean nothing are dropped, which makes nothing longer: the byte is
there anyway. -/
theorem Synchronize.normalizes : (Synchronize.codec X).Normalizes := by
  intro b m rest h
  obtain ⟨⟨head, r₀⟩, hhead, h⟩ := bind_eq_ok h
  obtain ⟨⟨fork, r₁⟩, hfork, h⟩ := bind_eq_ok h
  obtain ⟨⟨length, r₂⟩, hlength, h⟩ := bind_eq_ok h
  obtain ⟨⟨remote_length, r₃⟩, hremote, h⟩ := bind_eq_ok h
  obtain ⟨rfl, rfl⟩ := Prod.mk.inj (Except.ok.inj h)
  obtain ⟨flags, rfl⟩ := take_flags hN hhead
  obtain ⟨t₁, b₁, rfl, h₁, hl₁⟩ := hN.u64 _ _ _ hfork
  obtain ⟨t₂, b₂, rfl, h₂, hl₂⟩ := hN.u64 _ _ _ hlength
  obtain ⟨t₃, b₃, rfl, h₃, hl₃⟩ := hN.u64 _ _ _ hremote
  refine ⟨[flags] ++ (t₁ ++ (t₂ ++ t₃)), _, ?_, Synchronize.carries hX h₁ h₂ h₃, ?_⟩
  · simp only [List.append_assoc]
  · simp only [List.length_append, List.length_singleton]
    omega

theorem Range.normalizes : (Range.codec X).Normalizes := by
  intro b m rest h
  obtain ⟨⟨head, r₀⟩, hhead, h⟩ := bind_eq_ok h
  obtain ⟨⟨start, r₁⟩, hstart, h⟩ := bind_eq_ok h
  -- the length is in the flags, or it was written out, and then it may still be 1
  obtain ⟨⟨length, r₂⟩, hlength, h⟩ : ∃ x : UInt64 × Bytes,
      (X.u64.elided 1 (!(head.val.headD 0 &&& 2 != 0))).decode r₁ = .ok x ∧
        pure (⟨head.val.headD 0 &&& 1 != 0, start, x.1⟩, x.2) = Except.ok (m, rest) := by
    rw [← decode_length]
    dsimp only at h
    split at h
    · rw [if_pos ‹_›]
      exact bind_eq_ok h
    · rw [if_neg ‹_›]
      exact bind_eq_ok h
  obtain ⟨rfl, rfl⟩ := Prod.mk.inj (Except.ok.inj h)
  obtain ⟨flags, rfl⟩ := take_flags hN hhead
  obtain ⟨t₁, b₁, rfl, h₁, hl₁⟩ := hN.u64 _ _ _ hstart
  obtain ⟨t₂, b₂, rfl, h₂, hl₂⟩ := hN.u64.elided hlength
  refine ⟨[flags] ++ (t₁ ++ t₂), _, ?_, Range.carries hX h₁ h₂, ?_⟩
  · simp only [List.append_assoc]
  · simp only [List.length_append, List.length_singleton]
    omega

/-- A part is written again exactly if it was read, since the flags say the same. -/
theorem Data.normalizes : (Data.codec X).Normalizes := by
  intro b m rest h
  obtain ⟨⟨head, r₀⟩, hhead, h⟩ := bind_eq_ok h
  obtain ⟨⟨request, r₁⟩, hrequest, h⟩ := bind_eq_ok h
  obtain ⟨⟨fork, r₂⟩, hfork, h⟩ := bind_eq_ok h
  obtain ⟨⟨block, r₃⟩, hblock, h⟩ := bind_eq_ok h
  obtain ⟨⟨hash, r₄⟩, hhash, h⟩ := bind_eq_ok h
  obtain ⟨⟨seek, r₅⟩, hseek, h⟩ := bind_eq_ok h
  obtain ⟨⟨upgrade, r₆⟩, hupgrade, h⟩ := bind_eq_ok h
  obtain ⟨rfl, rfl⟩ := Prod.mk.inj (Except.ok.inj h)
  obtain ⟨flags, rfl⟩ := take_flags hN hhead
  obtain ⟨t₁, b₁, rfl, h₁, hl₁⟩ := hN.u64 _ _ _ hrequest
  obtain ⟨t₂, b₂, rfl, h₂, hl₂⟩ := hN.u64 _ _ _ hfork
  obtain ⟨t₃, b₃, rfl, h₃, hl₃⟩ := hN.data_block.optional hblock
  obtain ⟨t₄, b₄, rfl, h₄, hl₄⟩ := hN.data_hash.optional hhash
  obtain ⟨t₅, b₅, rfl, h₅, hl₅⟩ := hN.data_seek.optional hseek
  obtain ⟨t₆, b₆, rfl, h₆, hl₆⟩ := hN.data_upgrade.optional hupgrade
  refine ⟨[flags] ++ (t₁ ++ (t₂ ++ (t₃ ++ (t₄ ++ (t₅ ++ t₆))))), _, ?_,
    Data.carries hX h₁ h₂ h₃ h₄ h₅ h₆, ?_⟩
  · simp only [List.append_assoc]
  · simp only [List.length_append, List.length_singleton]
    omega

theorem Request.normalizes : (Request.codec X).Normalizes := by
  intro b m rest h
  obtain ⟨⟨head, r₀⟩, hhead, h⟩ := bind_eq_ok h
  obtain ⟨⟨id, r₁⟩, hid, h⟩ := bind_eq_ok h
  obtain ⟨⟨fork, r₂⟩, hfork, h⟩ := bind_eq_ok h
  obtain ⟨⟨block, r₃⟩, hblock, h⟩ := bind_eq_ok h
  obtain ⟨⟨hash, r₄⟩, hhash, h⟩ := bind_eq_ok h
  obtain ⟨⟨seek, r₅⟩, hseek, h⟩ := bind_eq_ok h
  obtain ⟨⟨upgrade, r₆⟩, hupgrade, h⟩ := bind_eq_ok h
  -- the priority is there when its flag is set, and then it may still be 0
  obtain ⟨⟨priority, r₇⟩, hpriority, h⟩ : ∃ x : UInt64 × Bytes,
      (X.u64.elided 0 (head.val.headD 0 &&& 32 != 0)).decode r₆ = .ok x ∧
        pure (⟨id, fork, block, hash, seek, upgrade, head.val.headD 0 &&& 16 != 0, x.1⟩, x.2)
          = Except.ok (m, rest) := by
    show ∃ x, (if head.val.headD 0 &&& 32 != 0 then X.u64.decode r₆ else pure (0, r₆)) = _ ∧ _
    dsimp only at h
    split at h
    · rw [if_pos ‹_›]
      exact bind_eq_ok h
    · rw [if_neg ‹_›]
      exact bind_eq_ok h
  obtain ⟨rfl, rfl⟩ := Prod.mk.inj (Except.ok.inj h)
  obtain ⟨flags, rfl⟩ := take_flags hN hhead
  obtain ⟨t₁, b₁, rfl, h₁, hl₁⟩ := hN.u64 _ _ _ hid
  obtain ⟨t₂, b₂, rfl, h₂, hl₂⟩ := hN.u64 _ _ _ hfork
  obtain ⟨t₃, b₃, rfl, h₃, hl₃⟩ := hN.request_block.optional hblock
  obtain ⟨t₄, b₄, rfl, h₄, hl₄⟩ := hN.request_block.optional hhash
  obtain ⟨t₅, b₅, rfl, h₅, hl₅⟩ := hN.request_seek.optional hseek
  obtain ⟨t₆, b₆, rfl, h₆, hl₆⟩ := hN.request_upgrade.optional hupgrade
  obtain ⟨t₇, b₇, rfl, h₇, hl₇⟩ := hN.u64.elided hpriority
  refine ⟨[flags] ++ (t₁ ++ (t₂ ++ (t₃ ++ (t₄ ++ (t₅ ++ (t₆ ++ t₇)))))), _, ?_,
    Request.carries hX h₁ h₂ h₃ h₄ h₅ h₆ h₇, ?_⟩
  · simp only [List.append_assoc]
  · simp only [List.length_append, List.length_singleton]
    omega

end schema

namespace message

open schema

/-- No payload is longer when it is written again than it was when it was read. -/
theorem payloads_normalize : Payloads X fun _ c => c.Normalizes where
  synchronize := Synchronize.normalizes hX hN
  request := Request.normalizes hX hN
  cancel := hN.u64.map fun _ => rfl
  data := Data.normalizes hX hN
  no_data := hN.u64.map fun _ => rfl
  want := (hN.u64.pair hN.u64).map fun _ => rfl
  unwant := (hN.u64.pair hN.u64).map fun _ => rfl
  bitfield := (hN.u64.pair hN.vec_u32).map fun _ => rfl
  range := Range.normalizes hX hN
  extension := (hN.string.pair hN.vec_u8).map fun _ => rfl

/-- What `Message::decode` accepts is a message that travels, in no more bytes than were
taken: the type number and the payload are each written in no more than they stood in. -/
theorem Message.normalizes : (Message.codec X).Normalizes := by
  intro b m rest h
  obtain ⟨α, c, n, mk, x, rest₁, harm, hc, hn, hx, rfl⟩ :=
    Message.decode_inv (payloads_normalize hX hN) h
  obtain ⟨t₁, nb, rfl, hnb, hl₁⟩ := hN.u64 _ _ _ hn
  obtain ⟨t₂, xb, rfl, hxb, hl₂⟩ := hc _ _ _ hx
  refine ⟨t₁ ++ t₂, nb ++ xb, (List.append_assoc _ _ _).symm, harm.carries hnb hxb, ?_⟩
  rw [List.length_append, List.length_append]
  exact Nat.add_le_add hl₁ hl₂

/-- The message codec loses nothing, in both directions. Every message but `Open`, `Close`
and a local signal is written to some bytes, as many as announced, that are read back under
every suffix. And what is read from any bytes, with `taken` in front of what is left, is a
message that is written to no more bytes than those, and read back in front of the rest. -/
theorem message_codec_lossless :
    (∀ m : Message X, m.is_data = true → ∃ bs, m.encoded_size = .ok bs.length ∧
      Writes m.encode bs ∧ ∀ s, Message.decode X (bs ++ s) = .ok (m, s)) ∧
    ∀ (b rest : Bytes) (m : Message X), Message.decode X b = .ok (m, rest) →
      ∃ taken bs, b = taken ++ rest ∧ m.encoded_size = .ok bs.length ∧ Writes m.encode bs ∧
        bs.length ≤ taken.length ∧ Message.decode X (bs ++ rest) = .ok (m, rest) := by
  constructor
  · intro m hm
    obtain ⟨bs, h, -⟩ := message_travels hX m hm
    exact ⟨bs, h.size, h.writes, h.reads⟩
  · intro b rest m h
    obtain ⟨taken, bs, hb, hm, hlen⟩ := Message.normalizes hX hN b m rest h
    exact ⟨taken, bs, hb, hm.size, hm.writes, hlen, hm.reads rest⟩

omit hX hN in
/-- A range with an unknown flag, a start in a wider form than it needs and the length 1
written out takes six bytes and comes back in three. -/
theorem message_codec_lossless_range :
    Message.decode compact_encoding.deps [8, 0x80, 0xFD, 5, 0, 1, 7]
        = .ok (.Range ⟨false, 5, 1⟩, [7]) ∧
      ∃ bs : Bytes, Writes (Message.Range ⟨false, 5, 1⟩ : Message compact_encoding.deps).encode bs ∧
        bs.length = 3 ∧
        Message.decode compact_encoding.deps (bs ++ [7]) = .ok (.Range ⟨false, 5, 1⟩, [7]) := by
  have hdec : Message.decode compact_encoding.deps [8, 0x80, 0xFD, 5, 0, 1, 7]
      = .ok (.Range ⟨false, 5, 1⟩, [7]) := rfl
  obtain ⟨taken, bs, -, hsize, hwrites, -, hread⟩ := (message_codec_lossless
    compact_encoding.deps_lawful compact_encoding.deps_normalizing).2 _ _ _ hdec
  have h3 : (Message.Range ⟨false, 5, 1⟩ : Message compact_encoding.deps).encoded_size = .ok 3 :=
    rfl
  rw [h3] at hsize
  exact ⟨hdec, bs, hwrites, (Except.ok.inj hsize).symm, hread⟩

end message

end hypercore_protocol
