/-
The crates of `Deps`, written out.

The theorems of this development hold for every lawful record of dependencies.
This file gives one, so that they can be used on concrete messages: the compact
encoding (a variable-length integer, texts and vectors behind their length,
arrays as they are), the records of `hypercore_schema` as the sequences of their
fields, and a keyed 32-byte digest in the place of BLAKE2b. The digest adds the
key and the data up byte by byte, which keeps keys apart and is all that the
examples ask of it.
-/
import HypercoreProtocol.Deps
import HypercoreProtocol.Lib.PrefixCode

set_option autoImplicit false

namespace hypercore_protocol.compact_encoding

open Rust Wire

/-- The error of a buffer that ends too soon, for the decoders and for the encoders. Its text
plays no part. -/
def out_of_bounds : EncodingError := ⟨.OutOfBounds, "buffer too small"⟩

def invalid_utf8 : EncodingError := ⟨.InvalidData, "invalid utf-8"⟩

/-- Numbers take one byte up to 252, and three, five or nine bytes above, the first of which says
how many follow. -/
def u64_code : Code EncodingError UInt64 := .varint out_of_bounds

/-- Bytes stand behind their number, which is how every vector of this crate travels. -/
def vec_u8_code : Code EncodingError (Vec UInt8) := .vec out_of_bounds (.u8 out_of_bounds)

def vec_u32_code : Code EncodingError (Vec UInt32) := .vec out_of_bounds (.u32 out_of_bounds)

/-- The UTF-8 bytes of a string. -/
def utf8 (s : Str) : Vec UInt8 :=
  ⟨s.val.toByteArray.data.toList, s.property⟩

/-- The string with these UTF-8 bytes, if they are UTF-8. A decoder meets bytes that are not. -/
def from_utf8 (v : Vec UInt8) : Option Str :=
  if h : (ByteArray.mk v.val.toArray).IsValidUTF8 then
    some ⟨String.ofByteArray ⟨v.val.toArray⟩ h, v.len_le⟩
  else none

theorem from_utf8_utf8 (s : Str) : from_utf8 (utf8 s) = some s := by
  have hbytes : ByteArray.mk (utf8 s).val.toArray = s.val.toByteArray := rfl
  rw [from_utf8, dif_pos (by rw [hbytes]; exact s.val.isValidUTF8)]
  rfl

/-- A string is the bytes of its UTF-8 behind their number; bytes that are no UTF-8 are refused. -/
def string_code : Code EncodingError Str where
  enc s := vec_u8_code.enc (utf8 s)
  dec buf := do
    let (v, rest) ← vec_u8_code.dec buf
    match from_utf8 v with
    | some s => pure (s, rest)
    | none => throw (.err invalid_utf8)
  reads s t := by
    dsimp only
    rw [vec_u8_code.reads (utf8 s) t, ok_bind]
    dsimp only
    rw [from_utf8_utf8]
    rfl

/-! ## `hypercore_schema` -/

/-- A node of the merkle tree: index, length and hash. -/
def node_code : Code EncodingError (UInt64 × UInt64 × Array32) :=
  u64_code.pair (u64_code.pair (.array out_of_bounds 32))

def nodes_code : Code EncodingError (Vec (UInt64 × UInt64 × Array32)) :=
  .vec out_of_bounds node_code

/-! ## The digest -/

/-- Byte `i` of the digest: byte `i` of the key, plus every byte of the data that
stands at `i` modulo 32. -/
def digest_byte (key data : Bytes) (i : ℕ) : UInt8 :=
  key.getD i 0 + data.getD i 0 + data.getD (i + 32) 0

/-- Some function of two inputs to 32 bytes, in the place of the hash. Only where runs are
evaluated does it matter which one. -/
def digest (key data : Bytes) : Array32 :=
  ⟨(List.range 32).map (digest_byte key data), by rw [List.length_map, List.length_range]⟩

/-! ## The record -/

/-- `to_encoded_bytes`: ask for the size, allocate, encode. The allocation is where it can
panic. -/
def to_encoded_bytes {α : Type} (c : Codec EncodingError α) (x : α) : Res EncodingError Bytes := do
  let n ← c.encoded_size x
  if n ≤ ISIZE_MAX then
    match (c.encode x).run ⟨[], List.replicate n 0⟩ with
    | .ok _ cursor => .ok (cursor.written ++ cursor.rest)
    | .error e _ => .error e
  else .error (.panic .capacity_overflow)

/-- The operations that this crate takes from others, for runs that are evaluated: the encodings
as `compact-encoding` and `hypercore_schema` lay them out, and `digest` for the hash. -/
def deps : Deps where
  RequestBlock := UInt64 × UInt64
  RequestSeek := UInt64
  RequestUpgrade := UInt64 × UInt64
  DataBlock := UInt64 × Vec UInt8 × Vec (UInt64 × UInt64 × Array32)
  DataHash := UInt64 × Vec (UInt64 × UInt64 × Array32)
  DataSeek := UInt64 × Vec (UInt64 × UInt64 × Array32)
  DataUpgrade := UInt64 × UInt64 × Vec (UInt64 × UInt64 × Array32) ×
    Vec (UInt64 × UInt64 × Array32) × Vec UInt8
  request_block := (u64_code.pair u64_code).codec out_of_bounds
  request_seek := u64_code.codec out_of_bounds
  request_upgrade := (u64_code.pair u64_code).codec out_of_bounds
  data_block := (u64_code.pair (vec_u8_code.pair nodes_code)).codec out_of_bounds
  data_hash := (u64_code.pair nodes_code).codec out_of_bounds
  data_seek := (u64_code.pair nodes_code).codec out_of_bounds
  data_upgrade := (u64_code.pair (u64_code.pair
    (nodes_code.pair (nodes_code.pair vec_u8_code)))).codec out_of_bounds
  u64 := u64_code.codec out_of_bounds
  string := string_code.codec out_of_bounds
  vec_u8 := vec_u8_code.codec out_of_bounds
  vec_u32 := vec_u32_code.codec out_of_bounds
  decode_usize buf := do
    let (n, rest) ← u64_code.dec buf
    pure (n.toNat, rest)
  write_array := put_bytes out_of_bounds
  write_slice := put_bytes out_of_bounds
  take_array := take_bytes out_of_bounds
  take_array_mut n := put_bytes out_of_bounds (List.replicate n 0)
  to_encoded_bytes := to_encoded_bytes
  into_io_error e := ⟨if e.kind = .InvalidData then .InvalidData else .Other, e.message⟩
  blake2b_mac := digest

theorem vec_u8_suffix {v : Vec UInt8} {bs : Bytes}
    (h : (vec_u8_code.codec out_of_bounds).Carries v bs) : v.val <:+ bs := by
  have hbs : bs = varint_enc (UInt64.ofNat v.len) ++ v.val.flatMap fun b => [b] :=
    h.unique (vec_u8_code.carries out_of_bounds v)
  rw [hbs, List.flatMap_singleton']
  exact List.suffix_append _ _

/-- They satisfy what is assumed of such operations, so the assumptions can be met, and witnesses
may be computed with them. -/
theorem deps_lawful : deps.Lawful where
  request_block := Code.round_trips _ _
  request_seek := Code.round_trips _ _
  request_upgrade := Code.round_trips _ _
  data_block := Code.round_trips _ _
  data_hash := Code.round_trips _ _
  data_seek := Code.round_trips _ _
  data_upgrade := Code.round_trips _ _
  u64 := Code.round_trips _ _
  u64_small n hn := by
    rw [← varint_enc_small hn]
    exact u64_code.carries out_of_bounds n
  string := Code.round_trips _ _
  vec_u8 := Code.round_trips _ _
  vec_u8_suffix _ _ h := vec_u8_suffix h
  vec_u32 := Code.round_trips _ _
  decode_usize n bs h s := by
    show (do let (n, rest) ← u64_code.dec (bs ++ s); pure (n.toNat, rest)) = _
    have hdec : u64_code.dec (bs ++ s) = .ok (n, s) := h.reads s
    rw [hdec]
    rfl
  write_array bs := writes_put_bytes _ bs
  write_slice bs := writes_put_bytes _ bs
  take_array n bs h := dif_pos h
  take_array_mut n := writes_put_bytes _ _
  to_encoded_bytes c x n w r hsize hle hrun := by
    show compact_encoding.to_encoded_bytes c x = _
    rw [compact_encoding.to_encoded_bytes, hsize, ok_bind, if_pos hle, hrun]
  to_encoded_bytes_fits c x b h := by
    obtain ⟨n, hn, h⟩ := bind_eq_ok h
    by_cases hle : n ≤ ISIZE_MAX
    · exact ⟨n, hn, hle⟩
    · rw [if_neg hle] at h
      exact nomatch h

/-- A key or discovery key for examples: 32 times the same byte, so that two of them differ if
the bytes do. -/
def sample (b : UInt8) : Array32 := ⟨List.replicate 32 b, List.length_replicate⟩

end hypercore_protocol.compact_encoding
