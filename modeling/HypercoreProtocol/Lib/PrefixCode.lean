/-
Prefix codes: encodings a decoder can take off the front of any input.

A `Code` is an encoding together with the proof that its decoder inverts it
under every suffix, so a code built from others needs no round-trip argument of
its own. The combinators here are the ones a compact binary encoding uses: fixed
arrays, little-endian numbers, the variable-length integer whose first byte
tells the width, pairs, and vectors behind their length.

`Code.codec` turns a code into a `Codec`, which writes into a buffer and checks
that there is room.
-/
import HypercoreProtocol.Lib.Decoder
import HypercoreProtocol.Lib.Vec

set_option autoImplicit false

namespace Wire

open Rust

variable {ε α β : Type}

/-! ## Reading and writing bytes -/

/-- Take `n` bytes off the front, or say that there are too few. -/
def take_bytes (eof : ε) (n : ℕ) (buf : Bytes) : Res ε ({ b : Bytes // b.length = n } × Bytes) :=
  if h : n ≤ buf.length then .ok (⟨buf.take n, List.length_take_of_le h⟩, buf.drop n)
  else .error (.err eof)

/-- What is taken off the front is what was put there. -/
theorem take_bytes_append (eof : ε) {n : ℕ} {bs : Bytes} (h : bs.length = n) (s : Bytes) :
    take_bytes eof n (bs ++ s) = .ok (⟨bs, h⟩, s) := by
  rw [take_bytes, dif_pos (by rw [List.length_append]; omega)]
  simp only [List.take_left' h, List.drop_left' h]

/-- Put bytes at the front of the room that is left, or say that there is too
little. -/
def put_bytes (full : ε) (bs : Bytes) : Encoder ε Unit := fun c =>
  if bs.length ≤ c.rest.length then .ok () ⟨c.written ++ bs, c.rest.drop bs.length⟩
  else .error (.err full) c

/-- The encoder of every code: it puts the bytes, or fails if there is no room. So a code needs
only its bytes. -/
theorem writes_put_bytes (full : ε) (bs : Bytes) : Writes (put_bytes full bs) bs := by
  intro w n hn
  show (if bs.length ≤ (List.replicate n (0 : UInt8)).length then _ else _) = _
  rw [if_pos (by rw [List.length_replicate]; exact hn)]
  simp only [List.drop_replicate]

/-! ## Codes -/

/-- **An encoding that is read back** off the front of any input. That it is, is a field, so that
codes made of codes need no proof of it. -/
structure Code (ε α : Type) where
  enc : α → Bytes
  dec : Bytes → Res ε (α × Bytes)
  reads : ∀ x, Reads dec (enc x) x

/-- The code as a codec; `full` is the error for a buffer without room. Its size is the number of
its bytes. -/
def Code.codec (c : Code ε α) (full : ε) : Codec ε α where
  encoded_size x := .ok (c.enc x).length
  encode x := put_bytes full (c.enc x)
  decode := c.dec

/-- A prefix code is a codec that round trips, by its own law; size, encoder and decoder need no
further argument. -/
theorem Code.carries (c : Code ε α) (full : ε) (x : α) : (c.codec full).Carries x (c.enc x) :=
  ⟨rfl, writes_put_bytes full _, c.reads x⟩

theorem Code.round_trips (c : Code ε α) (full : ε) : (c.codec full).RoundTrips :=
  fun x => ⟨c.enc x, c.carries full x⟩

/-- A codec writes one thing: the bytes a value travels as are unique. -/
theorem Codec.Carries.unique {c : Codec ε α} {x : α} {b₁ b₂ : Bytes} (h₁ : c.Carries x b₁)
    (h₂ : c.Carries x b₂) : b₁ = b₂ := by
  have hsize : b₁.length = b₂.length := Except.ok.inj (h₁.size.symm.trans h₂.size)
  have hw₁ := h₁.writes.fill
  have hw₂ := h₂.writes.fill
  rw [hsize, hw₂] at hw₁
  injection hw₁ with _ hw
  exact (congrArg Cursor.written hw).symm

/-- A fixed number of bytes, which needs no length in front of it. -/
def Code.array (eof : ε) (n : ℕ) : Code ε { b : Bytes // b.length = n } where
  enc x := x.val
  dec := take_bytes eof n
  reads := by
    rintro ⟨bs, hbs⟩ s
    exact take_bytes_append eof hbs s

/-- One value after another: the bytes of the first tell where the second begins. -/
def Code.pair (c : Code ε α) (d : Code ε β) : Code ε (α × β) where
  enc x := c.enc x.1 ++ d.enc x.2
  dec buf := do
    let (a, rest) ← c.dec buf
    let (b, rest) ← d.dec rest
    pure ((a, b), rest)
  reads := by
    rintro ⟨a, b⟩ s
    rw [List.append_assoc]
    simp only [c.reads a _, d.reads b s, ok_bind]
    rfl

/-! ## Numbers -/

/-- The `w` bytes of `n`, least significant first. -/
def le_bytes : ℕ → ℕ → Bytes
  | 0, _ => []
  | w + 1, n => UInt8.ofNat n :: le_bytes w (n / 256)

/-- The number with these bytes, least significant first. -/
def le_value : Bytes → ℕ
  | [] => 0
  | b :: bs => b.toNat + 256 * le_value bs

/-- Numbers of a fixed width have this width. -/
theorem le_bytes_length (w n : ℕ) : (le_bytes w n).length = w := by
  induction w generalizing n with
  | zero => rfl
  | succ w ih => rw [le_bytes, List.length_cons, ih]

/-- They are read back, if they fit. -/
theorem le_value_le_bytes {w n : ℕ} (h : n < 256 ^ w) : le_value (le_bytes w n) = n := by
  induction w generalizing n with
  | zero => rw [pow_zero] at h; rw [le_bytes, le_value]; omega
  | succ w ih =>
    rw [pow_succ] at h
    rw [le_bytes, le_value, ih (by omega), UInt8.toNat_ofNat']
    omega

/-- Read a little-endian number of `w` bytes. -/
def decode_le (eof : ε) (w : ℕ) (buf : Bytes) : Res ε (ℕ × Bytes) := do
  let (bs, rest) ← take_bytes eof w buf
  pure (le_value bs.val, rest)

theorem decode_le_append (eof : ε) {w n : ℕ} (h : n < 256 ^ w) (s : Bytes) :
    decode_le eof w (le_bytes w n ++ s) = .ok (n, s) := by
  rw [decode_le, take_bytes_append eof (le_bytes_length w n) s, ok_bind]
  show Except.ok (le_value (le_bytes w n), s) = _
  rw [le_value_le_bytes h]

/-- One byte. -/
def Code.u8 (eof : ε) : Code ε UInt8 where
  enc b := [b]
  dec
    | [] => .error (.err eof)
    | b :: rest => .ok (b, rest)
  reads _ _ := rfl

/-- Four bytes, least significant first. -/
def Code.u32 (eof : ε) : Code ε UInt32 where
  enc n := le_bytes 4 n.toNat
  dec buf := do
    let (n, rest) ← decode_le eof 4 buf
    pure (UInt32.ofNat n, rest)
  reads n s := by
    dsimp only
    rw [decode_le_append eof n.toNat_lt s, ok_bind]
    show Except.ok (UInt32.ofNat n.toNat, s) = _
    rw [UInt32.ofNat_toNat]

/-- The variable-length integer: below 253 a byte of its own, otherwise a byte that
tells the width and then the number. -/
def varint_enc (n : UInt64) : Bytes :=
  if n.toNat < 253 then [n.toUInt8]
  else if n.toNat < 256 ^ 2 then 0xFD :: le_bytes 2 n.toNat
  else if n.toNat < 256 ^ 4 then 0xFE :: le_bytes 4 n.toNat
  else 0xFF :: le_bytes 8 n.toNat

/-- The first byte is the number, or it says how many bytes the number has, two, four or
eight. -/
def varint_dec (eof : ε) : Bytes → Res ε (UInt64 × Bytes)
  | [] => .error (.err eof)
  | b :: rest =>
    if b.toNat < 253 then .ok (UInt64.ofNat b.toNat, rest)
    else do
      let w := if b = 0xFD then 2 else if b = 0xFE then 4 else 8
      let (n, rest) ← decode_le eof w rest
      pure (UInt64.ofNat n, rest)

/-- A small number is its own encoding. -/
theorem varint_enc_small {n : UInt64} (h : n.toNat < 253) : varint_enc n = [n.toUInt8] := by
  rw [varint_enc, if_pos h]

/-- The three wide forms: the first byte `b` announces `w` bytes. -/
theorem varint_dec_wide (eof : ε) {b : UInt8} {w : ℕ} (hb : ¬ b.toNat < 253)
    (hw : (if b = 0xFD then 2 else if b = 0xFE then 4 else 8) = w) {n : UInt64}
    (hn : n.toNat < 256 ^ w) (s : Bytes) :
    varint_dec eof (b :: le_bytes w n.toNat ++ s) = .ok (n, s) := by
  rw [List.cons_append, varint_dec, if_neg hb]
  simp only [hw, decode_le_append eof hn s, ok_bind, UInt64.ofNat_toNat]
  rfl

/-- The variable-length integer. Small numbers, which are most of them, take one byte. -/
def Code.varint (eof : ε) : Code ε UInt64 where
  enc := varint_enc
  dec := varint_dec eof
  reads n s := by
    rw [varint_enc]
    split
    · rename_i h
      have hbyte : n.toUInt8.toNat = n.toNat := by
        rw [UInt64.toNat_toUInt8]
        omega
      rw [List.cons_append, varint_dec, hbyte, if_pos h, UInt64.ofNat_toNat]
      rfl
    · split
      · exact varint_dec_wide eof (by decide) rfl ‹_› s
      · split
        · exact varint_dec_wide eof (by decide) rfl ‹_› s
        · exact varint_dec_wide eof (by decide) rfl n.toNat_lt s

/-! ## Vectors -/

/-- Read `n` values. The length of the result is part of its type, so that no caller has to show
it. -/
def Code.dec_many (c : Code ε α) : (n : ℕ) → Bytes → Res ε ({ l : List α // l.length = n } × Bytes)
  | 0, buf => .ok (⟨[], rfl⟩, buf)
  | n + 1, buf => do
    let (a, rest) ← c.dec buf
    let (l, rest) ← c.dec_many n rest
    pure (⟨a :: l.val, by rw [List.length_cons, l.property]⟩, rest)

/-- Values that were written one after the other are read back one after the other. -/
theorem Code.dec_many_flatMap (c : Code ε α) {n : ℕ} {l : List α} (h : l.length = n) (s : Bytes) :
    c.dec_many n (l.flatMap c.enc ++ s) = .ok (⟨l, h⟩, s) := by
  induction l generalizing n with
  | nil => subst h; rfl
  | cons a l ih =>
    subst h
    show c.dec_many (l.length + 1) _ = _
    rw [List.flatMap_cons, List.append_assoc, dec_many, c.reads a, ok_bind]
    dsimp only
    rw [ih rfl, ok_bind]
    rfl

/-- A vector: its length, then its elements. The length bounds the list, so that it is a vector
again. -/
def Code.vec (eof : ε) (c : Code ε α) : Code ε (Vec α) where
  enc v := varint_enc (UInt64.ofNat v.len) ++ v.val.flatMap c.enc
  dec buf := do
    let (n, rest) ← varint_dec eof buf
    let (l, rest) ← c.dec_many n.toNat rest
    pure (⟨l.val, by rw [l.property]; exact Nat.le_pred_of_lt n.toNat_lt⟩, rest)
  reads v s := by
    have hlen : (UInt64.ofNat v.len).toNat = v.val.length :=
      UInt64.toNat_ofNat_of_lt' (Nat.lt_of_le_pred (by decide) v.len_le)
    have hn : varint_dec eof (varint_enc (UInt64.ofNat v.len) ++ (v.val.flatMap c.enc ++ s))
        = .ok (UInt64.ofNat v.len, v.val.flatMap c.enc ++ s) := (Code.varint eof).reads _ _
    dsimp only
    rw [List.append_assoc, hn, ok_bind]
    dsimp only
    rw [c.dec_many_flatMap hlen.symm s, ok_bind]
    rfl

/-! ## On any input

The decoders of this file are total: they end in an error where a byte is missing, and
never for any other cause `F`. -/

variable {F : Bytes → Abort → Prop}

/-- A fixed number of bytes is consumed as announced, or there are too few and it is an error. -/
theorem take_bytes_consumes (eof : ε) (n : ℕ) : Consumes F n (take_bytes eof n) := by
  intro b
  rw [take_bytes]
  split
  · rename_i h
    exact ends_ok _ (List.drop_suffix n b) (by rw [List.length_drop]; omega)
  · exact ends_throw eof

theorem decode_le_consumes (eof : ε) (w : ℕ) : Consumes F w (decode_le eof w) :=
  fun b => (take_bytes_consumes eof w b).map fun bs => le_value bs.val

/-- A number takes at least a byte, whatever its form. -/
theorem varint_dec_consumes (eof : ε) : Consumes F 1 (varint_dec eof) := by
  intro b
  cases b with
  | nil => exact ends_throw eof
  | cons b rest =>
    have hsuffix : rest <:+ b :: rest := List.suffix_cons b rest
    rw [varint_dec]
    split
    · exact ends_ok _ hsuffix (Nat.le_refl _)
    · exact (((decode_le_consumes eof _ rest).map UInt64.ofNat).mono (Nat.zero_le _)).of_suffix
        (j := 1) hsuffix (Nat.le_refl _)

theorem Code.u8_consumes (eof : ε) : Consumes F 0 (Code.u8 eof).dec := by
  intro b
  cases b with
  | nil => exact ends_throw eof
  | cons b rest => exact ends_ok b (List.suffix_cons b rest) (Nat.le_succ _)

theorem Code.u32_consumes (eof : ε) : Consumes F 0 (Code.u32 eof).dec :=
  fun b => ((decode_le_consumes eof 4 b).map UInt32.ofNat).mono (Nat.zero_le _)

theorem Code.pair_consumes {c : Code ε α} {d : Code ε β} (hc : Consumes F 0 c.dec)
    (hd : Consumes F 0 d.dec) : Consumes F 0 (c.pair d).dec :=
  fun b => (hc b).bind (k := 0) fun x rest => (hd rest).map (Prod.mk x)

/-- Many values are consumed if each of them is. They may take no bytes at all, so nothing is said
about progress. -/
theorem Code.dec_many_consumes {c : Code ε α} (hc : Consumes F 0 c.dec) (n : ℕ) :
    Consumes F 0 (c.dec_many n) := by
  induction n with
  | zero => exact fun b => ends_pure _ b
  | succ n ih =>
    intro b
    exact (hc b).bind (k := 0) fun a rest => (ih rest).map fun l =>
      (⟨a :: l.val, by rw [List.length_cons, l.property]⟩ : { l : List α // l.length = n + 1 })

theorem Code.vec_consumes (eof : ε) {c : Code ε α} (hc : Consumes F 0 c.dec) :
    Consumes F 0 (Code.vec eof c).dec := by
  intro b
  exact ((varint_dec_consumes eof b).bind (k := 0) fun n rest =>
    (dec_many_consumes hc n.toNat rest).map fun l =>
      (⟨l.val, by rw [l.property]; exact Nat.le_pred_of_lt n.toNat_lt⟩ : Vec α)).mono
    (Nat.zero_le _)

/-! ## Other forms of the same value

A decoder accepts more than its encoder writes: a number may stand in a wider form
than it needs. What it took is never shorter than what is written for the value. -/

/-- What the decoder took for a value is at least as long as the value's own bytes. -/
def Code.Normalizes (c : Code ε α) : Prop :=
  ∀ b x rest, c.dec b = .ok (x, rest) →
    ∃ taken, b = taken ++ rest ∧ (c.enc x).length ≤ taken.length

theorem Code.Normalizes.codec {c : Code ε α} (hc : c.Normalizes) (full : ε) :
    (c.codec full).Normalizes := by
  intro b x rest h
  obtain ⟨taken, hb, hlen⟩ := hc b x rest h
  exact ⟨taken, c.enc x, hb, c.carries full x, hlen⟩

/-- What was taken and what is left make up the input. -/
theorem take_bytes_eq_ok {eof : ε} {n : ℕ} {b rest : Bytes} {x : { b : Bytes // b.length = n }}
    (h : take_bytes eof n b = .ok (x, rest)) : b = x.val ++ rest := by
  rw [take_bytes] at h
  split at h
  · obtain ⟨rfl, rfl⟩ := Prod.mk.inj (Except.ok.inj h)
    exact (List.take_append_drop n b).symm
  · cases h

theorem Code.array_normalizes (eof : ε) (n : ℕ) : (Code.array eof n).Normalizes :=
  fun _ x _ h => ⟨x.val, take_bytes_eq_ok h, Nat.le_refl _⟩

/-- Reading and writing again does not make a pair longer, since it makes neither part longer. -/
theorem Code.pair_normalizes {c : Code ε α} {d : Code ε β} (hc : c.Normalizes)
    (hd : d.Normalizes) : (c.pair d).Normalizes := by
  intro b x rest h
  obtain ⟨⟨a, rest₁⟩, ha, h⟩ := bind_eq_ok h
  obtain ⟨⟨a', rest₂⟩, ha', h⟩ := bind_eq_ok h
  obtain ⟨rfl, rfl⟩ := Prod.mk.inj (Except.ok.inj h)
  obtain ⟨t₁, rfl, hlen₁⟩ := hc _ _ _ ha
  obtain ⟨t₂, rfl, hlen₂⟩ := hd _ _ _ ha'
  refine ⟨t₁ ++ t₂, (List.append_assoc _ _ _).symm, ?_⟩
  show (c.enc a ++ d.enc a').length ≤ _
  rw [List.length_append, List.length_append]
  exact Nat.add_le_add hlen₁ hlen₂

/-- A number is less than its width allows, so that it can be written in that width. -/
theorem le_value_lt (bs : Bytes) : le_value bs < 256 ^ bs.length := by
  induction bs with
  | nil => exact Nat.one_pos
  | cons b bs ih =>
    have hb := b.toNat_lt
    rw [le_value, List.length_cons, pow_succ]
    omega

/-- A number that was read took its width off the input, and fits into it. -/
theorem decode_le_eq_ok {eof : ε} {w n : ℕ} {b rest : Bytes}
    (h : decode_le eof w b = .ok (n, rest)) :
    ∃ taken, b = taken ++ rest ∧ taken.length = w ∧ n < 256 ^ w := by
  obtain ⟨⟨bs, rest₁⟩, hbs, h⟩ := bind_eq_ok h
  obtain ⟨rfl, rfl⟩ := Prod.mk.inj (Except.ok.inj h)
  refine ⟨bs.val, take_bytes_eq_ok hbs, bs.property, ?_⟩
  have hlt := le_value_lt bs.val
  rwa [bs.property] at hlt

theorem Code.u8_normalizes (eof : ε) : (Code.u8 eof).Normalizes := by
  intro b x rest h
  cases b with
  | nil => cases h
  | cons b rest' =>
    obtain ⟨rfl, rfl⟩ := Prod.mk.inj (Except.ok.inj h)
    exact ⟨[b], rfl, Nat.le_refl _⟩

theorem Code.u32_normalizes (eof : ε) : (Code.u32 eof).Normalizes := by
  intro b x rest h
  obtain ⟨⟨n, rest₁⟩, hn, h⟩ := bind_eq_ok h
  obtain ⟨rfl, rfl⟩ := Prod.mk.inj (Except.ok.inj h)
  obtain ⟨taken, hb, hlen, -⟩ := decode_le_eq_ok hn
  exact ⟨taken, hb, by rw [hlen]; exact Nat.le_of_eq (le_bytes_length 4 _)⟩

/-- A number below `256 ^ w` needs no more than the form with `w` bytes. So whatever form it was
read from, it is not longer when it is written. -/
theorem varint_enc_length_le {n : UInt64} {w : ℕ} (hw : w = 2 ∨ w = 4 ∨ w = 8)
    (hn : n.toNat < 256 ^ w) : (varint_enc n).length ≤ w + 1 := by
  rw [varint_enc]
  split
  · rw [List.length_singleton]
    omega
  split
  · rw [List.length_cons, le_bytes_length]
    omega
  split
  · rename_i h₂ h₄
    rw [List.length_cons, le_bytes_length]
    rcases hw with rfl | rfl | rfl <;> omega
  · rename_i h₂ h₄
    rw [List.length_cons, le_bytes_length]
    rcases hw with rfl | rfl | rfl <;> omega

/-- A number may have been written in more bytes than it needs, and is never written in more than
it took. -/
theorem Code.varint_normalizes (eof : ε) : (Code.varint eof).Normalizes := by
  intro b x rest h
  cases b with
  | nil => cases h
  | cons b bs =>
    have h : varint_dec eof (b :: bs) = .ok (x, rest) := h
    rw [varint_dec] at h
    split at h
    · -- a byte of its own
      rename_i hb
      obtain ⟨rfl, rfl⟩ := Prod.mk.inj (Except.ok.inj h)
      refine ⟨[b], rfl, ?_⟩
      have hlt : (UInt64.ofNat b.toNat).toNat < 253 :=
        Nat.lt_of_le_of_lt (UInt64.toNat_ofNat' ▸ Nat.mod_le _ _) hb
      show (varint_enc _).length ≤ 1
      rw [varint_enc_small hlt, List.length_singleton]
    · -- a tag and two, four or eight bytes; the number may have a shorter form
      obtain ⟨⟨n, rest₁⟩, hn, h⟩ := bind_eq_ok h
      obtain ⟨rfl, rfl⟩ := Prod.mk.inj (Except.ok.inj h)
      obtain ⟨taken, rfl, hlen, hlt⟩ := decode_le_eq_ok hn
      refine ⟨b :: taken, rfl, ?_⟩
      rw [List.length_cons, hlen]
      refine varint_enc_length_le ?_ (Nat.lt_of_le_of_lt (UInt64.toNat_ofNat' ▸ Nat.mod_le _ _) hlt)
      split
      · exact Or.inl rfl
      split
      · exact Or.inr (Or.inl rfl)
      · exact Or.inr (Or.inr rfl)

/-- Many values, one after the other. -/
theorem Code.dec_many_normalizes {c : Code ε α} (hc : c.Normalizes) {n : ℕ} {b rest : Bytes}
    {l : { l : List α // l.length = n }} (h : c.dec_many n b = .ok (l, rest)) :
    ∃ taken, b = taken ++ rest ∧ (l.val.flatMap c.enc).length ≤ taken.length := by
  induction n generalizing b with
  | zero =>
    obtain ⟨rfl, rfl⟩ := Prod.mk.inj (Except.ok.inj h)
    exact ⟨[], rfl, Nat.le_refl _⟩
  | succ n ih =>
    obtain ⟨⟨a, rest₁⟩, ha, h⟩ := bind_eq_ok h
    obtain ⟨⟨l', rest₂⟩, hl, h⟩ := bind_eq_ok h
    obtain ⟨rfl, rfl⟩ := Prod.mk.inj (Except.ok.inj h)
    obtain ⟨t₁, rfl, hlen₁⟩ := hc _ _ _ ha
    obtain ⟨t₂, rfl, hlen₂⟩ := ih hl
    refine ⟨t₁ ++ t₂, (List.append_assoc _ _ _).symm, ?_⟩
    show ((a :: l'.val).flatMap c.enc).length ≤ _
    rw [List.flatMap_cons, List.length_append, List.length_append]
    exact Nat.add_le_add hlen₁ hlen₂

theorem Code.vec_normalizes (eof : ε) {c : Code ε α} (hc : c.Normalizes) :
    (Code.vec eof c).Normalizes := by
  intro b x rest h
  obtain ⟨⟨n, rest₁⟩, hn, h⟩ := bind_eq_ok h
  obtain ⟨⟨l, rest₂⟩, hl, h⟩ := bind_eq_ok h
  obtain ⟨rfl, rfl⟩ := Prod.mk.inj (Except.ok.inj h)
  obtain ⟨t₁, rfl, hlen₁⟩ := Code.varint_normalizes eof _ _ _ hn
  obtain ⟨t₂, rfl, hlen₂⟩ := dec_many_normalizes hc hl
  refine ⟨t₁ ++ t₂, (List.append_assoc _ _ _).symm, ?_⟩
  show (varint_enc (UInt64.ofNat l.val.length) ++ l.val.flatMap c.enc).length ≤ _
  rw [l.property, UInt64.ofNat_toNat, List.length_append, List.length_append]
  exact Nat.add_le_add hlen₁ hlen₂

/-! ## Codes look at what they take -/

/-- What is read depends on the bytes that are taken only, so it may be read from any longer
input. -/
theorem take_bytes_local (eof : ε) (n : ℕ) : Local (take_bytes eof n) :=
  fun _ x _ h => ⟨x.val, take_bytes_eq_ok h, fun s => take_bytes_append eof x.property s⟩

theorem decode_le_local (eof : ε) (w : ℕ) : Local (decode_le eof w) :=
  (take_bytes_local eof w).map fun bs => le_value bs.val

theorem Code.u8_local (eof : ε) : Local (Code.u8 eof).dec := by
  intro b x rest h
  cases b with
  | nil => cases h
  | cons b rest' =>
    obtain ⟨rfl, rfl⟩ := Prod.mk.inj (Except.ok.inj h)
    exact ⟨[b], rfl, fun _ => rfl⟩

theorem Code.u32_local (eof : ε) : Local (Code.u32 eof).dec :=
  (decode_le_local eof 4).map UInt32.ofNat

/-- The first byte tells how many follow, and these are read as one number. -/
theorem varint_dec_local (eof : ε) : Local (varint_dec eof) := by
  intro b x rest h
  cases b with
  | nil => cases h
  | cons b bs =>
    by_cases hb : b.toNat < 253
    · rw [varint_dec, if_pos hb] at h
      obtain ⟨rfl, rfl⟩ := Prod.mk.inj (Except.ok.inj h)
      refine ⟨[b], rfl, fun s => ?_⟩
      show varint_dec eof (b :: s) = _
      rw [varint_dec, if_pos hb]
    · rw [varint_dec, if_neg hb] at h
      obtain ⟨taken, rfl, hreads⟩ := (decode_le_local eof _).map UInt64.ofNat _ _ _ h
      refine ⟨b :: taken, rfl, fun s => ?_⟩
      rw [List.cons_append, varint_dec, if_neg hb]
      exact hreads s

theorem Code.pair_local {c : Code ε α} {d : Code ε β} (hc : Local c.dec) (hd : Local d.dec) :
    Local (c.pair d).dec :=
  hc.bind fun a => hd.map (Prod.mk a)

/-- Locality of many values, one after the other, by induction on their number. -/
theorem Code.dec_many_local {c : Code ε α} (hc : Local c.dec) (n : ℕ) : Local (c.dec_many n) := by
  induction n with
  | zero => exact local_pure _
  | succ n ih =>
    exact hc.bind fun a => ih.map fun l =>
      (⟨a :: l.val, by rw [List.length_cons, l.property]⟩ : { l : List α // l.length = n + 1 })

theorem Code.vec_local (eof : ε) {c : Code ε α} (hc : Local c.dec) :
    Local (Code.vec eof c).dec :=
  (varint_dec_local eof).bind fun n => (dec_many_local hc n.toNat).map fun l =>
    (⟨l.val, by rw [l.property]; exact Nat.le_pred_of_lt n.toNat_lt⟩ : Vec α)

end Wire
