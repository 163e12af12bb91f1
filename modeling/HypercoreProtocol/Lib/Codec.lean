/-
Encoders that write into a zeroed buffer, and decoders that return what is left.

A `Codec` is the three functions a value type needs on the wire: how many bytes
it takes, how to write it at the front of a buffer, and how to read it off the
front of an input. An encoder gets the buffer as a `Cursor`, the bytes written
so far and the room that is left, so writing a record is running the writers of
its fields one after the other.

The notions proofs use are `Writes` (on a zeroed buffer with room, the writer
puts exactly these bytes) and `Reads` (the decoder takes exactly these bytes off
any input that starts with them). `Emits` is the encoder's half, the writing
together with the size that was announced for it, and `Carries` adds the reading:
it is what "this value travels as these bytes" means. On input that was not
written by the encoder, `Normalizes` says that whatever the decoder accepts is a
value that travels, in no more bytes than the decoder took.
-/
import HypercoreProtocol.Lib.Method

set_option autoImplicit false

namespace Wire

open Rust

/-- A byte string, as a list: buffers are taken apart from the front and put together at the
end. -/
abbrev Bytes := List UInt8

/-- A mutable slice that is being filled from the front: what is written, and what is still
room. -/
structure Cursor where
  written : Bytes
  rest : Bytes

/-- An encoder at work: it moves bytes from the room to what is written, or fails. -/
abbrev Encoder (ε α : Type) := Method ε Cursor α

/-- **How values of `α` travel**: the size that is announced, the encoder and the decoder. The
three belong together, but nothing in the type says that they agree. -/
structure Codec (ε α : Type) where
  encoded_size : α → Res ε ℕ
  encode : α → Encoder ε Unit
  decode : Bytes → Res ε (α × Bytes)

variable {ε α β : Type}

/-- On a zeroed buffer with room for `bs`, the writer puts `bs` and nothing else, and leaves the
rest of the room as it was. -/
def Writes (m : Encoder ε Unit) (bs : Bytes) : Prop :=
  ∀ (w : Bytes) (n : ℕ), bs.length ≤ n →
    m.run ⟨w, List.replicate n 0⟩ = .ok () ⟨w ++ bs, List.replicate (n - bs.length) 0⟩

/-- The decoder takes `x` off the front of any input that starts with `bs`, and leaves what
follows. So values can be read one after the other. -/
def Reads (d : Bytes → Res ε (α × Bytes)) (bs : Bytes) (x : α) : Prop :=
  ∀ s, d (bs ++ s) = .ok (x, s)

/-- The value `x` travels as `bs`: that many bytes are announced, these are written, and `x` is
read back from them. -/
structure Codec.Carries (c : Codec ε α) (x : α) (bs : Bytes) : Prop where
  size : c.encoded_size x = .ok bs.length
  writes : Writes (c.encode x) bs
  reads : Reads c.decode bs x

/-- Every value travels, each in bytes of its own. -/
def Codec.RoundTrips (c : Codec ε α) : Prop := ∀ x, ∃ bs, c.Carries x bs

/-- The value `x` is announced with the length of `bs`, and written as `bs`. -/
structure Codec.Emits (c : Codec ε α) (x : α) (bs : Bytes) : Prop where
  size : c.encoded_size x = .ok bs.length
  writes : Writes (c.encode x) bs

/-- Every value is written in as many bytes as were announced for it, whether or not it is read
back. -/
def Codec.Sized (c : Codec ε α) : Prop := ∀ x, ∃ bs, c.Emits x bs

/-- What the decoder takes off an input, in whatever form it stood there, is a value
that travels, and in no more bytes than it took. -/
def Codec.Normalizes (c : Codec ε α) : Prop :=
  ∀ b x rest, c.decode b = .ok (x, rest) →
    ∃ taken bs, b = taken ++ rest ∧ c.Carries x bs ∧ bs.length ≤ taken.length

theorem Codec.Carries.emits {c : Codec ε α} {x : α} {bs : Bytes} (h : c.Carries x bs) :
    c.Emits x bs := ⟨h.size, h.writes⟩

theorem Codec.Emits.carries {c : Codec ε α} {x : α} {bs : Bytes} (h : c.Emits x bs)
    (hreads : Reads c.decode bs x) : c.Carries x bs := ⟨h.size, h.writes, hreads⟩

/-- What can be read back was written as announced, so that facts about sizes need not be shown
again. -/
theorem Codec.RoundTrips.sized {c : Codec ε α} (hc : c.RoundTrips) : c.Sized := by
  intro x
  obtain ⟨bs, h⟩ := hc x
  exact ⟨bs, h.emits⟩

theorem writes_pure : Writes (pure () : Encoder ε Unit) [] := by
  intro w n _
  simp only [EStateM.run_pure, List.append_nil, List.length_nil, Nat.sub_zero]

/-- **Composition of encoders**: the bytes of the one, then those of the other. -/
theorem writes_bind {m₁ m₂ : Encoder ε Unit} {b₁ b₂ : Bytes} (h₁ : Writes m₁ b₁)
    (h₂ : Writes m₂ b₂) : Writes (m₁ >>= fun _ => m₂) (b₁ ++ b₂) := by
  intro w n hn
  rw [List.length_append] at hn
  rw [EStateM.run_bind, h₁ w n (by omega)]
  dsimp only
  rw [h₂ (w ++ b₁) (n - b₁.length) (by omega), List.append_assoc, List.length_append,
    Nat.sub_sub]

/-- A buffer of the exact size is filled to the end, with no room left and none missing. -/
theorem Writes.fill {m : Encoder ε Unit} {bs : Bytes} (h : Writes m bs) :
    m.run ⟨[], List.replicate bs.length 0⟩ = .ok () ⟨bs, []⟩ := by
  rw [h [] bs.length (Nat.le_refl _), List.nil_append, Nat.sub_self, List.replicate_zero]

/-- Two byte strings that travel as different values are not prefixes of each
other's inputs: a decoder answers once. -/
theorem Reads.inj {d : Bytes → Res ε (α × Bytes)} {b₁ b₂ s₁ s₂ : Bytes} {x₁ x₂ : α}
    (h₁ : Reads d b₁ x₁) (h₂ : Reads d b₂ x₂) (h : b₁ ++ s₁ = b₂ ++ s₂) :
    x₁ = x₂ ∧ s₁ = s₂ := by
  have heq := h₁ s₁
  rw [h, h₂ s₂, Except.ok.injEq, Prod.mk.injEq] at heq
  exact ⟨heq.1.symm, heq.2.symm⟩

/-- A type with two values cannot have one that travels as no bytes: the decoder
would find it at the front of every input. -/
theorem Codec.RoundTrips.ne_nil [Nontrivial α] {c : Codec ε α} (hc : c.RoundTrips) {x : α}
    {bs : Bytes} (h : c.Carries x bs) : bs ≠ [] := by
  rintro rfl
  obtain ⟨y, hy⟩ := exists_ne x
  obtain ⟨b, hb⟩ := hc y
  have happ : b ++ [] = [] ++ b := by rw [List.append_nil, List.nil_append]
  exact hy (Reads.inj hb.reads h.reads happ).1

/-- If there are two values to tell apart, no value is written as nothing: both would be read
from nothing. -/
theorem Codec.RoundTrips.length_pos [Nontrivial α] {c : Codec ε α} (hc : c.RoundTrips) {x : α}
    {bs : Bytes} (h : c.Carries x bs) : 0 < bs.length :=
  List.length_pos_iff.mpr (hc.ne_nil h)

/-! ## Records

A record of one or two fields is written and read field by field; anything
longer is built from the two. -/

/-- Two fields, one after the other. The second is read from what the first leaves. -/
def Codec.pair (c : Codec ε α) (d : Codec ε β) : Codec ε (α × β) where
  encoded_size x := do
    let n ← c.encoded_size x.1
    let m ← d.encoded_size x.2
    pure (n + m)
  encode x := do
    c.encode x.1
    d.encode x.2
  decode buf := do
    let (a, rest) ← c.decode buf
    let (b, rest) ← d.decode rest
    pure ((a, b), rest)

/-- A type that is another one's values under a constructor. Records of several fields are this
over `pair`. -/
def Codec.map (c : Codec ε α) (mk : α → β) (fields : β → α) : Codec ε β where
  encoded_size x := c.encoded_size (fields x)
  encode x := c.encode (fields x)
  decode buf := do
    let (a, rest) ← c.decode buf
    pure (mk a, rest)

/-- Sizes add up as the bytes do. -/
theorem Codec.Emits.pair {c : Codec ε α} {d : Codec ε β} {a : α} {b : β} {b₁ b₂ : Bytes}
    (h₁ : c.Emits a b₁) (h₂ : d.Emits b b₂) : (c.pair d).Emits (a, b) (b₁ ++ b₂) where
  size := by
    show (do let n ← c.encoded_size a; let m ← d.encoded_size b; pure (n + m)) = _
    rw [h₁.size, h₂.size, List.length_append]
    rfl
  writes := writes_bind h₁.writes h₂.writes

theorem Codec.Sized.pair {c : Codec ε α} {d : Codec ε β} (hc : c.Sized) (hd : d.Sized) :
    (c.pair d).Sized := by
  rintro ⟨a, b⟩
  obtain ⟨b₁, h₁⟩ := hc a
  obtain ⟨b₂, h₂⟩ := hd b
  exact ⟨b₁ ++ b₂, h₁.pair h₂⟩

/-- The second value is read from what the first leaves. -/
theorem Codec.Carries.pair {c : Codec ε α} {d : Codec ε β} {a : α} {b : β} {b₁ b₂ : Bytes}
    (h₁ : c.Carries a b₁) (h₂ : d.Carries b b₂) : (c.pair d).Carries (a, b) (b₁ ++ b₂) := by
  refine (h₁.emits.pair h₂.emits).carries fun s => ?_
  show (do let (a, rest) ← c.decode _; let (b, rest) ← d.decode rest; pure ((a, b), rest)) = _
  rw [List.append_assoc, h₁.reads (b₂ ++ s)]
  show (do let (b, rest) ← d.decode (b₂ ++ s); pure ((a, b), rest)) = _
  rw [h₂.reads s]
  rfl

theorem Codec.RoundTrips.pair {c : Codec ε α} {d : Codec ε β} (hc : c.RoundTrips)
    (hd : d.RoundTrips) : (c.pair d).RoundTrips := by
  rintro ⟨a, b⟩
  obtain ⟨b₁, h₁⟩ := hc a
  obtain ⟨b₂, h₂⟩ := hd b
  exact ⟨b₁ ++ b₂, h₁.pair h₂⟩

theorem Codec.Normalizes.pair {c : Codec ε α} {d : Codec ε β} (hc : c.Normalizes)
    (hd : d.Normalizes) : (c.pair d).Normalizes := by
  intro b x rest h
  obtain ⟨⟨a, rest₁⟩, ha, h⟩ := bind_eq_ok h
  obtain ⟨⟨a', rest₂⟩, ha', h⟩ := bind_eq_ok h
  obtain ⟨rfl, rfl⟩ := Prod.mk.inj (Except.ok.inj h)
  obtain ⟨t₁, b₁, rfl, h₁, hlen₁⟩ := hc _ _ _ ha
  obtain ⟨t₂, b₂, rfl, h₂, hlen₂⟩ := hd _ _ _ ha'
  refine ⟨t₁ ++ t₂, b₁ ++ b₂, (List.append_assoc _ _ _).symm, h₁.pair h₂, ?_⟩
  rw [List.length_append, List.length_append]
  exact Nat.add_le_add hlen₁ hlen₂

theorem Codec.Sized.map {c : Codec ε α} (hc : c.Sized) (mk : α → β) (fields : β → α) :
    (c.map mk fields).Sized := by
  intro x
  obtain ⟨bs, h⟩ := hc (fields x)
  exact ⟨bs, h.size, h.writes⟩

/-- A record travels as its fields do, if these determine it. -/
theorem Codec.Carries.map {c : Codec ε α} {mk : α → β} {fields : β → α} {x : β} {bs : Bytes}
    (hmk : mk (fields x) = x) (h : c.Carries (fields x) bs) :
    (c.map mk fields).Carries x bs where
  size := h.size
  writes := h.writes
  reads s := by
    show (do let (a, rest) ← c.decode (bs ++ s); pure (mk a, rest)) = _
    rw [h.reads s]
    show Except.ok (mk (fields x), s) = _
    rw [hmk]

theorem Codec.RoundTrips.map {c : Codec ε α} {mk : α → β} {fields : β → α}
    (hc : c.RoundTrips) (hmk : ∀ x, mk (fields x) = x) : (c.map mk fields).RoundTrips := by
  intro x
  obtain ⟨bs, h⟩ := hc (fields x)
  exact ⟨bs, h.map (hmk x)⟩

/-- For a record it is the other direction that is needed: the fields of what was read are what
was read. -/
theorem Codec.Normalizes.map {c : Codec ε α} {mk : α → β} {fields : β → α}
    (hc : c.Normalizes) (hfields : ∀ a, fields (mk a) = a) : (c.map mk fields).Normalizes := by
  intro b x rest h
  obtain ⟨⟨a, rest'⟩, ha, h⟩ := bind_eq_ok h
  obtain ⟨rfl, rfl⟩ := Prod.mk.inj (Except.ok.inj h)
  obtain ⟨taken, bs, hb, hcarries, hlen⟩ := hc _ _ _ ha
  have hmk : mk (fields (mk a)) = mk a := congrArg mk (hfields a)
  rw [← hfields a] at hcarries
  exact ⟨taken, bs, hb, hcarries.map hmk, hlen⟩

/-! ## Fields that may be absent

A flag somewhere else in the record says whether the field was written. Under a
fixed flag such a field is a codec like any other. -/

/-- An optional field: written when present. Whether it is there has to be said elsewhere, in a
byte of flags. -/
def Codec.encode_option (c : Codec ε α) (x : Option α) : Encoder ε Unit :=
  match x with
  | some a => c.encode a
  | none => pure ()

/-- An optional field: read when a flag says it is there, and otherwise nothing is taken. -/
def Codec.decode_option (c : Codec ε α) (present : Bool) (buf : Bytes) :
    Res ε (Option α × Bytes) :=
  if present then do
    let (a, rest) ← c.decode buf
    pure (some a, rest)
  else pure (none, buf)

/-- The size of an optional field, which is nothing if it is missing. -/
def Codec.option_size (c : Codec ε α) (x : Option α) : Res ε ℕ :=
  match x with
  | some a => c.encoded_size a
  | none => .ok 0

/-- An optional field, under the flag `present`, as a codec. The flag is a parameter, since it is
read before the field. -/
def Codec.optional (c : Codec ε α) (present : Bool) : Codec ε (Option α) :=
  ⟨c.option_size, c.encode_option, c.decode_option present⟩

theorem Codec.Sized.optional {c : Codec ε α} (hc : c.Sized) (present : Bool) :
    (c.optional present).Sized := by
  intro x
  cases x with
  | none => exact ⟨[], rfl, writes_pure⟩
  | some a =>
    obtain ⟨bs, h⟩ := hc a
    exact ⟨bs, h.size, h.writes⟩

/-- A value that is not there is written as nothing, and its reader is not asked. -/
theorem Codec.Carries.optional_none (c : Codec ε α) : (c.optional false).Carries none [] :=
  ⟨rfl, writes_pure, fun _ => rfl⟩

theorem Codec.Carries.optional_some {c : Codec ε α} {a : α} {bs : Bytes} (h : c.Carries a bs) :
    (c.optional true).Carries (some a) bs := by
  refine ⟨h.size, h.writes, fun s => ?_⟩
  show (do let (a, rest) ← c.decode (bs ++ s); pure (some a, rest)) = _
  rw [h.reads s]
  rfl

/-- An optional field travels under the flag that says whether it is there. Under the other flag
it does not. -/
theorem Codec.RoundTrips.optional {c : Codec ε α} (hc : c.RoundTrips) (x : Option α) :
    ∃ bs, (c.optional x.isSome).Carries x bs := by
  cases x with
  | none => exact ⟨[], .optional_none c⟩
  | some a =>
    obtain ⟨bs, h⟩ := hc a
    exact ⟨bs, h.optional_some⟩

/-- The flag under which an optional field was read is the one it is written with. -/
theorem Codec.Normalizes.optional {c : Codec ε α} (hc : c.Normalizes) {present : Bool}
    {b rest : Bytes} {x : Option α} (h : c.decode_option present b = .ok (x, rest)) :
    ∃ taken bs, b = taken ++ rest ∧ (c.optional x.isSome).Carries x bs ∧
      bs.length ≤ taken.length := by
  cases present with
  | false =>
    obtain ⟨rfl, rfl⟩ := Prod.mk.inj (Except.ok.inj h)
    exact ⟨[], [], rfl, .optional_none c, Nat.le_refl _⟩
  | true =>
    obtain ⟨⟨a, rest'⟩, ha, h⟩ := bind_eq_ok h
    obtain ⟨rfl, rfl⟩ := Prod.mk.inj (Except.ok.inj h)
    obtain ⟨taken, bs, hb, hcarries, hlen⟩ := hc _ _ _ ha
    exact ⟨taken, bs, hb, hcarries.optional_some, hlen⟩

section Default

variable [DecidableEq α] {c : Codec ε α} {d : α}

/-- A field that is left out when it has its default value `d`. As with an optional field, a flag
says whether it is there. -/
def Codec.elided (c : Codec ε α) (d : α) (present : Bool) : Codec ε α where
  encoded_size x := if x != d then c.encoded_size x else .ok 0
  encode x := if x != d then c.encode x else pure ()
  decode buf := if present then c.decode buf else pure (d, buf)

/-- A value that is not the default is written, under either flag: the flag only matters for
reading. -/
theorem Codec.Emits.elided {x : α} {bs : Bytes} (h : c.Emits x bs) (hx : x ≠ d)
    (present : Bool) : (c.elided d present).Emits x bs := by
  have hne : (x != d) = true := bne_iff_ne.mpr hx
  constructor
  · show (if x != d then _ else _) = _
    rw [hne, if_pos rfl, h.size]
  · show Writes (if x != d then _ else _) _
    rw [hne, if_pos rfl]
    exact h.writes

theorem Codec.Emits.elided_default (c : Codec ε α) (d : α) (present : Bool) :
    (c.elided d present).Emits d [] := by
  have heq : (d != d) = false := bne_self_eq_false d
  constructor
  · show (if d != d then _ else _) = _
    rw [heq]
    rfl
  · show Writes (if d != d then _ else _) _
    rw [heq]
    exact writes_pure

theorem Codec.Sized.elided (hc : c.Sized) (d : α) (present : Bool) :
    (c.elided d present).Sized := by
  intro x
  by_cases hx : x = d
  · subst hx
    exact ⟨[], .elided_default c x present⟩
  · obtain ⟨bs, h⟩ := hc x
    exact ⟨bs, h.elided hx present⟩

/-- And it is read back, as the flag says that it is there. -/
theorem Codec.Carries.elided {x : α} {bs : Bytes} (h : c.Carries x bs) (hx : x ≠ d) :
    (c.elided d (x != d)).Carries x bs := by
  refine (h.emits.elided hx _).carries fun s => ?_
  show (if x != d then _ else _) = _
  rw [bne_iff_ne.mpr hx, if_pos rfl, h.reads s]

theorem Codec.Carries.elided_default (c : Codec ε α) (d : α) :
    (c.elided d (d != d)).Carries d [] := by
  refine (Emits.elided_default c d _).carries fun s => ?_
  show (if d != d then _ else _) = _
  rw [bne_self_eq_false d]
  rfl

/-- So every value travels, the default as nothing, under the flag that its encoder sets. -/
theorem Codec.RoundTrips.elided (hc : c.RoundTrips) (d x : α) :
    ∃ bs, (c.elided d (x != d)).Carries x bs := by
  by_cases hx : x = d
  · subst hx
    exact ⟨[], .elided_default c x⟩
  · obtain ⟨bs, h⟩ := hc x
    exact ⟨bs, h.elided hx⟩

/-- A default value that was written out all the same is left out from then on, which makes it
shorter. -/
theorem Codec.Normalizes.elided (hc : c.Normalizes) {present : Bool} {b rest : Bytes} {x : α}
    (h : (c.elided d present).decode b = .ok (x, rest)) :
    ∃ taken bs, b = taken ++ rest ∧ (c.elided d (x != d)).Carries x bs ∧
      bs.length ≤ taken.length := by
  cases present with
  | false =>
    obtain ⟨rfl, rfl⟩ := Prod.mk.inj (Except.ok.inj h)
    exact ⟨[], [], rfl, .elided_default c d, Nat.le_refl _⟩
  | true =>
    obtain ⟨taken, bs, hb, hcarries, hlen⟩ := hc _ _ _ h
    by_cases hx : x = d
    · subst hx
      exact ⟨taken, [], hb, .elided_default c x, Nat.zero_le _⟩
    · exact ⟨taken, bs, hb, hcarries.elided hx, hlen⟩

end Default

end Wire
