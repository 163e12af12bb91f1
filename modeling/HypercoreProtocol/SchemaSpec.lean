/-
Every message of `src/schema.rs` travels: its encoder writes as many bytes as it
announces, and its decoder takes exactly those bytes back off any input.

The messages that are their fields get this from the codec combinators. A
message with a flags byte is written out once for the encoder (`emits`, from the
bytes of its fields) and once for the decoder (`carries`); for the second one more
fact is needed, that the bits its encoder sets are the ones its decoder tests,
which are the `flags_bits` lemmas. That every value is announced with its size
(`sized`) asks of the fields only that they are, so it is stated apart from
`round_trips`. `Open` is different: its decoder looks at whether anything follows,
so without a capability it travels only when it is the last thing in its input
(`Open.Travels`).
-/
import HypercoreProtocol.Schema

set_option autoImplicit false

namespace hypercore_protocol.schema

open Rust Wire

variable {X : Deps}

/-- The flags byte is read as an array of one byte, which is there whenever the rest is not
empty. -/
theorem take_array_one (hX : X.Lawful) (b : UInt8) (s : Bytes) :
    X.take_array 1 (b :: s) = .ok (⟨[b], rfl⟩, s) := by
  rw [hX.take_array 1 (b :: s) (by rw [List.length_cons]; omega)]
  rfl

/-! ## Messages that are their fields -/

/-- A `Close` is its channel number, so both facts about it are those of the number, carried over
by `map`. -/
theorem Close.sized (hX : X.Sized) : (Close.codec X).Sized := hX.u64.map _ _

theorem Close.round_trips (hX : X.Lawful) : (Close.codec X).RoundTrips :=
  hX.u64.map fun _ => rfl

/-- A `Cancel` is the number of a request, and nothing else is written. -/
theorem Cancel.sized (hX : X.Sized) : (Cancel.codec X).Sized := hX.u64.map _ _

theorem Cancel.round_trips (hX : X.Lawful) : (Cancel.codec X).RoundTrips :=
  hX.u64.map fun _ => rfl

/-- So is a `NoData`: only the type number tells the two apart. -/
theorem NoData.sized (hX : X.Sized) : (NoData.codec X).Sized := hX.u64.map _ _

theorem NoData.round_trips (hX : X.Lawful) : (NoData.codec X).RoundTrips :=
  hX.u64.map fun _ => rfl

/-- A `Want` is two numbers, written one after the other. -/
theorem Want.sized (hX : X.Sized) : (Want.codec X).Sized := (hX.u64.pair hX.u64).map _ _

theorem Want.round_trips (hX : X.Lawful) : (Want.codec X).RoundTrips :=
  (hX.u64.pair hX.u64).map fun _ => rfl

/-- An `Unwant` is laid out as a `Want`, under another type number. -/
theorem Unwant.sized (hX : X.Sized) : (Unwant.codec X).Sized := (hX.u64.pair hX.u64).map _ _

theorem Unwant.round_trips (hX : X.Lawful) : (Unwant.codec X).RoundTrips :=
  (hX.u64.pair hX.u64).map fun _ => rfl

/-- A `Bitfield` is a number and an array of `u32`, whose own length is part of its encoding. -/
theorem Bitfield.sized (hX : X.Sized) : (Bitfield.codec X).Sized :=
  (hX.u64.pair hX.vec_u32).map _ _

theorem Bitfield.round_trips (hX : X.Lawful) : (Bitfield.codec X).RoundTrips :=
  (hX.u64.pair hX.vec_u32).map fun _ => rfl

/-- An `Extension` is a name and its bytes, each behind its length. -/
theorem Extension.sized (hX : X.Sized) : (Extension.codec X).Sized :=
  (hX.string.pair hX.vec_u8).map _ _

theorem Extension.round_trips (hX : X.Lawful) : (Extension.codec X).RoundTrips :=
  (hX.string.pair hX.vec_u8).map fun _ => rfl

/-! ## `Synchronize` -/

/-- The decoder finds each of the three booleans in its own bit of the flags byte. The eight
cases are gone through. -/
theorem Synchronize.flags_bits (m : Synchronize) :
    (m.flags &&& 1 != 0) = m.can_upgrade ∧ (m.flags &&& 2 != 0) = m.uploading ∧
      (m.flags &&& 4 != 0) = m.downloading := by
  simp only [flags]
  cases m.can_upgrade <;> cases m.uploading <;> cases m.downloading <;> exact ⟨rfl, rfl, rfl⟩

/-- The bytes of a `Synchronize`: its flags and three numbers. Size and encoder are written apart
in the source and agree here field by field. -/
theorem Synchronize.emits (hX : X.Sized) {m : Synchronize} {b₁ b₂ b₃ : Bytes}
    (h₁ : X.u64.Emits m.fork b₁) (h₂ : X.u64.Emits m.length b₂)
    (h₃ : X.u64.Emits m.remote_length b₃) :
    (Synchronize.codec X).Emits m ([m.flags] ++ (b₁ ++ (b₂ ++ b₃))) := by
  constructor
  · simp only [codec, encoded_size, h₁.size, h₂.size, h₃.size, ok_bind]
    refine congrArg Except.ok ?_
    simp only [List.length_append, List.length_singleton]
    omega
  · exact writes_bind (hX.write_array _)
      (writes_bind h₁.writes (writes_bind h₂.writes h₃.writes))

/-- They are read back, the booleans from their bits, the numbers one after the other. -/
theorem Synchronize.carries (hX : X.Lawful) {m : Synchronize} {b₁ b₂ b₃ : Bytes}
    (h₁ : X.u64.Carries m.fork b₁) (h₂ : X.u64.Carries m.length b₂)
    (h₃ : X.u64.Carries m.remote_length b₃) :
    (Synchronize.codec X).Carries m ([m.flags] ++ (b₁ ++ (b₂ ++ b₃))) := by
  obtain ⟨f₁, f₂, f₃⟩ := m.flags_bits
  refine (emits hX.sized h₁.emits h₂.emits h₃.emits).carries fun s => ?_
  simp only [codec, decode, List.cons_append, List.nil_append, List.append_assoc,
    take_array_one hX, h₁.reads _, h₂.reads _, h₃.reads _, ok_bind, List.headD_cons, f₁, f₂, f₃]
  rfl

/-- Every `Synchronize` is written in the size announced for it, whatever its numbers are. -/
theorem Synchronize.sized (hX : X.Sized) : (Synchronize.codec X).Sized := by
  intro m
  obtain ⟨b₁, h₁⟩ := hX.u64 m.fork
  obtain ⟨b₂, h₂⟩ := hX.u64 m.length
  obtain ⟨b₃, h₃⟩ := hX.u64 m.remote_length
  exact ⟨_, emits hX h₁ h₂ h₃⟩

/-- And every one is read back, whatever follows: it ends with a number, which ends by itself. -/
theorem Synchronize.round_trips (hX : X.Lawful) : (Synchronize.codec X).RoundTrips := by
  intro m
  obtain ⟨b₁, h₁⟩ := hX.u64 m.fork
  obtain ⟨b₂, h₂⟩ := hX.u64 m.length
  obtain ⟨b₃, h₃⟩ := hX.u64 m.remote_length
  exact ⟨_, carries hX h₁ h₂ h₃⟩

/-! ## `Range` -/

/-- The second bit of a `Range` is not a field: it says that the length is left out because it is
one. -/
theorem Range.flags_bits (m : Range) :
    (m.flags &&& 1 != 0) = m.drop ∧ (m.flags &&& 2 != 0) = (m.length == 1) := by
  simp only [flags]
  cases m.drop <;> cases m.length == 1 <;> exact ⟨rfl, rfl⟩

/-- A length of one is in the flags only. `present` says whether it is written, which the flags
decide. -/
theorem Range.emits (hX : X.Sized) {m : Range} {b₁ b₂ : Bytes} (present : Bool)
    (h₁ : X.u64.Emits m.start b₁) (h₂ : (X.u64.elided 1 present).Emits m.length b₂) :
    (Range.codec X).Emits m ([m.flags] ++ (b₁ ++ b₂)) := by
  constructor
  · have hlen : ([m.flags] ++ (b₁ ++ b₂)).length = 1 + b₁.length + b₂.length := by
      simp only [List.length_append, List.length_singleton]
      omega
    have hsize : (if m.length != 1 then X.u64.encoded_size m.length else .ok 0)
        = .ok b₂.length := h₂.size
    rw [hlen]
    simp only [codec, encoded_size, h₁.size, ok_bind]
    split at hsize
    · rw [if_pos ‹_›, hsize]
      rfl
    · rw [if_neg ‹_›, ← Except.ok.inj hsize]
      rfl
  · exact writes_bind (hX.write_array _) (writes_bind h₁.writes h₂.writes)

/-- How the decoder reads the length, as a field with a default. So the lemmas about elided
fields apply to it. -/
theorem Range.decode_length (X : Deps) (elided : Bool) (rest : Bytes) :
    (if elided then pure (1, rest) else X.u64.decode rest)
      = (X.u64.elided 1 (!elided)).decode rest := by
  cases elided <;> rfl

/-- A `Range` is read back. Its length is read where the flags say that it was written, and is one
otherwise. -/
theorem Range.carries (hX : X.Lawful) {m : Range} {b₁ b₂ : Bytes}
    (h₁ : X.u64.Carries m.start b₁)
    (h₂ : (X.u64.elided 1 (m.length != 1)).Carries m.length b₂) :
    (Range.codec X).Carries m ([m.flags] ++ (b₁ ++ b₂)) := by
  obtain ⟨f₁, f₂⟩ := m.flags_bits
  refine (emits hX.sized _ h₁.emits h₂.emits).carries fun s => ?_
  have r₂ : (if m.length == 1 then pure (1, b₂ ++ s) else X.u64.decode (b₂ ++ s))
      = .ok (m.length, s) := by
    rw [decode_length]
    exact h₂.reads s
  simp only [codec, decode, List.cons_append, List.nil_append, List.append_assoc,
    take_array_one hX, h₁.reads _, ok_bind, List.headD_cons, f₁, f₂]
  split at r₂
  · rw [if_pos ‹_›, r₂]
    rfl
  · rw [if_neg ‹_›, r₂]
    rfl

/-- Every `Range` is written in the size announced for it, with its length or without. -/
theorem Range.sized (hX : X.Sized) : (Range.codec X).Sized := by
  intro m
  obtain ⟨b₁, h₁⟩ := hX.u64 m.start
  obtain ⟨b₂, h₂⟩ := hX.u64.elided 1 (m.length != 1) m.length
  exact ⟨_, emits hX _ h₁ h₂⟩

/-- And every one is read back, whatever follows, with its length from the bytes or from the
flags. -/
theorem Range.round_trips (hX : X.Lawful) : (Range.codec X).RoundTrips := by
  intro m
  obtain ⟨b₁, h₁⟩ := hX.u64 m.start
  obtain ⟨b₂, h₂⟩ := hX.u64.elided 1 m.length
  exact ⟨_, carries hX h₁ h₂⟩

/-! ## `Data` -/

/-- The flags of a `Data` say which of its four parts are there, each in a bit of its own. -/
theorem Data.flags_bits (m : Data X) :
    (m.flags &&& 1 != 0) = m.block.isSome ∧ (m.flags &&& 2 != 0) = m.hash.isSome ∧
      (m.flags &&& 4 != 0) = m.seek.isSome ∧ (m.flags &&& 8 != 0) = m.upgrade.isSome := by
  simp only [flags]
  cases m.block.isSome <;> cases m.hash.isSome <;> cases m.seek.isSome <;>
    cases m.upgrade.isSome <;> exact ⟨rfl, rfl, rfl, rfl⟩

section

variable {m : Data X} {b₁ b₂ b₃ b₄ b₅ b₆ : Bytes}

/-- The bytes of a `Data`: its flags, two numbers and the parts that are there. The size is
counted part by part, so the two agree for any choice of parts; that the flags name this choice is
needed only to read it back. -/
theorem Data.emits (hX : X.Sized) {p₃ p₄ p₅ p₆ : Bool} (h₁ : X.u64.Emits m.request b₁)
    (h₂ : X.u64.Emits m.fork b₂) (h₃ : (X.data_block.optional p₃).Emits m.block b₃)
    (h₄ : (X.data_hash.optional p₄).Emits m.hash b₄)
    (h₅ : (X.data_seek.optional p₅).Emits m.seek b₅)
    (h₆ : (X.data_upgrade.optional p₆).Emits m.upgrade b₆) :
    (Data.codec X).Emits m ([m.flags] ++ (b₁ ++ (b₂ ++ (b₃ ++ (b₄ ++ (b₅ ++ b₆)))))) := by
  constructor
  · have s₃ : X.data_block.option_size m.block = .ok b₃.length := h₃.size
    have s₄ : X.data_hash.option_size m.hash = .ok b₄.length := h₄.size
    have s₅ : X.data_seek.option_size m.seek = .ok b₅.length := h₅.size
    have s₆ : X.data_upgrade.option_size m.upgrade = .ok b₆.length := h₆.size
    simp only [codec, encoded_size, h₁.size, h₂.size, s₃, s₄, s₅, s₆, ok_bind]
    refine congrArg Except.ok ?_
    simp only [List.length_append, List.length_singleton]
    omega
  · exact writes_bind (hX.write_array _) (writes_bind h₁.writes (writes_bind h₂.writes
      (writes_bind h₃.writes (writes_bind h₄.writes (writes_bind h₅.writes h₆.writes)))))

/-- They are read back: the decoder asks for a part exactly if its bit is set, which is if it was
written. -/
theorem Data.carries (hX : X.Lawful) (h₁ : X.u64.Carries m.request b₁)
    (h₂ : X.u64.Carries m.fork b₂) (h₃ : (X.data_block.optional m.block.isSome).Carries m.block b₃)
    (h₄ : (X.data_hash.optional m.hash.isSome).Carries m.hash b₄)
    (h₅ : (X.data_seek.optional m.seek.isSome).Carries m.seek b₅)
    (h₆ : (X.data_upgrade.optional m.upgrade.isSome).Carries m.upgrade b₆) :
    (Data.codec X).Carries m ([m.flags] ++ (b₁ ++ (b₂ ++ (b₃ ++ (b₄ ++ (b₅ ++ b₆)))))) := by
  obtain ⟨f₁, f₂, f₃, f₄⟩ := m.flags_bits
  have r₃ : Reads (X.data_block.decode_option m.block.isSome) b₃ m.block := h₃.reads
  have r₄ : Reads (X.data_hash.decode_option m.hash.isSome) b₄ m.hash := h₄.reads
  have r₅ : Reads (X.data_seek.decode_option m.seek.isSome) b₅ m.seek := h₅.reads
  have r₆ : Reads (X.data_upgrade.decode_option m.upgrade.isSome) b₆ m.upgrade := h₆.reads
  refine (emits hX.sized h₁.emits h₂.emits h₃.emits h₄.emits h₅.emits h₆.emits).carries
    fun s => ?_
  simp only [codec, decode, List.cons_append, List.nil_append, List.append_assoc,
    take_array_one hX, h₁.reads _, h₂.reads _, ok_bind, List.headD_cons, f₁, f₂, f₃, f₄,
    r₃ _, r₄ _, r₅ _, r₆ _]
  rfl

end

/-- Every `Data` is written in the size announced for it, part by part. -/
theorem Data.sized (hX : X.Sized) : (Data.codec X).Sized := by
  intro m
  obtain ⟨b₁, h₁⟩ := hX.u64 m.request
  obtain ⟨b₂, h₂⟩ := hX.u64 m.fork
  obtain ⟨b₃, h₃⟩ := hX.data_block.optional m.block.isSome m.block
  obtain ⟨b₄, h₄⟩ := hX.data_hash.optional m.hash.isSome m.hash
  obtain ⟨b₅, h₅⟩ := hX.data_seek.optional m.seek.isSome m.seek
  obtain ⟨b₆, h₆⟩ := hX.data_upgrade.optional m.upgrade.isSome m.upgrade
  exact ⟨_, emits hX h₁ h₂ h₃ h₄ h₅ h₆⟩

/-- And every one is read back, whatever follows: each part ends by itself. -/
theorem Data.round_trips (hX : X.Lawful) : (Data.codec X).RoundTrips := by
  intro m
  obtain ⟨b₁, h₁⟩ := hX.u64 m.request
  obtain ⟨b₂, h₂⟩ := hX.u64 m.fork
  obtain ⟨b₃, h₃⟩ := hX.data_block.optional m.block
  obtain ⟨b₄, h₄⟩ := hX.data_hash.optional m.hash
  obtain ⟨b₅, h₅⟩ := hX.data_seek.optional m.seek
  obtain ⟨b₆, h₆⟩ := hX.data_upgrade.optional m.upgrade
  exact ⟨_, carries hX h₁ h₂ h₃ h₄ h₅ h₆⟩

/-! ## `Request` -/

/-- The flags of a `Request`: four parts, a boolean, and whether there is a priority. A priority
of zero is left out. -/
theorem Request.flags_bits (m : Request X) :
    (m.flags &&& 1 != 0) = m.block.isSome ∧ (m.flags &&& 2 != 0) = m.hash.isSome ∧
      (m.flags &&& 4 != 0) = m.seek.isSome ∧ (m.flags &&& 8 != 0) = m.upgrade.isSome ∧
      (m.flags &&& 16 != 0) = m.manifest ∧ (m.flags &&& 32 != 0) = (m.priority != 0) := by
  simp only [flags]
  cases m.block.isSome <;> cases m.hash.isSome <;> cases m.seek.isSome <;>
    cases m.upgrade.isSome <;> cases m.manifest <;> cases m.priority != 0 <;>
    exact ⟨rfl, rfl, rfl, rfl, rfl, rfl⟩

section

variable {m : Request X} {b₁ b₂ b₃ b₄ b₅ b₆ b₇ : Bytes}

/-- A priority other than zero is written last, and the flag for it says so. The parts are in the
order of the encoder. -/
theorem Request.emits (hX : X.Sized) {p₃ p₄ p₅ p₆ p₇ : Bool} (h₁ : X.u64.Emits m.id b₁)
    (h₂ : X.u64.Emits m.fork b₂) (h₃ : (X.request_block.optional p₃).Emits m.block b₃)
    (h₄ : (X.request_block.optional p₄).Emits m.hash b₄)
    (h₅ : (X.request_seek.optional p₅).Emits m.seek b₅)
    (h₆ : (X.request_upgrade.optional p₆).Emits m.upgrade b₆)
    (h₇ : (X.u64.elided 0 p₇).Emits m.priority b₇) :
    (Request.codec X).Emits m
      ([m.flags] ++ (b₁ ++ (b₂ ++ (b₃ ++ (b₄ ++ (b₅ ++ (b₆ ++ b₇))))))) := by
  constructor
  · have s₃ : X.request_block.option_size m.block = .ok b₃.length := h₃.size
    have s₄ : X.request_block.option_size m.hash = .ok b₄.length := h₄.size
    have s₅ : X.request_seek.option_size m.seek = .ok b₅.length := h₅.size
    have s₆ : X.request_upgrade.option_size m.upgrade = .ok b₆.length := h₆.size
    have s₇ : (if m.priority != 0 then X.u64.encoded_size m.priority else .ok 0)
        = .ok b₇.length := h₇.size
    have hlen : ([m.flags] ++ (b₁ ++ (b₂ ++ (b₃ ++ (b₄ ++ (b₅ ++ (b₆ ++ b₇))))))).length
        = 1 + (b₁.length + b₂.length) + b₃.length + b₄.length + b₅.length + b₆.length
          + b₇.length := by
      simp only [List.length_append, List.length_singleton]
      omega
    rw [hlen]
    simp only [codec, encoded_size, h₁.size, h₂.size, s₃, s₄, s₅, s₆, ok_bind]
    -- the size of the priority is computed in a branch of its own
    split at s₇
    · rw [if_pos ‹_›, s₇]
      rfl
    · rw [if_neg ‹_›, ← Except.ok.inj s₇]
      rfl
  · exact writes_bind (hX.write_array _) (writes_bind h₁.writes (writes_bind h₂.writes
      (writes_bind h₃.writes (writes_bind h₄.writes (writes_bind h₅.writes
        (writes_bind h₆.writes h₇.writes))))))

/-- A `Request` is read back: each part where its bit is set, and a priority of zero where it was
left out. -/
theorem Request.carries (hX : X.Lawful) (h₁ : X.u64.Carries m.id b₁)
    (h₂ : X.u64.Carries m.fork b₂)
    (h₃ : (X.request_block.optional m.block.isSome).Carries m.block b₃)
    (h₄ : (X.request_block.optional m.hash.isSome).Carries m.hash b₄)
    (h₅ : (X.request_seek.optional m.seek.isSome).Carries m.seek b₅)
    (h₆ : (X.request_upgrade.optional m.upgrade.isSome).Carries m.upgrade b₆)
    (h₇ : (X.u64.elided 0 (m.priority != 0)).Carries m.priority b₇) :
    (Request.codec X).Carries m
      ([m.flags] ++ (b₁ ++ (b₂ ++ (b₃ ++ (b₄ ++ (b₅ ++ (b₆ ++ b₇))))))) := by
  obtain ⟨f₁, f₂, f₃, f₄, f₅, f₆⟩ := m.flags_bits
  have r₃ : Reads (X.request_block.decode_option m.block.isSome) b₃ m.block := h₃.reads
  have r₄ : Reads (X.request_block.decode_option m.hash.isSome) b₄ m.hash := h₄.reads
  have r₅ : Reads (X.request_seek.decode_option m.seek.isSome) b₅ m.seek := h₅.reads
  have r₆ : Reads (X.request_upgrade.decode_option m.upgrade.isSome) b₆ m.upgrade := h₆.reads
  refine (emits hX.sized h₁.emits h₂.emits h₃.emits h₄.emits h₅.emits h₆.emits
    h₇.emits).carries fun s => ?_
  -- the flag for the priority is its being other than zero
  have r₇ : (if m.priority != 0 then X.u64.decode (b₇ ++ s) else pure (0, b₇ ++ s))
      = .ok (m.priority, s) := h₇.reads s
  simp only [codec, decode, List.cons_append, List.nil_append, List.append_assoc,
    take_array_one hX, h₁.reads _, h₂.reads _, ok_bind, List.headD_cons, f₁, f₂, f₃, f₄, f₅, f₆,
    r₃ _, r₄ _, r₅ _, r₆ _]
  split at r₇
  · rw [if_pos ‹_›, r₇]
    rfl
  · rw [if_neg ‹_›, r₇]
    rfl

end

/-- Every `Request` is written in the size announced for it, part by part. -/
theorem Request.sized (hX : X.Sized) : (Request.codec X).Sized := by
  intro m
  obtain ⟨b₁, h₁⟩ := hX.u64 m.id
  obtain ⟨b₂, h₂⟩ := hX.u64 m.fork
  obtain ⟨b₃, h₃⟩ := hX.request_block.optional m.block.isSome m.block
  obtain ⟨b₄, h₄⟩ := hX.request_block.optional m.hash.isSome m.hash
  obtain ⟨b₅, h₅⟩ := hX.request_seek.optional m.seek.isSome m.seek
  obtain ⟨b₆, h₆⟩ := hX.request_upgrade.optional m.upgrade.isSome m.upgrade
  obtain ⟨b₇, h₇⟩ := hX.u64.elided 0 (m.priority != 0) m.priority
  exact ⟨_, emits hX h₁ h₂ h₃ h₄ h₅ h₆ h₇⟩

/-- And every one is read back, whatever follows: each part ends by itself. -/
theorem Request.round_trips (hX : X.Lawful) : (Request.codec X).RoundTrips := by
  intro m
  obtain ⟨b₁, h₁⟩ := hX.u64 m.id
  obtain ⟨b₂, h₂⟩ := hX.u64 m.fork
  obtain ⟨b₃, h₃⟩ := hX.request_block.optional m.block
  obtain ⟨b₄, h₄⟩ := hX.request_block.optional m.hash
  obtain ⟨b₅, h₅⟩ := hX.request_seek.optional m.seek
  obtain ⟨b₆, h₆⟩ := hX.request_upgrade.optional m.upgrade
  obtain ⟨b₇, h₇⟩ := hX.u64.elided 0 m.priority
  exact ⟨_, carries hX h₁ h₂ h₃ h₄ h₅ h₆ h₇⟩

/-! ## `Open` -/

/-- What stands behind the discovery key: nothing, or a byte of flags that stays zero and
the capability. -/
def Open.capability_bytes (m : Open) : Bytes :=
  match m.capability with
  | none => []
  | some cap => [0] ++ cap.val

/-- The bytes of an `Open`. The size of the capability is announced as 33 bytes whatever its
length is, so the two agree only if it has 32 of them. -/
theorem Open.emits (hX : X.Sized) {m : Open} {b₁ b₂ b₃ : Bytes}
    (hcap : ∀ cap, m.capability = some cap → cap.val.length = 32)
    (h₁ : X.u64.Emits m.channel b₁) (h₂ : X.string.Emits m.protocol b₂)
    (h₃ : X.vec_u8.Emits m.discovery_key b₃) :
    (Open.codec X).Emits m (b₁ ++ (b₂ ++ (b₃ ++ m.capability_bytes))) := by
  cases hc : m.capability with
  | none =>
    have hbytes : m.capability_bytes = [] := by rw [capability_bytes, hc]
    rw [hbytes]
    constructor
    · simp only [codec, encoded_size, h₁.size, h₂.size, h₃.size, ok_bind, hc, Option.isSome_none,
        Bool.false_eq_true, if_false]
      refine congrArg Except.ok ?_
      simp only [List.length_append, List.length_nil]
      omega
    · simp only [codec, encode, hc]
      exact writes_bind h₁.writes (writes_bind h₂.writes (writes_bind h₃.writes writes_pure))
  | some cap =>
    have hbytes : m.capability_bytes = [0] ++ cap.val := by rw [capability_bytes, hc]
    rw [hbytes]
    constructor
    · simp only [codec, encoded_size, h₁.size, h₂.size, h₃.size, ok_bind, hc, Option.isSome_some,
        if_true]
      refine congrArg Except.ok ?_
      simp only [List.length_append, List.length_singleton, hcap cap hc]
      omega
    · simp only [codec, encode, hc]
      exact writes_bind h₁.writes (writes_bind h₂.writes (writes_bind h₃.writes
        (writes_bind (hX.take_array_mut 1) (hX.write_slice cap.val))))

/-- The size of an `Open` is announced as it is written, if its capability is absent or 32
bytes long: that is the size announced for any. -/
theorem Open.sized (hX : X.Sized) (m : Open)
    (hcap : ∀ cap, m.capability = some cap → cap.val.length = 32) :
    ∃ bs, (Open.codec X).Emits m bs := by
  obtain ⟨b₁, h₁⟩ := hX.u64 m.channel
  obtain ⟨b₂, h₂⟩ := hX.string m.protocol
  obtain ⟨b₃, h₃⟩ := hX.vec_u8 m.discovery_key
  exact ⟨_, emits hX hcap h₁ h₂ h₃⟩

/-- With its capability an `Open` is read to its own end, whatever follows, since the capability
has a fixed length. -/
theorem Open.reads_some (hX : X.Lawful) {m : Open} {cap : Vec UInt8} {b₁ b₂ b₃ : Bytes}
    (hc : m.capability = some cap) (hcap : cap.val.length = 32)
    (h₁ : X.u64.Carries m.channel b₁) (h₂ : X.string.Carries m.protocol b₂)
    (h₃ : X.vec_u8.Carries m.discovery_key b₃) :
    Reads (Open.decode X) (b₁ ++ (b₂ ++ (b₃ ++ m.capability_bytes))) m := by
  intro s
  have hbytes : m.capability_bytes = 0 :: cap.val := by
    rw [capability_bytes, hc]
    rfl
  -- the 32 bytes are taken whole
  have htake : X.take_array 32 (cap.val ++ s) = .ok (⟨cap.val, hcap⟩, s) := by
    rw [hX.take_array 32 _ (by rw [List.length_append, hcap]; omega),
      List.drop_append_of_le_length (Nat.le_of_eq hcap.symm),
      List.drop_of_length_le (Nat.le_of_eq hcap)]
    simp only [List.take_append_of_le_length (Nat.le_of_eq hcap.symm),
      List.take_of_length_le (Nat.le_of_eq hcap), List.nil_append]
  have hvec : some (to_vec ⟨cap.val, hcap⟩) = m.capability := hc.symm
  simp only [List.append_assoc, decode, h₁.reads _, h₂.reads _, h₃.reads _, ok_bind, hbytes,
    List.cons_append, List.isEmpty_cons, Bool.not_false, if_true, take_array_one hX, htake]
  rw [hvec]
  rfl

/-- Without one it takes a capability from what follows: whether one was written is not in the
bytes, and the decoder goes by whether any are left. -/
theorem Open.reads_none {m m' : Open} {b₁ b₂ b₃ s rest : Bytes}
    (h₁ : X.u64.Carries m.channel b₁) (h₂ : X.string.Carries m.protocol b₂)
    (h₃ : X.vec_u8.Carries m.discovery_key b₃) (hs : s ≠ [])
    (h : Open.decode X (b₁ ++ (b₂ ++ (b₃ ++ s))) = .ok (m', rest)) : m'.capability ≠ none := by
  have hmore : (!s.isEmpty) = true := by
    rw [Bool.not_eq_true', List.isEmpty_eq_false_iff]
    exact hs
  simp only [decode, h₁.reads _, h₂.reads _, h₃.reads _, ok_bind, hmore, if_true] at h
  obtain ⟨⟨flags, s₁⟩, -, h⟩ := bind_eq_ok h
  obtain ⟨⟨cap, s₂⟩, -, h⟩ := bind_eq_ok h
  obtain ⟨rfl, -⟩ := Prod.mk.inj (Except.ok.inj h)
  exact Option.some_ne_none _

/-- How an `Open` travels. It is read back when it is all there is. What happens in front of
something else depends on the capability: with one the decoder stops where the `Open` ends,
and without one it does not come back with this `Open`. -/
structure Open.Travels (X : Deps) (m : Open) (bs : Bytes) : Prop where
  emits : (Open.codec X).Emits m bs
  key_le : m.discovery_key.val.length ≤ bs.length
  alone : Open.decode X bs = .ok (m, [])
  reads : m.capability ≠ none → Reads (Open.decode X) bs m
  runs_on : m.capability = none → ∀ s m' rest, s ≠ [] →
    Open.decode X (bs ++ s) = .ok (m', rest) → m'.capability ≠ none

/-- Every `Open` whose capability is absent or 32 bytes long travels so: 32 bytes are
what the decoder takes for one. -/
theorem Open.travels (hX : X.Lawful) (m : Open)
    (hcap : ∀ cap, m.capability = some cap → cap.val.length = 32) :
    ∃ bs, Open.Travels X m bs := by
  obtain ⟨b₁, h₁⟩ := hX.u64 m.channel
  obtain ⟨b₂, h₂⟩ := hX.string m.protocol
  obtain ⟨b₃, h₃⟩ := hX.vec_u8 m.discovery_key
  have hdk := (hX.vec_u8_suffix _ _ h₃).length_le
  have hemits := emits hX.sized hcap h₁.emits h₂.emits h₃.emits
  have hle : m.discovery_key.val.length ≤ (b₁ ++ (b₂ ++ (b₃ ++ m.capability_bytes))).length := by
    simp only [List.length_append]
    omega
  cases hc : m.capability with
  | none =>
    have hbytes : m.capability_bytes = [] := by rw [capability_bytes, hc]
    refine ⟨_, hemits, hle, ?_, fun h => absurd hc h, fun _ s m' rest hs h => ?_⟩
    · simp only [decode, h₁.reads _, h₂.reads _, h₃.reads _, ok_bind, hbytes, List.isEmpty_nil,
        Bool.not_true, Bool.false_eq_true, if_false, ← hc]
      rfl
    · simp only [hbytes, List.append_assoc, List.nil_append] at h
      exact reads_none h₁ h₂ h₃ hs h
  | some cap =>
    have hreads := reads_some hX hc (hcap cap hc) h₁ h₂ h₃
    refine ⟨_, hemits, hle, ?_, fun _ => hreads, fun h => nomatch hc.symm.trans h⟩
    have halone := hreads []
    rwa [List.append_nil] at halone

end hypercore_protocol.schema
