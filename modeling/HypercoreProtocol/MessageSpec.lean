/-
One message of `src/message.rs` on the wire: its type number, then its payload.

The ten types that may share a frame differ in their number and in the encoding of
their payload, and in nothing else. `Message.Arm` says this of one constructor, and
`Message.of_data` and `Message.decode_inv` find the constructor of a message, and of
a message that was decoded. What is to be shown of all messages then has to be shown
of the ten payload encodings (`Payloads`) and of one arm.
-/
import HypercoreProtocol.Message
import HypercoreProtocol.SchemaSpec

set_option autoImplicit false

namespace hypercore_protocol.message

open Rust Wire schema

variable {X : Deps}

/-- Whether a message is one of the ten that may share a frame. Of the others two have a frame of
their own, and a local signal is never written. -/
def Message.is_data : Message X → Bool
  | .Open _ => false
  | .Close _ => false
  | .LocalSignal _ _ => false
  | _ => true

/-- Data and the two messages with a prefix of their own exclude each other. The converse fails
for local signals only. -/
theorem is_open_or_close_of_is_data {m : Message X} (h : m.is_data = true) :
    m.is_open_or_close = false := by
  cases m with
  | Open x => exact nomatch h
  | Close x => exact nomatch h
  | _ => rfl

/-! ## Message types -/

/-- The constructor `mk` has the type number `n` and the payload encoding `c`: this is
what its arms in `encoded_size`, `encode` and `decode` come to. -/
structure Message.Arm {α : Type} (c : Codec EncodingError α) (n : UInt64) (mk : α → Message X) :
    Prop where
  small : n.toNat < 253
  size : ∀ x, (mk x).encoded_size =
    do let a ← X.u64.encoded_size n; let b ← c.encoded_size x; pure (a + b)
  encode : ∀ x, (mk x).encode = do X.u64.encode n; c.encode x
  decode : ∀ b rest, X.u64.decode b = .ok (n, rest) →
    Message.decode X b = Message.decode_message c mk rest

namespace Message

/-- The arms of the three functions, one for each type of message. Each is what the source has in
its three matches, so these are checked by computation. -/
theorem synchronize_arm : Arm (Synchronize.codec X) 0 (.Synchronize : _ → Message X) :=
  ⟨by decide, fun _ => rfl, fun _ => rfl, fun b rest h => by rw [decode, h]; rfl⟩

/-- The arms of a `Request`. -/
theorem request_arm : Arm (Request.codec X) 1 (.Request : _ → Message X) :=
  ⟨by decide, fun _ => rfl, fun _ => rfl, fun b rest h => by rw [decode, h]; rfl⟩

/-- The arms of a `Cancel`. -/
theorem cancel_arm : Arm (Cancel.codec X) 2 (.Cancel : _ → Message X) :=
  ⟨by decide, fun _ => rfl, fun _ => rfl, fun b rest h => by rw [decode, h]; rfl⟩

/-- The arms of a `Data`. -/
theorem data_arm : Arm (Data.codec X) 3 (.Data : _ → Message X) :=
  ⟨by decide, fun _ => rfl, fun _ => rfl, fun b rest h => by rw [decode, h]; rfl⟩

/-- The arms of a `NoData`. -/
theorem no_data_arm : Arm (NoData.codec X) 4 (.NoData : _ → Message X) :=
  ⟨by decide, fun _ => rfl, fun _ => rfl, fun b rest h => by rw [decode, h]; rfl⟩

/-- The arms of a `Want`. -/
theorem want_arm : Arm (Want.codec X) 5 (.Want : _ → Message X) :=
  ⟨by decide, fun _ => rfl, fun _ => rfl, fun b rest h => by rw [decode, h]; rfl⟩

/-- The arms of an `Unwant`. -/
theorem unwant_arm : Arm (Unwant.codec X) 6 (.Unwant : _ → Message X) :=
  ⟨by decide, fun _ => rfl, fun _ => rfl, fun b rest h => by rw [decode, h]; rfl⟩

/-- The arms of a `Bitfield`. -/
theorem bitfield_arm : Arm (Bitfield.codec X) 7 (.Bitfield : _ → Message X) :=
  ⟨by decide, fun _ => rfl, fun _ => rfl, fun b rest h => by rw [decode, h]; rfl⟩

/-- The arms of a `Range`. -/
theorem range_arm : Arm (Range.codec X) 8 (.Range : _ → Message X) :=
  ⟨by decide, fun _ => rfl, fun _ => rfl, fun b rest h => by rw [decode, h]; rfl⟩

/-- The arms of an `Extension`. -/
theorem extension_arm : Arm (Extension.codec X) 9 (.Extension : _ → Message X) :=
  ⟨by decide, fun _ => rfl, fun _ => rfl, fun b rest h => by rw [decode, h]; rfl⟩

end Message

/-- A property that the payload encodings of all ten message types have. A fact about payloads is
shown type by type once, and used for messages through this. -/
structure Payloads (X : Deps) (P : (α : Type) → Codec EncodingError α → Prop) : Prop where
  synchronize : P _ (Synchronize.codec X)
  request : P _ (Request.codec X)
  cancel : P _ (Cancel.codec X)
  data : P _ (Data.codec X)
  no_data : P _ (NoData.codec X)
  want : P _ (Want.codec X)
  unwant : P _ (Unwant.codec X)
  bitfield : P _ (Bitfield.codec X)
  range : P _ (Range.codec X)
  extension : P _ (Extension.codec X)

section

variable {P : (α : Type) → Codec EncodingError α → Prop} (hP : Payloads X P)
include hP

/-- A message that may share a frame is a payload under one of the ten constructors. With this,
one proof about an arm does for all messages. -/
theorem Message.of_data (m : Message X) (hm : m.is_data = true) :
    ∃ (α : Type) (c : Codec EncodingError α) (n : UInt64) (mk : α → Message X) (x : α),
      Arm c n mk ∧ P α c ∧ m = mk x := by
  cases m with
  | Open x => cases hm
  | Close x => cases hm
  | LocalSignal name data => cases hm
  | Synchronize x => exact ⟨_, _, 0, _, x, synchronize_arm, hP.synchronize, rfl⟩
  | Request x => exact ⟨_, _, 1, _, x, request_arm, hP.request, rfl⟩
  | Cancel x => exact ⟨_, _, 2, _, x, cancel_arm, hP.cancel, rfl⟩
  | Data x => exact ⟨_, _, 3, _, x, data_arm, hP.data, rfl⟩
  | NoData x => exact ⟨_, _, 4, _, x, no_data_arm, hP.no_data, rfl⟩
  | Want x => exact ⟨_, _, 5, _, x, want_arm, hP.want, rfl⟩
  | Unwant x => exact ⟨_, _, 6, _, x, unwant_arm, hP.unwant, rfl⟩
  | Bitfield x => exact ⟨_, _, 7, _, x, bitfield_arm, hP.bitfield, rfl⟩
  | Range x => exact ⟨_, _, 8, _, x, range_arm, hP.range, rfl⟩
  | Extension x => exact ⟨_, _, 9, _, x, extension_arm, hP.extension, rfl⟩

/-- Whatever type number was read, the payload decoder of that type ran on what was left,
or there is no such type. -/
theorem Message.decode_cases {b rest : Bytes} {n : UInt64} (h : X.u64.decode b = .ok (n, rest)) :
    (∃ (α : Type) (c : Codec EncodingError α) (mk : α → Message X),
      Arm c n mk ∧ P α c ∧ Message.decode X b = decode_message c mk rest) ∨
    ∃ e, Message.decode X b = .error (.err e) := by
  have harm : ∀ {α : Type} {c : Codec EncodingError α} {mk : α → Message X}, Arm c n mk → P α c →
      ∃ (α : Type) (c : Codec EncodingError α) (mk : α → Message X),
        Arm c n mk ∧ P α c ∧ Message.decode X b = decode_message c mk rest :=
    fun harm hc => ⟨_, _, _, harm, hc, harm.decode b rest h⟩
  have hnum : ∀ {k : UInt64}, n.toNat = k.toNat → n = k := fun hk => UInt64.toNat_inj.mp hk
  by_cases hlt : n.toNat < 10
  · left
    -- the type is a machine word, so its ten values are told apart as numbers
    have hcases : n.toNat = 0 ∨ n.toNat = 1 ∨ n.toNat = 2 ∨ n.toNat = 3 ∨ n.toNat = 4 ∨
        n.toNat = 5 ∨ n.toNat = 6 ∨ n.toNat = 7 ∨ n.toNat = 8 ∨ n.toNat = 9 := by omega
    rcases hcases with hk | hk | hk | hk | hk | hk | hk | hk | hk | hk
    · exact harm (hnum (k := 0) hk ▸ synchronize_arm) hP.synchronize
    · exact harm (hnum (k := 1) hk ▸ request_arm) hP.request
    · exact harm (hnum (k := 2) hk ▸ cancel_arm) hP.cancel
    · exact harm (hnum (k := 3) hk ▸ data_arm) hP.data
    · exact harm (hnum (k := 4) hk ▸ no_data_arm) hP.no_data
    · exact harm (hnum (k := 5) hk ▸ want_arm) hP.want
    · exact harm (hnum (k := 6) hk ▸ unwant_arm) hP.unwant
    · exact harm (hnum (k := 7) hk ▸ bitfield_arm) hP.bitfield
    · exact harm (hnum (k := 8) hk ▸ range_arm) hP.range
    · exact harm (hnum (k := 9) hk ▸ extension_arm) hP.extension
  · right
    rw [Message.decode, h, ok_bind]
    dsimp only
    split
    case h_11 => exact ⟨_, rfl⟩
    all_goals omega

/-- A message that was decoded: its type number, its payload, and the bytes between. The inverse
of reading by arms. -/
theorem Message.decode_inv {b rest : Bytes} {m : Message X}
    (h : Message.decode X b = .ok (m, rest)) :
    ∃ (α : Type) (c : Codec EncodingError α) (n : UInt64) (mk : α → Message X) (x : α)
      (rest₁ : Bytes), Arm c n mk ∧ P α c ∧ X.u64.decode b = .ok (n, rest₁) ∧
        c.decode rest₁ = .ok (x, rest) ∧ m = mk x := by
  obtain ⟨⟨n, rest₁⟩, hn, -⟩ := bind_eq_ok h
  rcases decode_cases hP hn with ⟨α, c, mk, harm, hc, hdec⟩ | ⟨e, hdec⟩
  · rw [hdec] at h
    obtain ⟨⟨x, rest₂⟩, hx, h⟩ := bind_eq_ok h
    obtain ⟨rfl, rfl⟩ := Prod.mk.inj (Except.ok.inj h)
    exact ⟨α, c, n, mk, x, rest₁, harm, hc, hn, hx, rfl⟩
  · rw [hdec] at h
    cases h

end

/-! ## One message -/

namespace Message.Arm

variable {α : Type} {c : Codec EncodingError α} {n : UInt64} {mk : α → Message X} {x : α}
  {nb xb : Bytes}

/-- What an arm writes: the number of the type, and the bytes of the payload, with nothing
between. -/
theorem emits (harm : Arm c n mk) (hn : X.u64.Emits n nb) (hx : c.Emits x xb) :
    (Message.codec X).Emits (mk x) (nb ++ xb) := by
  constructor
  · show (mk x).encoded_size = _
    rw [harm.size, hn.size, hx.size, List.length_append]
    rfl
  · show Writes (mk x).encode _
    rw [harm.encode]
    exact writes_bind hn.writes hx.writes

/-- What an arm reads: the number leads the decoder to this payload. -/
theorem reads (harm : Arm c n mk) (hn : Reads X.u64.decode nb n) (hx : Reads c.decode xb x) :
    Reads (Message.decode X) (nb ++ xb) (mk x) := by
  intro s
  rw [List.append_assoc, harm.decode _ _ (hn (xb ++ s)), decode_message, hx s]
  rfl

/-- So a payload that travels makes a message that does: it is written in some bytes and read
back from them. -/
theorem carries (harm : Arm c n mk) (hn : X.u64.Carries n nb) (hx : c.Carries x xb) :
    (Message.codec X).Carries (mk x) (nb ++ xb) :=
  (harm.emits hn.emits hx.emits).carries (harm.reads hn.reads hx.reads)

end Message.Arm

/-- A decoder that takes nothing could only ever return one value. That the types of the payloads
have two is what makes their encodings longer than nothing. -/
instance : Nontrivial Synchronize :=
  ⟨⟨0, 0, 0, true, true, true⟩, ⟨0, 0, 0, false, true, true⟩, by decide⟩

instance : Nontrivial (Request X) :=
  ⟨⟨0, 0, none, none, none, none, true, 0⟩, ⟨0, 0, none, none, none, none, false, 0⟩,
    fun h => Bool.noConfusion (congrArg Request.manifest h)⟩

instance : Nontrivial Close := ⟨⟨0⟩, ⟨1⟩, by decide⟩

instance : Nontrivial Cancel := ⟨⟨0⟩, ⟨1⟩, by decide⟩

instance : Nontrivial (Data X) :=
  ⟨⟨0, 0, none, none, none, none⟩, ⟨1, 0, none, none, none, none⟩,
    fun h => absurd (congrArg Data.request h) (show (0 : UInt64) ≠ 1 by decide)⟩

instance : Nontrivial NoData := ⟨⟨0⟩, ⟨1⟩, by decide⟩

instance : Nontrivial Want := ⟨⟨0, 0⟩, ⟨1, 0⟩, by decide⟩

instance : Nontrivial Unwant := ⟨⟨0, 0⟩, ⟨1, 0⟩, by decide⟩

instance : Nontrivial Bitfield := ⟨⟨0, .empty⟩, ⟨1, .empty⟩, by decide⟩

instance : Nontrivial Range := ⟨⟨true, 0, 0⟩, ⟨false, 0, 0⟩, by decide⟩

instance : Nontrivial Extension :=
  ⟨⟨⟨"", by decide⟩, .empty⟩, ⟨⟨"", by decide⟩, .singleton 0⟩, by decide⟩

/-- Every payload travels, and takes at least a byte, since its type has more than one value. -/
theorem payloads_travel (hX : X.Lawful) :
    Payloads X fun α c => c.RoundTrips ∧ Nontrivial α where
  synchronize := ⟨Synchronize.round_trips hX, inferInstance⟩
  request := ⟨Request.round_trips hX, inferInstance⟩
  cancel := ⟨Cancel.round_trips hX, inferInstance⟩
  data := ⟨Data.round_trips hX, inferInstance⟩
  no_data := ⟨NoData.round_trips hX, inferInstance⟩
  want := ⟨Want.round_trips hX, inferInstance⟩
  unwant := ⟨Unwant.round_trips hX, inferInstance⟩
  bitfield := ⟨Bitfield.round_trips hX, inferInstance⟩
  range := ⟨Range.round_trips hX, inferInstance⟩
  extension := ⟨Extension.round_trips hX, inferInstance⟩

/-- Every message that may share a frame travels, in at least two bytes. The decoder of a batch
refuses shorter ones, so this matters. -/
theorem message_travels (hX : X.Lawful) (m : Message X) (hm : m.is_data = true) :
    ∃ bs, (Message.codec X).Carries m bs ∧ 2 ≤ bs.length := by
  obtain ⟨α, c, n, mk, x, harm, ⟨hc, hα⟩, rfl⟩ := Message.of_data (payloads_travel hX) m hm
  obtain ⟨xb, hx⟩ := hc x
  refine ⟨[n.toUInt8] ++ xb, harm.carries (hX.u64_small n harm.small) hx, ?_⟩
  have hpos := hc.length_pos hx
  rw [List.length_append, List.length_singleton]
  omega

end hypercore_protocol.message
