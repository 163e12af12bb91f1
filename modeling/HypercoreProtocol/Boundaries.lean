/-
Declared lengths and message boundaries in a batch.

Every message of a batch stands behind its length. The decoder reads the length and
checks that so many bytes are left, but then it runs the message parser on all that
is left, and goes on where the parser stopped: the length is never compared with what
the parser took. So for bytes that come from anywhere the two may differ, and a
message may take bytes that belong to the next one without an error
(`overlapping_batch_accepted`).

`BatchItems` is a run of the loop with both numbers in it. `cut_frame` is what the lengths
are for: a parser that cuts a batch where they say, gives each slice to the message parser
and wants all of it used. It is written for this comparison and is no part of the crate.
The boundaries of an accepted batch are exact just when this parser accepts the same bytes,
and then it finds the same messages; every batch that the encoder writes for one channel it
accepts.

The equivalence needs that a parser decides by the bytes it takes (`Local`), which is
assumed of the other crates' decoders as `Deps.LocalDecoders`.
-/
import HypercoreProtocol.Decoding
import HypercoreProtocol.FrameSpec

set_option autoImplicit false
-- the source has a field `message` in its module `message`
set_option linter.dupNamespace false

namespace hypercore_protocol

open Rust Wire

/-- What is assumed of the decoders of other crates: each looks at nothing but the bytes
it takes. -/
structure Deps.LocalDecoders (X : Deps) : Prop where
  request_block : Local X.request_block.decode
  request_seek : Local X.request_seek.decode
  request_upgrade : Local X.request_upgrade.decode
  data_block : Local X.data_block.decode
  data_hash : Local X.data_hash.decode
  data_seek : Local X.data_seek.decode
  data_upgrade : Local X.data_upgrade.decode
  u64 : Local X.u64.decode
  string : Local X.string.decode
  vec_u8 : Local X.vec_u8.decode
  vec_u32 : Local X.vec_u32.decode
  take_array : ∀ n, Local (X.take_array n)

namespace compact_encoding

theorem vec_u8_code_local : Local vec_u8_code.dec := Code.vec_local _ (Code.u8_local _)

theorem string_code_local : Local string_code.dec := by
  refine vec_u8_code_local.bind fun v => ?_
  dsimp only
  cases from_utf8 v with
  | none => exact local_throw _
  | some s => exact local_pure s

theorem nodes_code_local : Local nodes_code.dec :=
  Code.vec_local _ (Code.pair_local (varint_dec_local _)
    (Code.pair_local (varint_dec_local _) (take_bytes_local _ 32)))

/-- The crates as they are written out here meet the assumption: none of their decoders looks
beyond what it takes. -/
theorem deps_local : deps.LocalDecoders :=
  have hu64 : Local u64_code.dec := varint_dec_local _
  have hnodes := nodes_code_local
  have hbytes := vec_u8_code_local
  { request_block := Code.pair_local hu64 hu64
    request_seek := hu64
    request_upgrade := Code.pair_local hu64 hu64
    data_block := Code.pair_local hu64 (Code.pair_local hbytes hnodes)
    data_hash := Code.pair_local hu64 hnodes
    data_seek := Code.pair_local hu64 hnodes
    data_upgrade := Code.pair_local hu64 (Code.pair_local hu64
      (Code.pair_local hnodes (Code.pair_local hnodes hbytes)))
    u64 := hu64
    string := string_code_local
    vec_u8 := hbytes
    vec_u32 := Code.vec_local _ (Code.u32_local _)
    take_array := fun n => take_bytes_local _ n }

end compact_encoding

variable {X : Deps}

namespace message

open schema

/-! ## The message parsers look at what they take -/

section

variable (hL : X.LocalDecoders)
include hL

theorem payloads_local : Payloads X fun _ c => Local c.decode where
  synchronize := (hL.take_array 1).bind fun _ => hL.u64.bind fun _ => hL.u64.bind fun _ =>
    hL.u64.bind fun _ => local_pure _
  request := (hL.take_array 1).bind fun _ => hL.u64.bind fun id => hL.u64.bind fun fork =>
    (hL.request_block.option _).bind fun block => (hL.request_block.option _).bind fun hash =>
    (hL.request_seek.option _).bind fun seek => (hL.request_upgrade.option _).bind fun upgrade =>
    (hL.u64.bind fun priority =>
      local_pure (⟨id, fork, block, hash, seek, upgrade, _, priority⟩ : Request X)).ite
      (local_pure (⟨id, fork, block, hash, seek, upgrade, _, 0⟩ : Request X)) _
  cancel := hL.u64.under _ _
  data := (hL.take_array 1).bind fun _ => hL.u64.bind fun _ => hL.u64.bind fun _ =>
    (hL.data_block.option _).bind fun _ => (hL.data_hash.option _).bind fun _ =>
    (hL.data_seek.option _).bind fun _ => (hL.data_upgrade.option _).bind fun _ => local_pure _
  no_data := hL.u64.under _ _
  want := (hL.u64.pair hL.u64).under _ _
  unwant := (hL.u64.pair hL.u64).under _ _
  bitfield := (hL.u64.pair hL.vec_u32).under _ _
  range := (hL.take_array 1).bind fun _ => hL.u64.bind fun start =>
    (local_pure (⟨_, start, 1⟩ : Range)).ite
      (hL.u64.bind fun length => local_pure (⟨_, start, length⟩ : Range)) _
  extension := (hL.string.pair hL.vec_u8).under _ _

theorem Message.decode_local : Local (Message.decode X) := by
  intro b m rest h
  obtain ⟨α, c, n, mk, x, rest₁, harm, hc, hn, hx, rfl⟩ :=
    Message.decode_inv (payloads_local hL) h
  obtain ⟨t₁, rfl, h₁⟩ := hL.u64 _ _ _ hn
  obtain ⟨t₂, rfl, h₂⟩ := hc _ _ _ hx
  exact ⟨t₁ ++ t₂, (List.append_assoc _ _ _).symm, harm.reads h₁ h₂⟩

end

/-! ## The run of the loop -/

/-- One turn of the loop over a batch: the length that was read, what the message parser
was given, the message, and what the parser left. -/
structure Item (X : Deps) where
  declared : ℕ
  input : Bytes
  message : ChannelMessage X
  left : Bytes

/-- The parser took as many bytes as the length says. What is left over or taken too much would
belong to a neighbour. -/
def Item.Exact (item : Item X) : Prop := item.input.length = item.declared + item.left.length

/-- How the loop goes on after a message that left `buf`: a byte `0x00` there means that a
channel number follows, otherwise the channel stays. -/
inductive Continues (X : Deps) (channel : UInt64) (buf : Bytes) : UInt64 → Bytes → Prop where
  | same (h : buf.head? ≠ some 0) : Continues X channel buf channel buf
  | change {channel' : UInt64} {buf' : Bytes} (h : buf.head? = some 0)
    (hchannel : X.u64.decode buf = .ok (channel', buf')) : Continues X channel buf channel' buf'

theorem Continues.unique {channel c₁ c₂ : UInt64} {buf b₁ b₂ : Bytes}
    (h₁ : Continues X channel buf c₁ b₁) (h₂ : Continues X channel buf c₂ b₂) :
    c₁ = c₂ ∧ b₁ = b₂ := by
  cases h₁ with
  | same h =>
    cases h₂ with
    | same => exact ⟨rfl, rfl⟩
    | change h' => exact absurd h' h
  | change h hc =>
    cases h₂ with
    | same h' => exact absurd h h'
    | change h' hc' =>
      rw [hc] at hc'
      exact Prod.mk.inj (Except.ok.inj hc')

/-- The turns of the loop over the batch `buf`, whose first channel is `channel`, one for each
message and in order. -/
inductive BatchItems (X : Deps) : UInt64 → Bytes → List (Item X) → Prop where
  | done (channel : UInt64) : BatchItems X channel [] []
  | turn {channel channel' : UInt64} {n : ℕ} {buf buf₁ buf₂ buf₃ : Bytes}
    {msg : ChannelMessage X} {items : List (Item X)} (hne : buf ≠ [])
    (hlength : X.decode_usize buf = .ok (n, buf₁)) (hfits : n ≤ buf₁.length)
    (hmsg : ChannelMessage.decode_with_channel X buf₁ channel = .ok (msg, buf₂))
    (hnext : Continues X channel buf₂ channel' buf₃) (h : BatchItems X channel' buf₃ items) :
      BatchItems X channel buf (⟨n, buf₁, msg, buf₂⟩ :: items)

theorem decode_batch_loop_done {og_len fuel : ℕ} {channel : UInt64} {rest : Bytes}
    {messages out : List (ChannelMessage X)}
    (h : decode_batch_loop X og_len fuel channel [] messages = .ok (out, rest)) :
    ∃ items, BatchItems X channel [] items ∧ out = messages ++ items.map Item.message ∧
      items.length ≤ fuel := by
  rw [decode_batch_loop.eq_def, if_pos List.isEmpty_nil] at h
  obtain ⟨rfl, -⟩ := Prod.mk.inj (Except.ok.inj h)
  exact ⟨[], .done channel, (List.append_nil _).symm, Nat.zero_le _⟩

/-- A run of the loop that succeeded, turn by turn. There are no more turns than there was
fuel. -/
theorem decode_batch_loop_items {og_len fuel : ℕ} {channel : UInt64} {buf rest : Bytes}
    {messages out : List (ChannelMessage X)}
    (h : decode_batch_loop X og_len fuel channel buf messages = .ok (out, rest)) :
    ∃ items, BatchItems X channel buf items ∧ out = messages ++ items.map Item.message ∧
      items.length ≤ fuel := by
  induction fuel generalizing channel buf messages with
  -- out of fuel with bytes left is an error, so the batch was at its end
  | zero =>
    by_cases hempty : buf = []
    · subst hempty
      exact decode_batch_loop_done h
    · rw [decode_batch_loop, if_neg fun h => hempty (List.isEmpty_iff.mp h)] at h
      cases h
  | succ fuel ih =>
    by_cases hempty : buf = []
    · subst hempty
      exact decode_batch_loop_done h
    rw [decode_batch_loop, if_neg fun h => hempty (List.isEmpty_iff.mp h)] at h
    obtain ⟨⟨n, buf₁⟩, hlength, h⟩ := bind_eq_ok h
    dsimp only at h
    split at h
    · cases h
    rename_i hfits
    obtain ⟨⟨msg, buf₂⟩, hmsg, h⟩ := bind_eq_ok h
    dsimp only at h
    -- the byte behind a message decides whether the channel changes
    obtain ⟨channel', buf₃, hnext, h⟩ : ∃ channel' buf₃, Continues X channel buf₂ channel' buf₃ ∧
        decode_batch_loop X og_len fuel channel' buf₃ (messages ++ [msg]) = .ok (out, rest) := by
      split at h
      · rename_i hchange
        obtain ⟨⟨channel', buf₃⟩, hchannel, h⟩ := bind_eq_ok h
        exact ⟨channel', buf₃, .change hchange (map_err_eq_ok hchannel), h⟩
      · exact ⟨channel, buf₂, .same ‹_›, h⟩
    obtain ⟨items, hitems, rfl, hfuel⟩ := ih h
    exact ⟨_ :: items, .turn hempty (map_err_eq_ok hlength) (Nat.not_lt.mp hfits) hmsg hnext hitems,
      List.append_assoc _ _ _, Nat.succ_le_succ hfuel⟩

/-! ## A batch cut by its lengths -/

/-- How the loop goes on, as a function: with the same channel, or with the one that is read
behind a byte `0x00`. -/
def next_channel (X : Deps) (channel : UInt64) (buf : Bytes) : Option (UInt64 × Bytes) :=
  if buf.head? = some 0 then (X.u64.decode buf).toOption else some (channel, buf)

theorem continues_iff {channel channel' : UInt64} {buf buf' : Bytes} :
    Continues X channel buf channel' buf' ↔ next_channel X channel buf = some (channel', buf') := by
  rw [next_channel]
  split
  · rename_i h
    constructor
    · rintro (h' | ⟨-, hchannel⟩)
      · exact absurd h h'
      · rw [hchannel]
        rfl
    · intro hopt
      refine .change h ?_
      cases hdec : X.u64.decode buf with
      | ok x =>
        rw [hdec] at hopt
        exact congrArg Except.ok (Option.some.inj hopt)
      | error e =>
        rw [hdec] at hopt
        cases hopt
  · rename_i h
    constructor
    · rintro (- | ⟨h', -⟩)
      · rfl
      · exact absurd h' h
    · intro hopt
      obtain ⟨rfl, rfl⟩ := Prod.mk.inj (Option.some.inj hopt)
      exact .same h

/-- The message of a slice, when the message parser uses all of it, and none if something of the
slice is left. -/
def whole_message (X : Deps) (slice : Bytes) : Option (Message X) :=
  match Message.decode X slice with
  | .ok (message, []) => some message
  | _ => none

theorem whole_message_eq_some {slice : Bytes} {message : Message X} :
    whole_message X slice = some message ↔ Message.decode X slice = .ok (message, []) := by
  rw [whole_message]
  split
  · rename_i m hdec
    rw [hdec]
    exact ⟨fun h => by rw [Option.some.inj h], fun h => by rw [(Prod.mk.inj (Except.ok.inj h)).1]⟩
  · rename_i hno
    exact ⟨fun h => (by cases h), fun h => absurd h (hno message)⟩

/-- **The cutting parser.** A batch is cut where its lengths say. Each slice is the message
with its length, to the last byte of it, and the next one begins where the slice ends. -/
def cut_batch (X : Deps) (fuel : ℕ) (channel : UInt64) (buf : Bytes) :
    Option (List (ChannelMessage X)) :=
  if buf.isEmpty then some []
  else match fuel with
    | 0 => none
    | fuel + 1 => do
      let (n, buf) ← (X.decode_usize buf).toOption
      if n ≤ buf.length then
        let message ← whole_message X (buf.take n)
        let (channel', buf) ← next_channel X channel (buf.drop n)
        let msgs ← cut_batch X fuel channel' buf
        return ⟨channel, message⟩ :: msgs
      else none

/-- A batch with its prefix and first channel number, cut where its lengths say. Nothing here
looks at what the decoder of the crate finds. -/
def cut_frame (X : Deps) (buf : Bytes) : Option (List (ChannelMessage X)) := do
  let (_, buf) ← (X.take_array 2 buf).toOption
  let (channel, body) ← (X.u64.decode buf).toOption
  cut_batch X body.length channel body

theorem toOption_eq_some {ε α : Type} {r : Res ε α} {x : α} :
    r.toOption = some x ↔ r = .ok x := by
  cases r with
  | ok y => exact ⟨fun h => congrArg Except.ok (Option.some.inj h),
      fun h => congrArg some (Except.ok.inj h)⟩
  | error e => exact ⟨fun h => (by cases h), fun h => (by cases h)⟩

/-- One cut: the length, the slice, the message in it, and how it goes on. The definition, read
as an equivalence. -/
theorem cut_batch_eq_some {fuel : ℕ} {channel : UInt64} {buf : Bytes}
    {msgs : List (ChannelMessage X)} (hne : buf ≠ []) :
    cut_batch X (fuel + 1) channel buf = some msgs ↔
      ∃ slice behind message channel' buf' more,
        X.decode_usize buf = .ok (slice.length, slice ++ behind) ∧
        Message.decode X slice = .ok (message, []) ∧ Continues X channel behind channel' buf' ∧
        cut_batch X fuel channel' buf' = some more ∧ msgs = ⟨channel, message⟩ :: more := by
  rw [cut_batch, if_neg fun h => hne (List.isEmpty_iff.mp h)]
  simp only [Option.bind_eq_bind, Option.bind_eq_some_iff, Prod.exists, toOption_eq_some]
  constructor
  · rintro ⟨n, rest, hlength, h⟩
    split at h
    · rename_i hfits
      simp only [Option.bind_eq_some_iff, Prod.exists] at h
      obtain ⟨message, hmsg, channel', buf', hnext, more, hmore, h⟩ := h
      refine ⟨rest.take n, rest.drop n, message, channel', buf', more, ?_,
        whole_message_eq_some.mp hmsg, continues_iff.mpr hnext, hmore, (Option.some.inj h).symm⟩
      rw [hlength, List.take_append_drop, List.length_take_of_le hfits]
    · cases h
  · rintro ⟨slice, behind, message, channel', buf', more, hlength, hmsg, hnext, hmore, rfl⟩
    refine ⟨_, _, hlength, ?_⟩
    rw [if_pos (by rw [List.length_append]; exact Nat.le_add_right _ _), List.take_left,
      List.drop_left, whole_message_eq_some.mpr hmsg, continues_iff.mp hnext]
    simp only [Option.bind_some, hmore]
    rfl

theorem cut_batch_nil (fuel : ℕ) (channel : UInt64) : cut_batch X fuel channel [] = some [] := by
  rw [cut_batch.eq_def, if_pos List.isEmpty_nil]

theorem decode_with_channel_inv {buf rest : Bytes} {channel : UInt64} {msg : ChannelMessage X}
    (h : ChannelMessage.decode_with_channel X buf channel = .ok (msg, rest)) :
    ∃ message, msg = ⟨channel, message⟩ ∧ Message.decode X buf = .ok (message, rest) := by
  rw [ChannelMessage.decode_with_channel] at h
  split at h
  · cases h
  · obtain ⟨⟨message, rest'⟩, hmsg, h⟩ := bind_eq_ok h
    obtain ⟨rfl, rfl⟩ := Prod.mk.inj (Except.ok.inj h)
    exact ⟨message, rfl, map_err_eq_ok hmsg⟩

section

variable (hL : X.LocalDecoders)
include hL

/-- Turns that took what was declared are cuts: the bytes a message took are the message,
whatever stood behind them. -/
theorem BatchItems.cut {channel : UInt64} {buf : Bytes} {items : List (Item X)}
    (h : BatchItems X channel buf items) (hexact : ∀ item ∈ items, item.Exact) {fuel : ℕ}
    (hfuel : items.length ≤ fuel) :
    cut_batch X fuel channel buf = some (items.map Item.message) := by
  induction h generalizing fuel with
  | done channel => exact cut_batch_nil fuel channel
  | @turn channel channel' n buf buf₁ buf₂ buf₃ msg items hne hlength hfits hmsg hnext h ih =>
    obtain ⟨message, rfl, hdec⟩ := decode_with_channel_inv hmsg
    obtain ⟨slice, rfl, hreads⟩ := Message.decode_local hL _ _ _ hdec
    have hslice : (slice ++ buf₂).length = n + buf₂.length := hexact _ List.mem_cons_self
    rw [List.length_append] at hslice
    obtain rfl : slice.length = n := by omega
    have hall := hreads []
    rw [List.append_nil] at hall
    obtain ⟨k, rfl⟩ : ∃ k, fuel = k + 1 := ⟨fuel - 1, by rw [List.length_cons] at hfuel; omega⟩
    exact (cut_batch_eq_some hne).mpr ⟨slice, buf₂, message, channel', buf₃, _, hlength, hall,
      hnext, ih (fun item hitem => hexact item (List.mem_cons_of_mem _ hitem))
        (Nat.le_of_succ_le_succ hfuel), rfl⟩

/-- And where a batch can be cut, every turn takes a slice and stops at its end, so that the
loop finds the same messages. -/
theorem BatchItems.exact {channel : UInt64} {buf : Bytes} {items : List (Item X)}
    {msgs : List (ChannelMessage X)} {fuel : ℕ} (h : BatchItems X channel buf items)
    (hcut : cut_batch X fuel channel buf = some msgs) :
    (∀ item ∈ items, item.Exact) ∧ msgs = items.map Item.message := by
  induction h generalizing fuel msgs with
  | done channel =>
    rw [cut_batch_nil] at hcut
    exact ⟨fun item hitem => absurd hitem List.not_mem_nil, (Option.some.inj hcut).symm⟩
  | @turn channel channel' n buf buf₁ buf₂ buf₃ msg items hne hlength hfits hmsg hnext h ih =>
    cases fuel with
    | zero =>
      rw [cut_batch, if_neg fun h => hne (List.isEmpty_iff.mp h)] at hcut
      cases hcut
    | succ fuel =>
      obtain ⟨slice, behind, message, c, buf', more, hlength', hdec, hnext', hmore, rfl⟩ :=
        (cut_batch_eq_some hne).mp hcut
      rw [hlength, Except.ok.injEq, Prod.mk.injEq] at hlength'
      obtain ⟨rfl, rfl⟩ := hlength'
      obtain ⟨message', rfl, hmsg'⟩ := decode_with_channel_inv hmsg
      rw [(Message.decode_local hL).reads hdec behind, Except.ok.injEq, Prod.mk.injEq] at hmsg'
      obtain ⟨rfl, rfl⟩ := hmsg'
      obtain ⟨rfl, rfl⟩ := hnext.unique hnext'
      obtain ⟨hexact, rfl⟩ := ih hmore
      refine ⟨fun item hitem => ?_, rfl⟩
      rcases List.mem_cons.mp hitem with rfl | hitem
      · exact List.length_append
      · exact hexact item hitem

end

/-! ## Frames -/

/-- The turns of the decoder on a batch with its prefix and first channel number, of which there
is enough fuel for all. -/
def FrameItems (X : Deps) (buf : Bytes) (items : List (Item X)) : Prop :=
  ∃ tag buf₁ channel body, X.take_array 2 buf = .ok (tag, buf₁) ∧
    X.u64.decode buf₁ = .ok (channel, body) ∧ BatchItems X channel body items ∧
    items.length ≤ body.length

/-- A batch that was accepted went through the loop, and its messages are those of the turns. -/
theorem decode_unframed_items {b : Bytes} {msgs : List (ChannelMessage X)} {n : ℕ} (hb : b ≠ [])
    (h : decode_unframed_channel_messages X (MULTI_MESSAGE_PREFIX ++ b) = .ok (msgs, n)) :
    ∃ items, FrameItems X (MULTI_MESSAGE_PREFIX ++ b) items ∧ msgs = items.map Item.message := by
  have hlong : (MULTI_MESSAGE_PREFIX ++ b).length ≥ 3 := by
    have hpos := List.length_pos_iff.mpr hb
    rw [List.length_append]
    show 2 + b.length ≥ 3
    omega
  have hkind : (index (MULTI_MESSAGE_PREFIX ++ b) 1 : Res IoError UInt8) = .ok 0 := rfl
  have hbatch : ((0 : UInt8) == 0) = true := rfl
  rw [decode_unframed_channel_messages, if_pos ⟨hlong, rfl⟩, hkind, ok_bind, if_pos hbatch] at h
  obtain ⟨⟨tag, buf₁⟩, htag, h⟩ := bind_eq_ok h
  obtain ⟨⟨channel, body⟩, hchannel, h⟩ := bind_eq_ok h
  obtain ⟨⟨out, rest⟩, hloop, h⟩ := bind_eq_ok h
  obtain ⟨rfl, -⟩ := Prod.mk.inj (Except.ok.inj h)
  obtain ⟨items, hitems, rfl, hfuel⟩ := decode_batch_loop_items hloop
  exact ⟨items, ⟨tag, buf₁, channel, body, map_err_eq_ok htag, map_err_eq_ok hchannel, hitems,
    hfuel⟩, List.nil_append _⟩

/-- Where the head of a batch is read, cutting the frame is cutting its body. The two parsers
read the head in the same way. -/
theorem cut_frame_eq {buf buf₁ body : Bytes} {tag : U8Array 2} {channel : UInt64}
    (htag : X.take_array 2 buf = .ok (tag, buf₁))
    (hchannel : X.u64.decode buf₁ = .ok (channel, body)) :
    cut_frame X buf = cut_batch X body.length channel body := by
  rw [cut_frame, htag]
  show (X.u64.decode buf₁).toOption.bind _ = _
  rw [hchannel]
  rfl

theorem FrameItems.exact_iff (hL : X.LocalDecoders) {buf : Bytes} {items : List (Item X)}
    (h : FrameItems X buf items) :
    ((∀ item ∈ items, item.Exact) ↔ (cut_frame X buf).isSome = true) ∧
      ∀ msgs, cut_frame X buf = some msgs → msgs = items.map Item.message := by
  obtain ⟨tag, buf₁, channel, body, htag, hchannel, hitems, hfuel⟩ := h
  rw [cut_frame_eq htag hchannel]
  refine ⟨⟨fun hexact => ?_, fun hcut => ?_⟩, fun msgs hcut => (hitems.exact hL hcut).2⟩
  · rw [hitems.cut hL hexact hfuel]
    rfl
  · obtain ⟨msgs, hcut⟩ := Option.isSome_iff_exists.mp hcut
    exact (hitems.exact hL hcut).1

/-- What the encoder writes for one channel can be cut: each length is the length of the
message behind it, and no length is the byte `0x00`. -/
theorem BatchWire.cut (hX : X.Lawful) {c : UInt64} {ms : List (ChannelMessage X)}
    {bs : Bytes} (h : BatchWire c ms bs) (hsame : ∀ m ∈ ms, m.channel = c)
    (hfit : bs.length < 2 ^ 64) {fuel : ℕ} (hfuel : bs.length ≤ fuel) :
    cut_batch X fuel c bs = some ms := by
  induction h generalizing fuel with
  | nil c => exact cut_batch_nil fuel c
  | @same m ms mb lb bs hm hl h ih =>
    obtain ⟨hm, hm₂⟩ := hm
    simp only [List.length_append] at hfit hfuel
    have hmb : mb.length < 2 ^ 64 := by omega
    have htail : ∀ m' ∈ ms, m'.channel = m.channel := fun m' hm' =>
      hsame m' (List.mem_cons_of_mem m hm')
    have hlength : X.decode_usize (lb ++ (mb ++ bs)) = .ok (mb.length, mb ++ bs) := by
      rw [hX.decode_usize _ _ hl (mb ++ bs), UInt64.toNat_ofNat_of_lt' hmb]
    have hmsg : Message.decode X mb = .ok (m.message, []) := by
      have hread := hm.reads []
      rwa [List.append_nil] at hread
    have hhead : bs.head? ≠ some 0 :=
      BatchWire.head_ne_zero hX h (by omega) fun m' hm' => htail m' (List.mem_of_mem_head? hm')
    have hne : lb ++ (mb ++ bs) ≠ [] := by
      intro hnil
      have hnone := congrArg List.length hnil
      simp only [List.length_append, List.length_nil] at hnone
      omega
    obtain ⟨k, rfl⟩ : ∃ k, fuel = k + 1 := ⟨fuel - 1, by omega⟩
    exact (cut_batch_eq_some hne).mpr ⟨mb, bs, m.message, m.channel, bs, ms, hlength, hmsg,
      .same hhead, ih htail (by omega) (by omega), rfl⟩
  | switch hc => exact absurd (hsame _ List.mem_cons_self) hc

/-- Boundaries are exact just where a batch can be cut by its lengths. An accepted batch is
a run of turns, one for each message; every turn took exactly the declared number of bytes
if and only if the cutting parser accepts the batch too, and then it finds the same
messages. The batches this crate's encoder writes for one channel are of this kind. -/
theorem declared_lengths_exact_iff (hL : X.LocalDecoders) :
    (∀ (b : Bytes) (msgs : List (ChannelMessage X)) (n : ℕ), b ≠ [] →
      decode_unframed_channel_messages X (MULTI_MESSAGE_PREFIX ++ b) = .ok (msgs, n) →
        ∃ items, FrameItems X (MULTI_MESSAGE_PREFIX ++ b) items ∧
          msgs = items.map Item.message ∧
          ((∀ item ∈ items, item.Exact) ↔
            (cut_frame X (MULTI_MESSAGE_PREFIX ++ b)).isSome = true) ∧
          ∀ msgs', cut_frame X (MULTI_MESSAGE_PREFIX ++ b) = some msgs' → msgs' = msgs) ∧
    (X.Lawful → ∀ (c : UInt64) (L : List (ChannelMessage X)) (b : Bytes), 2 ≤ L.length →
      (∀ m ∈ L, m.message.is_data = true) → (∀ m ∈ L, m.channel = c) →
        to_encoded_bytes L = .ok b → cut_frame X b = some L) := by
  constructor
  · intro b msgs n hb hdec
    obtain ⟨items, hitems, rfl⟩ := decode_unframed_items hb hdec
    exact ⟨items, hitems, rfl, hitems.exact_iff hL⟩
  · intro hX c L b h₂ hdata hsame hb
    obtain ⟨c', cb, body, hhead, hcb, hbody, hwire⟩ := batch_frame_travels hX L h₂ hdata
    obtain ⟨m, ms, rfl⟩ := List.exists_cons_of_length_pos (Nat.lt_of_lt_of_le Nat.two_pos h₂)
    obtain rfl : c' = c := (hhead m rfl).symm.trans (hsame m List.mem_cons_self)
    obtain ⟨rfl, hle⟩ := (hwire.to_encoded_bytes_iff hX b).mp hb
    -- the frame was allocated, so its body is shorter than any length can say
    have hfit : body.length < 2 ^ 64 := by
      simp only [List.length_append] at hle
      exact Nat.lt_of_le_of_lt (Nat.le_trans (by omega) hle) (by decide)
    have htake : X.take_array 2 (MULTI_MESSAGE_PREFIX ++ (cb ++ body))
        = .ok (⟨MULTI_MESSAGE_PREFIX, rfl⟩, cb ++ body) :=
      hX.take_array 2 _ (by rw [List.length_append]; exact Nat.le_add_right 2 _)
    rw [cut_frame_eq htake (hcb.reads body)]
    exact BatchWire.cut hX hbody hsame hfit (Nat.le_refl _)

/-- Two cancellations on channel 1, with their lengths. -/
theorem declared_lengths_exact_iff_cancels :
    cut_frame compact_encoding.deps [0, 0, 1, 2, 2, 5, 2, 2, 9] =
      some [⟨1, .Cancel ⟨5⟩⟩, ⟨1, .Cancel ⟨9⟩⟩] :=
  (declared_lengths_exact_iff compact_encoding.deps_local).2 compact_encoding.deps_lawful 1 _ _
    (by decide) (by simp [Message.is_data]) (by simp) rfl

/-- The first message declares one byte, its type alone, and takes a second one: the byte
that by its own length is where the next message begins. The batch is accepted. -/
theorem overlapping_batch_accepted :
    decode_unframed_channel_messages compact_encoding.deps [0, 0, 1, 1, 2, 2, 2, 2, 9]
        = .ok ([⟨1, .Cancel ⟨2⟩⟩, ⟨1, .Cancel ⟨9⟩⟩], 9) ∧
      ∃ items, FrameItems compact_encoding.deps [0, 0, 1, 1, 2, 2, 2, 2, 9] items ∧
        items.map Item.message = [⟨1, .Cancel ⟨2⟩⟩, ⟨1, .Cancel ⟨9⟩⟩] ∧
        items.map Item.declared = [1, 2] ∧ ¬ ∀ item ∈ items, item.Exact := by
  refine ⟨rfl, [⟨1, [2, 2, 2, 2, 9], ⟨1, .Cancel ⟨2⟩⟩, [2, 2, 9]⟩,
    ⟨2, [2, 9], ⟨1, .Cancel ⟨9⟩⟩, []⟩], ⟨⟨[0, 0], rfl⟩, [1, 1, 2, 2, 2, 2, 9], 1,
    [1, 2, 2, 2, 2, 9], rfl, rfl, ?_, by decide⟩, rfl, rfl, ?_⟩
  · exact .turn (List.cons_ne_nil _ _) rfl (by decide) rfl (.same (by decide))
      (.turn (List.cons_ne_nil _ _) rfl (by decide) rfl (.same (by decide)) (.done 1))
  · intro h
    have hfirst := h _ List.mem_cons_self
    exact absurd hfirst (by simp [Item.Exact])

end message

end hypercore_protocol
