/-
Decoding on bytes from anywhere.

`SchemaSpec` and `FrameSpec` are about bytes that were encoded. Here the input is any
string of bytes, which is what a remote can send. Assumed of the crates is only what
their decoders leave when they succeed (`Deps.Shortens`). A decoder of another crate may
return an error, and it may also panic: the one for a vector asks for as much memory as
the length in front of it says, before it has looked at a single element, and a remote
can write any length (`vec_decode_panics`). So the decoder of a transport message is not
total, and what is proved of it is that nothing in this crate adds to that. Each round of
its two loops takes at least one byte off, the length that
`decode_unframed_channel_messages` reports is the number of bytes that were parsed
(`ParsesFrame`), whichever of its three ways of counting it took, so that every slice is
in bounds; and a call that does not come back is stuck in a decoder of another crate
(`Deps.Aborts`).
-/
import HypercoreProtocol.Message
import HypercoreProtocol.CompactEncoding
import HypercoreProtocol.Lib.Decoder

set_option autoImplicit false

namespace hypercore_protocol

open Rust Wire

/-- What is assumed of the decoders of other crates on arbitrary input: on success they
return a suffix of it, strictly shorter for integers and for arrays that are not empty.
What they do when they do not succeed is left open, panics included. -/
structure Deps.Shortens (X : Deps) : Prop where
  request_block : Wire.Shortens 0 X.request_block.decode
  request_seek : Wire.Shortens 0 X.request_seek.decode
  request_upgrade : Wire.Shortens 0 X.request_upgrade.decode
  data_block : Wire.Shortens 0 X.data_block.decode
  data_hash : Wire.Shortens 0 X.data_hash.decode
  data_seek : Wire.Shortens 0 X.data_seek.decode
  data_upgrade : Wire.Shortens 0 X.data_upgrade.decode
  u64 : Wire.Shortens 1 X.u64.decode
  string : Wire.Shortens 0 X.string.decode
  vec_u8 : Wire.Shortens 0 X.vec_u8.decode
  vec_u32 : Wire.Shortens 0 X.vec_u32.decode
  decode_usize : Wire.Shortens 1 X.decode_usize
  take_array : ∀ n, 0 < n → Wire.Shortens 1 (X.take_array n)

/-- A decoder of another crate, called on `b`, does not come back: one constructor for each of
them that the sources call. Nothing is assumed about when this happens. -/
inductive Deps.Aborts (X : Deps) (b : Bytes) (a : Abort) : Prop where
  | request_block (h : X.request_block.decode b = .error a.fault)
  | request_seek (h : X.request_seek.decode b = .error a.fault)
  | request_upgrade (h : X.request_upgrade.decode b = .error a.fault)
  | data_block (h : X.data_block.decode b = .error a.fault)
  | data_hash (h : X.data_hash.decode b = .error a.fault)
  | data_seek (h : X.data_seek.decode b = .error a.fault)
  | data_upgrade (h : X.data_upgrade.decode b = .error a.fault)
  | u64 (h : X.u64.decode b = .error a.fault)
  | string (h : X.string.decode b = .error a.fault)
  | vec_u8 (h : X.vec_u8.decode b = .error a.fault)
  | vec_u32 (h : X.vec_u32.decode b = .error a.fault)
  | decode_usize (h : X.decode_usize b = .error a.fault)
  | take_array (n : ℕ) (h : X.take_array n b = .error a.fault)

/-- The assumption as the proofs use it: the decoders end, and a call of one that does not
come back is its own cause. -/
structure Deps.Consuming (X : Deps) : Prop where
  request_block : Consumes X.Aborts 0 X.request_block.decode
  request_seek : Consumes X.Aborts 0 X.request_seek.decode
  request_upgrade : Consumes X.Aborts 0 X.request_upgrade.decode
  data_block : Consumes X.Aborts 0 X.data_block.decode
  data_hash : Consumes X.Aborts 0 X.data_hash.decode
  data_seek : Consumes X.Aborts 0 X.data_seek.decode
  data_upgrade : Consumes X.Aborts 0 X.data_upgrade.decode
  u64 : Consumes X.Aborts 1 X.u64.decode
  string : Consumes X.Aborts 0 X.string.decode
  vec_u8 : Consumes X.Aborts 0 X.vec_u8.decode
  vec_u32 : Consumes X.Aborts 0 X.vec_u32.decode
  decode_usize : Consumes X.Aborts 1 X.decode_usize
  take_array : ∀ n, 0 < n → Consumes X.Aborts 1 (X.take_array n)

theorem Deps.Shortens.consuming {X : Deps} (hX : X.Shortens) : X.Consuming where
  request_block := hX.request_block.consumes fun _ _ => .request_block
  request_seek := hX.request_seek.consumes fun _ _ => .request_seek
  request_upgrade := hX.request_upgrade.consumes fun _ _ => .request_upgrade
  data_block := hX.data_block.consumes fun _ _ => .data_block
  data_hash := hX.data_hash.consumes fun _ _ => .data_hash
  data_seek := hX.data_seek.consumes fun _ _ => .data_seek
  data_upgrade := hX.data_upgrade.consumes fun _ _ => .data_upgrade
  u64 := hX.u64.consumes fun _ _ => .u64
  string := hX.string.consumes fun _ _ => .string
  vec_u8 := hX.vec_u8.consumes fun _ _ => .vec_u8
  vec_u32 := hX.vec_u32.consumes fun _ _ => .vec_u32
  decode_usize := hX.decode_usize.consumes fun _ _ => .decode_usize
  take_array n hn := (hX.take_array n hn).consumes fun _ _ => .take_array n

namespace compact_encoding

variable {F : Bytes → Abort → Prop}

/-- A string takes its bytes, also if they turn out to be no UTF-8. Then it fails, but only after
it has taken them. -/
theorem string_code_consumes : Consumes F 0 string_code.dec := by
  intro b
  refine (Code.vec_consumes out_of_bounds (Code.u8_consumes _) b).bind (k := 0) fun v rest => ?_
  dsimp only
  split
  · exact ends_pure _ rest
  · exact ends_throw _

theorem u64_code_consumes : Consumes F 1 u64_code.dec := varint_dec_consumes out_of_bounds

theorem nodes_code_consumes : Consumes F 0 nodes_code.dec :=
  have hu64 : Consumes F 0 u64_code.dec := u64_code_consumes.mono (Nat.zero_le _)
  Code.vec_consumes _ (Code.pair_consumes hu64 (Code.pair_consumes hu64
    ((take_bytes_consumes _ 32).mono (Nat.zero_le _))))

/-- The crates as they are written out here meet the assumption, so that it is not empty. -/
theorem deps_shortens : deps.Shortens :=
  have hu64 : Consumes (fun _ _ => False) 0 u64_code.dec := u64_code_consumes.mono (Nat.zero_le _)
  have hbytes : Consumes (fun _ _ => False) 0 vec_u8_code.dec :=
    Code.vec_consumes _ (Code.u8_consumes _)
  have hnodes : Consumes (fun _ _ => False) 0 nodes_code.dec := nodes_code_consumes
  have hstring : Consumes (fun _ _ => False) 0 string_code.dec := string_code_consumes
  have hvarint : Consumes (fun _ _ => False) 1 u64_code.dec := u64_code_consumes
  have hbitfield : Consumes (fun _ _ => False) 0 vec_u32_code.dec :=
    Code.vec_consumes _ (Code.u32_consumes _)
  have husize : Consumes (fun _ _ => False) 1 deps.decode_usize :=
    fun b => (hvarint b).map UInt64.toNat
  have harray : ∀ n, 0 < n → Consumes (fun _ _ => False) 1 (take_bytes out_of_bounds n) :=
    fun n hn => (take_bytes_consumes _ n).mono hn
  { request_block := (Code.pair_consumes hu64 hu64).shortens
    request_seek := hu64.shortens
    request_upgrade := (Code.pair_consumes hu64 hu64).shortens
    data_block := (Code.pair_consumes hu64 (Code.pair_consumes hbytes hnodes)).shortens
    data_hash := (Code.pair_consumes hu64 hnodes).shortens
    data_seek := (Code.pair_consumes hu64 hnodes).shortens
    data_upgrade := (Code.pair_consumes hu64 (Code.pair_consumes hu64
      (Code.pair_consumes hnodes (Code.pair_consumes hnodes hbytes)))).shortens
    u64 := hvarint.shortens
    string := hstring.shortens
    vec_u8 := hbytes.shortens
    vec_u32 := hbitfield.shortens
    decode_usize := husize.shortens
    take_array := fun n hn => (harray n hn).shortens }

end compact_encoding

variable {X : Deps}

/-! ## The messages of the schema -/

section

variable (hX : X.Consuming)
include hX

theorem Deps.Consuming.u64_any : Consumes X.Aborts 0 X.u64.decode := hX.u64.mono (Nat.zero_le _)

theorem Deps.Consuming.flags : Consumes X.Aborts 0 (X.take_array 1) :=
  (hX.take_array 1 Nat.one_pos).mono (Nat.zero_le _)

namespace schema

/-- An `Open` takes at least the byte of its channel number, which is why the loop over frames
makes progress. -/
theorem Open.decode_consumes : Consumes X.Aborts 1 (Open.decode X) := by
  intro b
  refine (hX.u64 b).bind (k := 0) fun _ rest => (hX.string rest).bind (k := 0) fun _ rest =>
    (hX.vec_u8 rest).bind (k := 0) fun _ rest => Ends.ite ?_ (ends_pure _ rest)
  exact (hX.flags rest).bind (k := 0) fun _ rest =>
    ((hX.take_array 32 (by decide) rest).mono (Nat.zero_le _)).bind (k := 0) fun _ rest =>
      ends_pure _ rest

theorem Close.decode_consumes : Consumes X.Aborts 1 (Close.codec X).decode := hX.u64.map _ _

/-- Each payload takes what its fields take. That it takes anything at all is not needed: the
number of the type in front of it does. -/
theorem Synchronize.decode_consumes : Consumes X.Aborts 0 (Synchronize.decode X) :=
  fun b => (hX.flags b).bind (k := 0) fun _ rest => (hX.u64_any rest).bind (k := 0) fun _ rest =>
    (hX.u64_any rest).bind (k := 0) fun _ rest => (hX.u64_any rest).bind (k := 0) fun _ rest =>
      ends_pure _ rest

theorem Request.decode_consumes : Consumes X.Aborts 0 (Request.decode X) :=
  fun b => (hX.flags b).bind (k := 0) fun _ rest => (hX.u64_any rest).bind (k := 0) fun _ rest =>
    (hX.u64_any rest).bind (k := 0) fun _ rest =>
    (hX.request_block.option _ rest).bind (k := 0) fun _ rest =>
    (hX.request_block.option _ rest).bind (k := 0) fun _ rest =>
    (hX.request_seek.option _ rest).bind (k := 0) fun _ rest =>
    (hX.request_upgrade.option _ rest).bind (k := 0) fun _ rest =>
    Ends.ite ((hX.u64_any rest).bind (k := 0) fun _ rest => ends_pure _ rest) (ends_pure _ rest)

theorem Data.decode_consumes : Consumes X.Aborts 0 (Data.decode X) :=
  fun b => (hX.flags b).bind (k := 0) fun _ rest => (hX.u64_any rest).bind (k := 0) fun _ rest =>
    (hX.u64_any rest).bind (k := 0) fun _ rest =>
    (hX.data_block.option _ rest).bind (k := 0) fun _ rest =>
    (hX.data_hash.option _ rest).bind (k := 0) fun _ rest =>
    (hX.data_seek.option _ rest).bind (k := 0) fun _ rest =>
    (hX.data_upgrade.option _ rest).bind (k := 0) fun _ rest => ends_pure _ rest

theorem Range.decode_consumes : Consumes X.Aborts 0 (Range.decode X) :=
  fun b => (hX.flags b).bind (k := 0) fun _ rest => (hX.u64_any rest).bind (k := 0) fun _ rest =>
    Ends.ite (ends_pure _ rest) ((hX.u64_any rest).bind (k := 0) fun _ rest => ends_pure _ rest)

end schema

namespace message

open schema

/-! ## One message -/

omit hX in
theorem Message.decode_message_consumes {α : Type} {c : Codec EncodingError α}
    (hc : Consumes X.Aborts 0 c.decode) (mk : α → Message X) :
    Consumes X.Aborts 0 (Message.decode_message c mk) :=
  fun b => (hc b).map mk

/-- **A message takes at least a byte**, the number of its type, so a loop over messages gets
on. -/
theorem Message.decode_consumes : Consumes X.Aborts 1 (Message.decode X) := by
  intro b
  refine (hX.u64 b).bind (k := 0) fun typ rest => ?_
  dsimp only
  split
  · exact decode_message_consumes (Synchronize.decode_consumes hX) _ rest
  · exact decode_message_consumes (Request.decode_consumes hX) _ rest
  · exact decode_message_consumes (hX.u64_any.map _ _) _ rest
  · exact decode_message_consumes (Data.decode_consumes hX) _ rest
  · exact decode_message_consumes (hX.u64_any.map _ _) _ rest
  · exact decode_message_consumes ((hX.u64_any.pair hX.u64_any).map _ _) _ rest
  · exact decode_message_consumes ((hX.u64_any.pair hX.u64_any).map _ _) _ rest
  · exact decode_message_consumes ((hX.u64_any.pair hX.vec_u32).map _ _) _ rest
  · exact decode_message_consumes (Range.decode_consumes hX) _ rest
  · exact decode_message_consumes ((hX.string.pair hX.vec_u8).map _ _) _ rest
  · exact ends_throw _

/-- With its channel number it takes at least two bytes, the number and the type. -/
theorem ChannelMessage.decode_consumes :
    Consumes X.Aborts 2 (ChannelMessage.decode_from_channel_and_message X) :=
  fun b => (hX.u64 b).bind (k := 1) fun _ rest =>
    (Message.decode_consumes hX rest).bind (k := 0) fun _ rest => ends_pure _ rest

/-- A message of a batch takes a byte whenever it succeeds. The check on its length comes first
and is an error. -/
theorem ChannelMessage.decode_with_channel_ends (channel : UInt64) (b : Bytes) :
    Ends X.Aborts 1 b (ChannelMessage.decode_with_channel X b channel) := by
  rw [decode_with_channel]
  split
  · exact ends_throw _
  · have h : Ends X.Aborts 1 b (map_err X.into_io_error (Message.decode X b)) :=
      Returns.map_err (Message.decode_consumes hX b) _
    exact h.bind (k := 0) fun _ rest => ends_pure _ rest

end message

end

namespace message

open schema

/-! ## The frame that was parsed -/

/-- `msgs` are the messages of a batch whose first channel was `channel`, parsed from the
front of `buf`, and `rest` is what this left. The numbers that the source computes from
lengths do not occur here. -/
inductive ParsesBatch (X : Deps) : UInt64 → Bytes → List (ChannelMessage X) → Bytes → Prop where
  | done (channel : UInt64) : ParsesBatch X channel [] [] []
  | same {channel : UInt64} {n : ℕ} {buf buf₁ buf₂ rest : Bytes} {msg : ChannelMessage X}
    {msgs : List (ChannelMessage X)} (hlength : X.decode_usize buf = .ok (n, buf₁))
    (hmsg : ChannelMessage.decode_with_channel X buf₁ channel = .ok (msg, buf₂))
    (hsame : buf₂.head? ≠ some 0) (h : ParsesBatch X channel buf₂ msgs rest) :
      ParsesBatch X channel buf (msg :: msgs) rest
  | change {channel channel' : UInt64} {n : ℕ} {buf buf₁ buf₂ buf₃ rest : Bytes}
    {msg : ChannelMessage X} {msgs : List (ChannelMessage X)}
    (hlength : X.decode_usize buf = .ok (n, buf₁))
    (hmsg : ChannelMessage.decode_with_channel X buf₁ channel = .ok (msg, buf₂))
    (hchange : buf₂.head? = some 0) (hchannel : X.u64.decode buf₂ = .ok (channel', buf₃))
    (h : ParsesBatch X channel' buf₃ msgs rest) : ParsesBatch X channel buf (msg :: msgs) rest

/-- `msgs` is the frame at the front of `buf`, and parsing it left `rest`. This says what the
decoder should do by the parsers alone, without any arithmetic on lengths. -/
inductive ParsesFrame (X : Deps) : Bytes → List (ChannelMessage X) → Bytes → Prop where
  | batch {buf buf₁ buf₂ rest : Bytes} {tag : U8Array 2} {channel : UInt64}
    {msgs : List (ChannelMessage X)}
    (htag : X.take_array 2 (MULTI_MESSAGE_PREFIX ++ buf) = .ok (tag, buf₁))
    (hchannel : X.u64.decode buf₁ = .ok (channel, buf₂))
    (h : ParsesBatch X channel buf₂ msgs rest) :
      ParsesFrame X (MULTI_MESSAGE_PREFIX ++ buf) msgs rest
  | opens {buf rest : Bytes} {msg : Open} (h : Open.decode X buf = .ok (msg, rest)) :
      ParsesFrame X (OPEN_MESSAGE_PREFIX ++ buf) [⟨msg.channel, .Open msg⟩] rest
  | closes {buf rest : Bytes} {msg : Close} (h : (Close.codec X).decode buf = .ok (msg, rest)) :
      ParsesFrame X (CLOSE_MESSAGE_PREFIX ++ buf) [⟨msg.channel, .Close msg⟩] rest
  | plain {buf rest : Bytes} {msg : ChannelMessage X}
    (hplain : ¬ (buf.length ≥ 3 ∧ buf.head? = some 0))
    (h : ChannelMessage.decode_from_channel_and_message X buf = .ok (msg, rest)) :
      ParsesFrame X buf [msg] rest

variable (hX : X.Consuming)
include hX

/-- One round of the loop over a batch takes a byte off, so that the length of the buffer
is enough fuel; and it ends at the end of the buffer. -/
theorem decode_batch_loop_returns (og_len fuel : ℕ) (channel : UInt64) (buf : Bytes)
    (messages : List (ChannelMessage X)) (hfuel : buf.length ≤ fuel) :
    Returns (Along X.Aborts buf) (decode_batch_loop X og_len fuel channel buf messages) fun r =>
      ∃ msgs, r = (messages ++ msgs, []) ∧ ParsesBatch X channel buf msgs [] := by
  induction fuel generalizing channel buf messages with
  -- the buffer is empty: fuel runs out only where the loop ends
  | zero =>
    obtain rfl := List.length_eq_zero_iff.mp (Nat.le_zero.mp hfuel)
    exact returns_ok ⟨[], by rw [List.append_nil], .done channel⟩
  | succ fuel ih =>
    rw [decode_batch_loop]
    split
    · obtain rfl := List.isEmpty_iff.mp ‹_›
      exact returns_ok ⟨[], by rw [List.append_nil], .done channel⟩
    · refine (Returns.map_err (hX.decode_usize buf) _).bind fun x hx hlen => ?_
      dsimp only
      split
      · exact returns_err _
      refine (returns_along (ChannelMessage.decode_with_channel_ends hX channel x.2) hlen.1).bind
        fun y hy hlen' => ?_
      have hsuffix : y.2 <:+ buf := hlen'.1.trans hlen.1
      split
      · -- the rest of each branch is shorter than the buffer, since a message takes bytes
        rename_i hchange
        refine (returns_along (Returns.map_err (hX.u64 y.2) _) hsuffix).bind fun z hz hlen'' => ?_
        refine (ih z.1 z.2 (messages ++ [y.1]) (by omega)).conseq ?_
          fun _ ha => ha.of_suffix (hlen''.1.trans hsuffix)
        rintro r ⟨msgs, rfl, h⟩
        exact ⟨y.1 :: msgs, by rw [List.append_assoc, List.singleton_append],
          .change (map_err_eq_ok hx) hy hchange (map_err_eq_ok hz) h⟩
      · rename_i hsame
        refine (ih channel y.2 (messages ++ [y.1]) (by omega)).conseq ?_
          fun _ ha => ha.of_suffix hsuffix
        rintro r ⟨msgs, rfl, h⟩
        exact ⟨y.1 :: msgs, by rw [List.append_assoc, List.singleton_append],
          .same (map_err_eq_ok hx) hy hsame h⟩

/-- An `Open` after its prefix: the length it reports is what its decoder took, without the
prefix. -/
theorem ChannelMessage.decode_open_message_returns (buf : Bytes) :
    Returns (Along X.Aborts buf) (ChannelMessage.decode_open_message X buf) fun r =>
      ∃ msg rest, r = (⟨msg.channel, .Open msg⟩, buf.length - rest.length) ∧
        Open.decode X buf = .ok (msg, rest) ∧ rest <:+ buf := by
  rw [decode_open_message]
  split
  · exact returns_err _
  · refine (Returns.map_err (Open.decode_consumes hX buf) _).bind fun x hx hlen => ?_
    exact returns_ok ⟨x.1, x.2, rfl, map_err_eq_ok hx, hlen.1⟩

/-- The same for a `Close`. -/
theorem ChannelMessage.decode_close_message_returns (buf : Bytes) :
    Returns (Along X.Aborts buf) (ChannelMessage.decode_close_message X buf) fun r =>
      ∃ msg rest, r = (⟨msg.channel, .Close msg⟩, buf.length - rest.length) ∧
        (Close.codec X).decode buf = .ok (msg, rest) ∧ rest <:+ buf := by
  rw [decode_close_message]
  split
  · exact returns_err _
  · refine (Returns.map_err (Close.decode_consumes hX buf) _).bind fun x hx hlen => ?_
    exact returns_ok ⟨x.1, x.2, rfl, map_err_eq_ok hx, hlen.1⟩

/-- Every frame that is accepted took at least a byte, and the reported length is the
number of bytes that were parsed. The three kinds of frame count them in three ways: a
batch by what its loop left, an `Open` or a `Close` by what its decoder left of the buffer
behind the prefix, and a plain message by what it left of the whole. -/
theorem decode_unframed_returns (buf : Bytes) :
    Returns (Along X.Aborts buf) (decode_unframed_channel_messages X buf) fun r => ∃ rest,
      ParsesFrame X buf r.1 rest ∧ rest <:+ buf ∧ rest.length + 1 ≤ buf.length ∧
        r.2 = buf.length - rest.length := by
  rw [decode_unframed_channel_messages]
  dsimp only
  split
  · rename_i h
    -- a leading zero: the second byte says what kind of frame it is
    match buf, h with
    | zero :: kind :: third :: tail, h =>
      obtain rfl : zero = 0 := Option.some.inj h.2
      have htail : third :: tail <:+ 0 :: kind :: third :: tail :=
        List.suffix_append [0, kind] (third :: tail)
      show Returns _ (if kind == 0 then _ else _) _
      split
      · rename_i hkind
        obtain rfl : kind = 0 := eq_of_beq hkind
        refine (Returns.map_err (hX.take_array 2 (by decide) _) _).bind fun x hx hlen => ?_
        refine (returns_along (Returns.map_err (hX.u64 x.2) _) hlen.1).bind fun y hy hlen' => ?_
        refine (returns_along (decode_batch_loop_returns hX _ _ y.1 y.2 [] (Nat.le_refl _))
          (hlen'.1.trans hlen.1)).bind ?_
        rintro r - ⟨msgs, rfl, h⟩
        exact returns_ok ⟨[], .batch (map_err_eq_ok hx) (map_err_eq_ok hy) h,
          List.nil_suffix, by simp, rfl⟩
      split
      · rename_i hkind
        obtain rfl : kind = 1 := eq_of_beq hkind
        refine (returns_along (ChannelMessage.decode_open_message_returns hX (third :: tail))
          htail).bind ?_
        rintro r - ⟨msg, rest, rfl, hmsg, hsuffix⟩
        have hle := hsuffix.length_le
        refine returns_ok ⟨rest, .opens hmsg, hsuffix.trans htail, ?_, ?_⟩
        all_goals
          simp only [List.length_cons] at hle ⊢
          omega
      split
      · rename_i hkind
        obtain rfl : kind = 3 := eq_of_beq hkind
        refine (returns_along (ChannelMessage.decode_close_message_returns hX (third :: tail))
          htail).bind ?_
        rintro r - ⟨msg, rest, rfl, hmsg, hsuffix⟩
        have hle := hsuffix.length_le
        refine returns_ok ⟨rest, .closes hmsg, hsuffix.trans htail, ?_, ?_⟩
        all_goals
          simp only [List.length_cons] at hle ⊢
          omega
      · exact returns_err _
  -- a single message behind its channel
  rename_i hplain
  split
  · refine (Returns.map_err (ChannelMessage.decode_consumes hX buf) _).bind fun x hx hlen => ?_
    exact returns_ok ⟨x.2, .plain hplain (map_err_eq_ok hx), hlen.1, by omega, rfl⟩
  · exact returns_err _

/-- The loop over the frames. What a frame reports is in bounds of the buffer, so that the
slice that takes it off is not what a panic comes from. -/
theorem vec_decode_loop_returns (fuel : ℕ) (rest : Bytes) (messages : List (ChannelMessage X))
    (hfuel : rest.length ≤ fuel) :
    Returns (Along X.Aborts rest) (vec_decode_loop X fuel rest messages) fun r => r.2 = [] := by
  induction fuel generalizing rest messages with
  | zero =>
    obtain rfl := List.length_eq_zero_iff.mp (Nat.le_zero.mp hfuel)
    exact returns_ok rfl
  | succ fuel ih =>
    rw [vec_decode_loop]
    split
    · exact returns_ok (List.isEmpty_iff.mp ‹_›)
    · refine (Returns.map_err (decode_unframed_returns hX rest) _).bind ?_
      rintro ⟨msgs, length⟩ - ⟨left, -, hsuffix, hlen, rfl⟩
      dsimp only
      rw [slice_from, if_pos (Nat.sub_le _ _), ok_bind, ← suffix_eq_drop hsuffix]
      exact returns_along (ih left _ (by omega)) hsuffix

omit hX

/-- What the decoder of a transport message does with any bytes, when of the decoders of
other crates only their successes are known. It returns an error, or it has taken all of
the bytes, or it does not come back because a decoder of another crate, called on a suffix
of the bytes, does not come back. The same holds of the decoder of a frame, and each frame
that this accepts is at least one byte long and reported with exactly the bytes it was
parsed from, so that slicing it off is in bounds; and of the loop over a batch, which
otherwise ends at the end of its buffer. The fuel of both loops is thus enough, and no
index and no slice of this crate panics. -/
theorem vec_decode_ends (hX : X.Shortens) :
    (∀ b : Bytes, (∃ msgs, vec_decode X b = .ok (msgs, [])) ∨
      (∃ e, vec_decode X b = .error (.err e)) ∨
      ∃ a : Abort, vec_decode X b = .error a.fault ∧ ∃ b', b' <:+ b ∧ X.Aborts b' a) ∧
    (∀ buf : Bytes, (∃ msgs n, decode_unframed_channel_messages X buf = .ok (msgs, n) ∧
        1 ≤ n ∧ n ≤ buf.length ∧ ParsesFrame X buf msgs (buf.drop n)) ∨
      (∃ e, decode_unframed_channel_messages X buf = .error (.err e)) ∨
      ∃ a : Abort, decode_unframed_channel_messages X buf = .error a.fault ∧
        ∃ b', b' <:+ buf ∧ X.Aborts b' a) ∧
    ∀ (og_len fuel : ℕ) (channel : UInt64) (buf : Bytes) (messages : List (ChannelMessage X)),
      buf.length ≤ fuel →
        (∃ msgs, decode_batch_loop X og_len fuel channel buf messages = .ok (msgs, [])) ∨
        (∃ e, decode_batch_loop X og_len fuel channel buf messages = .error (.err e)) ∨
        ∃ a : Abort, decode_batch_loop X og_len fuel channel buf messages = .error a.fault ∧
          ∃ b', b' <:+ buf ∧ X.Aborts b' a := by
  have hX := hX.consuming
  refine ⟨fun b => ?_, fun buf => ?_, fun og_len fuel channel buf messages hfuel => ?_⟩
  · rcases vec_decode_loop_returns hX b.length b [] (Nat.le_refl _) with ⟨⟨msgs, _⟩, h, rfl⟩ | h
    · exact Or.inl ⟨msgs, h⟩
    · exact Or.inr h
  · rcases decode_unframed_returns hX buf with ⟨⟨msgs, _⟩, h, rest, hparse, hsuffix, hlen, rfl⟩ | h
    · refine Or.inl ⟨msgs, _, h, by omega, Nat.sub_le _ _, ?_⟩
      rw [← suffix_eq_drop hsuffix]
      exact hparse
    · exact Or.inr h
  · rcases decode_batch_loop_returns hX og_len fuel channel buf messages hfuel with
      ⟨_, h, msgs, rfl, -⟩ | h
    · exact Or.inl ⟨_, h⟩
    · exact Or.inr h

/-- A `Cancel` on channel 5. -/
theorem vec_decode_ends_cancel : compact_encoding.deps.Shortens ∧
    ∃ msgs n, decode_unframed_channel_messages compact_encoding.deps [5, 2, 7] = .ok (msgs, n) ∧
      1 ≤ n ∧ n ≤ 3 ∧ ParsesFrame compact_encoding.deps [5, 2, 7] msgs ([5, 2, 7].drop n) := by
  refine ⟨compact_encoding.deps_shortens,
    ((vec_decode_ends compact_encoding.deps_shortens).2.1 [5, 2, 7]).resolve_right ?_⟩
  have hok : ∃ r, decode_unframed_channel_messages compact_encoding.deps [5, 2, 7] = .ok r :=
    ⟨_, rfl⟩
  obtain ⟨r, hr⟩ := hok
  rintro (⟨e, h⟩ | ⟨a, h, -⟩)
  · cases hr.symm.trans h
  · cases hr.symm.trans h

/-! ## A length that no memory holds -/

/-- The decoder of a `Vec<u32>` as a crate writes it that reserves the vector first: the
length in front of the elements is multiplied by four bytes, and a vector of more than
`isize::MAX` bytes panics. -/
def vec_u32_reserving (buf : Bytes) : Res EncodingError (Vec UInt32 × Bytes) := do
  let (len, _) ← compact_encoding.deps.decode_usize buf
  if 4 * len ≤ ISIZE_MAX then compact_encoding.deps.vec_u32.decode buf
  else .error (.panic .capacity_overflow)

/-- The crates with that decoder, all others being as they are written out here. -/
def reserving_deps : Deps :=
  { compact_encoding.deps with
    vec_u32 := { compact_encoding.deps.vec_u32 with decode := vec_u32_reserving } }

/-- Reserving memory first changes nothing about a success, and the assumption is about successes
only. -/
theorem reserving_deps_shortens : reserving_deps.Shortens := by
  have hvec : Wire.Shortens 0 vec_u32_reserving := by
    intro b x rest h
    obtain ⟨⟨len, rest'⟩, -, h⟩ := bind_eq_ok h
    dsimp only at h
    split at h
    · exact compact_encoding.deps_shortens.vec_u32 b x rest h
    · cases h
  exact { compact_encoding.deps_shortens with vec_u32 := hvec }

/-- **A frame that panics.** A `Bitfield` on channel 1 whose vector is said to have `2⁶⁴ - 1`
elements: twelve bytes that every remote can send. The crates with the reserving decoder
meet the assumption on success, and decoding the frame does not return. -/
theorem vec_decode_panics : reserving_deps.Shortens ∧
    vec_decode reserving_deps [1, 7, 0, 255, 255, 255, 255, 255, 255, 255, 255, 255] =
      .error (.panic .capacity_overflow) :=
  ⟨reserving_deps_shortens, rfl⟩

end message

end hypercore_protocol
