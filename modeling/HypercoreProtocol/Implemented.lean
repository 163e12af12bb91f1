/-
Writing without a panic.

`Message::typ` and `Message::encode` are not implemented for a local signal, and a panic
there takes the whole protocol task down. Apart from this the code that writes a frame has
no panic of its own: whatever panics is in the other crates. `Deps.NoPanic bad` says that
these do not panic in the ways `bad`; then neither do the sizes and the encoders of the
messages, of a batch and of a frame, as long as none of the messages is a local signal,
and neither does `poll_outbound` over a write queue of such messages.
-/
import HypercoreProtocol.Lib.NoPanic
import HypercoreProtocol.Sink

set_option autoImplicit false

namespace hypercore_protocol

open Rust Wire schema message mqueue

/-- The other crates do not panic so. `bad` is a set of panics, here those of code that is not
written yet. -/
structure Deps.NoPanic (bad : Panic → Prop) (X : Deps) : Prop where
  request_block : X.request_block.NoPanic bad
  request_seek : X.request_seek.NoPanic bad
  request_upgrade : X.request_upgrade.NoPanic bad
  data_block : X.data_block.NoPanic bad
  data_hash : X.data_hash.NoPanic bad
  data_seek : X.data_seek.NoPanic bad
  data_upgrade : X.data_upgrade.NoPanic bad
  u64 : X.u64.NoPanic bad
  string : X.string.NoPanic bad
  vec_u8 : X.vec_u8.NoPanic bad
  vec_u32 : X.vec_u32.NoPanic bad
  write_array : ∀ bs, Method.NoPanic bad (X.write_array bs)
  write_slice : ∀ bs, Method.NoPanic bad (X.write_slice bs)
  take_array_mut : ∀ n, Method.NoPanic bad (X.take_array_mut n)
  /-- Encoding a value into a new buffer panics only as its codec does. -/
  to_encoded_bytes : ∀ {α : Type} (c : Codec EncodingError α) (x : α),
    Rust.NoPanic bad (c.encoded_size x) → Method.NoPanic bad (c.encode x) →
      Rust.NoPanic bad (X.to_encoded_bytes c x)

/-! ## The other crates, written out -/

namespace compact_encoding

/-- Writing past the end of a buffer is an error here, not a panic, so that it is never among the
bad ones. -/
theorem put_bytes_noPanic {bad : Panic → Prop} (bs : Bytes) :
    Method.NoPanic bad (put_bytes out_of_bounds bs) := by
  intro c c' pan _ h
  change (if bs.length ≤ c.rest.length then _ else _) = _ at h
  split at h
  · cases h
  · cases h

/-- A codec that is made of a prefix code panics neither in its size nor in its encoder. -/
theorem codec_noPanic {bad : Panic → Prop} {α : Type} (c : Code EncodingError α) :
    (c.codec out_of_bounds).NoPanic bad where
  size _ := noPanic_ok _
  encode _ := put_bytes_noPanic _

/-- The one panic of the entry point is that of its allocation; all others would come from the
codec. -/
theorem to_encoded_bytes_noPanic {bad : Panic → Prop} (hcap : ¬ bad .capacity_overflow)
    {α : Type} (c : Codec EncodingError α) (x : α) (hsize : Rust.NoPanic bad (c.encoded_size x))
    (hencode : Method.NoPanic bad (c.encode x)) : Rust.NoPanic bad (to_encoded_bytes c x) := by
  refine hsize.bind fun n => ?_
  split
  · intro pan hbad h
    cases hrun : (c.encode x).run ⟨[], List.replicate n 0⟩ with
    | ok a cursor =>
      rw [hrun] at h
      cases h
    | error e cursor =>
      rw [hrun] at h
      cases h
      exact hencode _ _ pan hbad hrun
  · rintro pan hbad ⟨⟩
    exact hcap hbad

/-- They allocate, and panic in no other way, so that the assumption can be met for every other
set of panics. -/
theorem deps_noPanic {bad : Panic → Prop} (hcap : ¬ bad .capacity_overflow) : deps.NoPanic bad where
  request_block := codec_noPanic _
  request_seek := codec_noPanic _
  request_upgrade := codec_noPanic _
  data_block := codec_noPanic _
  data_hash := codec_noPanic _
  data_seek := codec_noPanic _
  data_upgrade := codec_noPanic _
  u64 := codec_noPanic _
  string := codec_noPanic _
  vec_u8 := codec_noPanic _
  vec_u32 := codec_noPanic _
  write_array := put_bytes_noPanic
  write_slice := put_bytes_noPanic
  take_array_mut _ := put_bytes_noPanic _
  to_encoded_bytes := to_encoded_bytes_noPanic hcap

end compact_encoding

variable {X : Deps} {bad : Panic → Prop}

/-! ## Messages -/

namespace schema

variable (hX : X.NoPanic bad)
include hX

/-- An `Open` writes no `todo!`: its encoder only calls those of its fields. -/
theorem Open.noPanic : (Open.codec X).NoPanic bad where
  size m := by
    refine (hX.u64.size _).bind fun _ => (hX.string.size _).bind fun _ =>
      (hX.vec_u8.size _).bind fun _ => ?_
    split
    · exact noPanic_ok _
    · exact noPanic_ok _
  encode m := by
    refine (hX.u64.encode _).bind fun _ => (hX.string.encode _).bind fun _ =>
      (hX.vec_u8.encode _).bind fun _ => ?_
    split
    · exact (hX.take_array_mut 1).bind fun _ => hX.write_slice _
    · exact Method.noPanic_pure _

theorem Synchronize.noPanic : (Synchronize.codec X).NoPanic bad where
  size _ := (hX.u64.size _).bind fun _ => (hX.u64.size _).bind fun _ =>
    (hX.u64.size _).bind fun _ => noPanic_ok _
  encode _ := (hX.write_array _).bind fun _ => (hX.u64.encode _).bind fun _ =>
    (hX.u64.encode _).bind fun _ => hX.u64.encode _

theorem Request.noPanic : (Request.codec X).NoPanic bad where
  size m := by
    refine (hX.u64.size _).bind fun _ => (hX.u64.size _).bind fun _ =>
      (hX.request_block.option_size _).bind fun _ => (hX.request_block.option_size _).bind fun _ =>
      (hX.request_seek.option_size _).bind fun _ => (hX.request_upgrade.option_size _).bind
      fun _ => ?_
    split
    · exact (hX.u64.size _).bind fun _ => noPanic_ok _
    · exact noPanic_ok _
  encode m := by
    refine (hX.write_array _).bind fun _ => (hX.u64.encode _).bind fun _ =>
      (hX.u64.encode _).bind fun _ => (hX.request_block.encode_option _).bind fun _ =>
      (hX.request_block.encode_option _).bind fun _ => (hX.request_seek.encode_option _).bind
      fun _ => (hX.request_upgrade.encode_option _).bind fun _ => ?_
    split
    · exact hX.u64.encode _
    · exact Method.noPanic_pure _

theorem Data.noPanic : (Data.codec X).NoPanic bad where
  size _ := (hX.u64.size _).bind fun _ => (hX.u64.size _).bind fun _ =>
    (hX.data_block.option_size _).bind fun _ => (hX.data_hash.option_size _).bind fun _ =>
    (hX.data_seek.option_size _).bind fun _ => (hX.data_upgrade.option_size _).bind fun _ =>
    noPanic_ok _
  encode _ := (hX.write_array _).bind fun _ => (hX.u64.encode _).bind fun _ =>
    (hX.u64.encode _).bind fun _ => (hX.data_block.encode_option _).bind fun _ =>
    (hX.data_hash.encode_option _).bind fun _ => (hX.data_seek.encode_option _).bind fun _ =>
    hX.data_upgrade.encode_option _

theorem Range.noPanic : (Range.codec X).NoPanic bad where
  size m := by
    refine (hX.u64.size _).bind fun _ => ?_
    split
    · exact (hX.u64.size _).bind fun _ => noPanic_ok _
    · exact noPanic_ok _
  encode m := by
    refine (hX.write_array _).bind fun _ => (hX.u64.encode _).bind fun _ => ?_
    split
    · exact hX.u64.encode _
    · exact Method.noPanic_pure _

end schema

/-- The name and the data of a local signal, the one kind of message that has no wire form. -/
def message.Message.local_signal : Message X → Option (Str × Vec UInt8)
  | .LocalSignal name data => some (name, data)
  | _ => none

namespace message

/-- Of the payloads each is made of fields and parts that do not panic so, and the rules for
pairs, options and maps do the rest. -/
theorem payloads_noPanic (hX : X.NoPanic bad) : Payloads X fun _ c => c.NoPanic bad where
  synchronize := Synchronize.noPanic hX
  request := Request.noPanic hX
  cancel := hX.u64.map _ _
  data := Data.noPanic hX
  no_data := hX.u64.map _ _
  want := (hX.u64.pair hX.u64).map _ _
  unwant := (hX.u64.pair hX.u64).map _ _
  bitfield := (hX.u64.pair hX.vec_u32).map _ _
  range := Range.noPanic hX
  extension := (hX.string.pair hX.vec_u8).map _ _

section

variable (hX : X.NoPanic bad)
include hX

/-- A message that is no local signal, on its own: neither its size nor its bytes reach a
`todo!`. -/
theorem Message.noPanic (m : Message X) (hm : m.local_signal = none) :
    Rust.NoPanic bad m.encoded_size ∧ Method.NoPanic bad m.encode := by
  cases hd : m.is_data with
  | true =>
    obtain ⟨α, c, n, mk, x, harm, hc, rfl⟩ := Message.of_data (payloads_noPanic hX) m hd
    rw [harm.size x, harm.encode x]
    exact ⟨(hX.u64.size _).bind fun _ => (hc.size x).bind fun _ => noPanic_ok _,
      (hX.u64.encode _).bind fun _ => hc.encode x⟩
  | false =>
    cases m with
    | Open o =>
      exact ⟨(noPanic_ok 0).bind fun _ => ((Open.noPanic hX).size o).bind fun _ => noPanic_ok _,
        (Method.noPanic_pure ()).bind fun _ => (Open.noPanic hX).encode o⟩
    | Close c =>
      exact ⟨(noPanic_ok 0).bind fun _ => (hX.u64.size c.channel).bind fun _ => noPanic_ok _,
        (Method.noPanic_pure ()).bind fun _ => hX.u64.encode c.channel⟩
    | LocalSignal name data => cases hm
    | _ => cases hd

/-- A batch without local signals is sized without reaching `todo!`, from any channel. -/
theorem batch_encoded_size_noPanic (L : List (ChannelMessage X))
    (hL : ∀ m ∈ L, m.message.local_signal = none) (c : UInt64) :
    Rust.NoPanic bad (batch_encoded_size c L) := by
  induction L generalizing c with
  | nil => exact noPanic_ok _
  | cons m ms ih =>
    have hm := (Message.noPanic hX m.message (hL m List.mem_cons_self)).1
    have htail := ih (fun m' hm' => hL m' (List.mem_cons_of_mem m hm')) m.channel
    have hrest : ∀ change, Rust.NoPanic bad (do
        let message_length ← m.message.encoded_size
        let n ← X.u64.encoded_size (UInt64.ofNat message_length)
        let out ← batch_encoded_size m.channel ms
        pure (change + (message_length + n) + out)) := fun _ =>
      hm.bind fun _ => (hX.u64.size _).bind fun _ => htail.bind fun _ => noPanic_ok _
    rw [batch_encoded_size]
    split
    · exact (hX.u64.size _).bind fun _ => (noPanic_ok _).bind hrest
    · exact (noPanic_ok _).bind hrest

/-- And it is written without reaching it. The induction is the same, along the list. -/
theorem encode_batch_noPanic (L : List (ChannelMessage X))
    (hL : ∀ m ∈ L, m.message.local_signal = none) (c : UInt64) :
    Method.NoPanic bad (encode_batch c L) := by
  induction L generalizing c with
  | nil => exact Method.noPanic_pure _
  | cons m ms ih =>
    obtain ⟨hsize, hencode⟩ := Message.noPanic hX m.message (hL m List.mem_cons_self)
    have htail := ih (fun m' hm' => hL m' (List.mem_cons_of_mem m hm')) m.channel
    have hrest : Method.NoPanic bad (do
        let msg_len ← Method.lift m.message.encoded_size
        X.u64.encode (UInt64.ofNat msg_len)
        m.message.encode
        encode_batch m.channel ms) :=
      (Method.noPanic_lift hsize).bind fun _ => (hX.u64.encode _).bind fun _ =>
        hencode.bind fun _ => htail
    rw [encode_batch]
    split
    · exact (hX.write_array _).bind fun _ => (hX.u64.encode _).bind fun _ => hrest
    · exact (Method.noPanic_pure ()).bind fun _ => hrest

/-- A frame without local signals is encoded without such a panic, whatever its kind. -/
theorem to_encoded_bytes_noPanic (L : List (ChannelMessage X))
    (hL : ∀ m ∈ L, m.message.local_signal = none) : Rust.NoPanic bad (to_encoded_bytes L) := by
  have hbatch := batch_encoded_size_noPanic hX L hL
  have hwrite := encode_batch_noPanic hX L hL
  -- size and bytes are computed by the same three cases: nothing, one message, a batch
  refine hX.to_encoded_bytes (vec_codec X) L ?_ ?_
  · match L, hL with
    | [], _ => exact noPanic_ok _
    | [m], hL =>
      have hm := (Message.noPanic hX m.message (hL m List.mem_cons_self)).1
      have hsize : Rust.NoPanic bad m.encoded_size := by
        rw [ChannelMessage.encoded_size]
        split
        · exact (noPanic_ok _).bind fun _ => hm.bind fun _ => noPanic_ok _
        · exact (hX.u64.size _).bind fun _ => hm.bind fun _ => noPanic_ok _
      refine hsize.bind fun _ => ?_
      split
      · exact noPanic_ok _
      · exact noPanic_ok _
    | m :: m' :: ms, _ =>
      exact (hX.u64.size _).bind fun _ => (hbatch m.channel).bind fun _ => noPanic_ok _
  · match L, hL with
    | [], _ => exact Method.noPanic_pure _
    | [m], hL =>
      have hm := (Message.noPanic hX m.message (hL m List.mem_cons_self)).2
      obtain ⟨channel, message⟩ := m
      cases message with
      | Open o => exact (hX.write_array _).bind fun _ => hm
      | Close c => exact (hX.write_array _).bind fun _ => hm
      | _ => exact (hX.u64.encode _).bind fun _ => hm
    | m :: m' :: ms, _ =>
      exact (hX.write_array _).bind fun _ => (hX.u64.encode _).bind fun _ => hwrite m.channel

end

end message

/-! ## The message layer -/

namespace mqueue

variable {σ : Type} [CipherTrait σ]

/-- A sink answers, so what panics in `poll_outbound` is the encoding of a frame, and the frames
are made of what is in the queue. -/
theorem MessageIo.poll_outbound_noPanic (hX : X.NoPanic bad) {io : MessageIo X σ}
    (hqueue : ∀ msg ∈ io.write_queue, msg.message.local_signal = none) {pan : Panic}
    (hbad : bad pan) (io' : MessageIo X σ) :
    (poll_outbound : IoMethod X σ (Poll Unit)).run io ≠ .error (.panic pan) io' := by
  intro h
  obtain ⟨calls, hdrives⟩ := drives_of_run (r := .error (.panic pan)) h
  rcases hdrives.fault with ⟨call, -, e, -, hf⟩ | ⟨L, -, hL, hf⟩
  · cases hf
  · exact ((to_encoded_bytes_noPanic hX L fun m hm => hqueue m (hL m hm)).map_err _) pan hbad hf

end mqueue

end hypercore_protocol
