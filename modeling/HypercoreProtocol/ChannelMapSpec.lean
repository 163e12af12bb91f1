/-
What the methods of the channel map do.

Each method has one lemma that says what it returns and which map it leaves, with
the panics it can end in; nothing later unfolds a method again. From these
lemmas follows `Wf`, the invariant of every map the methods can build: entries
stand under their own discovery key, local ids are in the table and point back at
their entry, remote ids are inside the table, and entries share no flag and no
queue.

The remote ids are the exception: nothing keeps two entries from claiming the
same one. `remote_ids_resolve_iff` says exactly when they stay resolvable.
-/
import HypercoreProtocol.Channels
import HypercoreProtocol.CompactEncoding
import HypercoreProtocol.Lib.Trace

set_option autoImplicit false

namespace hypercore_protocol.channels

open Rust Wire message

variable {X : Deps} {m m' : ChannelMap X} {d : DiscoveryKey} {h : ChannelHandle}

/-! ## The id tables -/

namespace ChannelMap

/-- There is a free id, or the table of local ids can still grow. Without either, `attach_local`
panics; no other call depends on it. -/
def HasRoom (m : ChannelMap X) : Prop :=
  (∃ i, 1 ≤ i ∧ i < m.local_id.len ∧ m.local_id.slot i = none) ∨
    m.local_id.len < Vec.max_len SLOT_SIZE

/-- Slot `r` of the table of remote ids is there, or the table can grow to have it. -/
def TakesRemote (m : ChannelMap X) (r : ℕ) : Prop :=
  r < m.remote_id.len ∨ r < Vec.max_len SLOT_SIZE

/-- The id is free, and the table afterwards has room for it and no other entry
changed. -/
theorem alloc_local_spec (hpos : 1 ≤ m.local_id.len) :
    (∃ i v, alloc_local.run m = .ok i { m with local_id := v } ∧ 1 ≤ i ∧ i < v.len ∧
      m.local_id.len ≤ v.len ∧ m.local_id.slot i = none ∧
      (∀ j, v.slot j = m.local_id.slot j) ∧ m.HasRoom ∧
      (m.local_id.len ≤ Vec.max_len SLOT_SIZE → v.len ≤ Vec.max_len SLOT_SIZE)) ∨
    (¬ m.HasRoom ∧ alloc_local.run m = .error (.panic .capacity_overflow) m) := by
  cases hidx : (m.local_id.val.drop 1).findIdx? Option.isNone with
  | some k =>
    left
    -- the first free slot behind slot 0, which `skip(1)` leaves out
    obtain ⟨hk, hnone, -⟩ := List.findIdx?_eq_some_iff_getElem.mp hidx
    rw [List.getElem_drop, Option.isNone_iff_eq_none] at hnone
    have hlt : k + 1 < m.local_id.len := by
      rw [List.length_drop] at hk
      simp only [Vec.len]
      omega
    have hfree : m.local_id.slot (k + 1) = none := by
      rw [Vec.slot, Vec.get?, List.getElem?_eq_getElem hlt]
      simp only [Nat.add_comm k 1, hnone, Option.join_some]
    refine ⟨k + 1, m.local_id, ?_, by omega, hlt, Nat.le_refl _, hfree, fun _ => rfl,
      Or.inl ⟨k + 1, by omega, hlt, hfree⟩, id⟩
    simp only [alloc_local, EStateM.run_bind, EStateM.run_get, hidx, Option.map_some,
      EStateM.run_pure]
  | none =>
    -- no free slot: the table grows by one, unless the allocation is too large
    by_cases hcap : m.local_id.len < Vec.max_len SLOT_SIZE
    · left
      obtain ⟨v, hv, hlen, hslot⟩ := Vec.push_none_spec IoError hcap
      refine ⟨m.local_id.len, v, ?_, hpos, by omega, by omega,
        Vec.slot_of_len_le (Nat.le_refl _), hslot, Or.inr hcap, fun _ => by omega⟩
      simp only [alloc_local, EStateM.run_bind, EStateM.run_get, hidx, Option.map_none, hv,
        Method.run_lift_ok, EStateM.run_set, EStateM.run_pure, hlen, Nat.add_sub_cancel]
    · right
      have hpush : (m.local_id.push SLOT_SIZE none : Res IoError _)
          = .error (.panic .capacity_overflow) := by
        rw [Vec.push, dif_neg hcap]
      refine ⟨?_, ?_⟩
      · rintro (⟨i, hpos, hlt, hfree⟩ | hlt)
        · -- every id from 1 on is taken
          have hget : (m.local_id.val.drop 1)[i - 1]? = some none := by
            rw [List.getElem?_drop, Nat.add_sub_cancel' hpos, List.getElem?_eq_getElem hlt]
            rw [Vec.slot, Vec.get?, List.getElem?_eq_getElem hlt, Option.join_some] at hfree
            rw [hfree]
          cases (List.findIdx?_eq_none_iff.mp hidx _ (List.mem_of_getElem? hget))
        · exact hcap hlt
      · simp only [alloc_local, EStateM.run_bind, EStateM.run_get, hidx, Option.map_none, hpush,
          Method.run_lift_error]

/-- Slot `id` is there and empty afterwards, unless `id + 1` overflows or is more
than a vector can hold. -/
theorem alloc_remote_spec (id : ℕ) :
    (∃ v, (alloc_remote id).run m = .ok () { m with remote_id := v } ∧ id < v.len ∧
      m.remote_id.len ≤ v.len ∧ (∀ j, v.slot j = if j = id then none else m.remote_id.slot j) ∧
      m.TakesRemote id ∧ v.len = max m.remote_id.len (id + 1)) ∨
    (id < USIZE_MAX ∧ ¬ m.TakesRemote id ∧
      (alloc_remote id).run m = .error (.panic .capacity_overflow) m) ∨
    (USIZE_MAX ≤ id ∧ (alloc_remote id).run m = .error (.panic .overflow) m) := by
  by_cases hid : id < m.remote_id.len
  · -- an id that is there already only has its slot cleared
    left
    obtain ⟨v, hv, hlen, hslot⟩ := Vec.index_set_spec IoError hid none
    refine ⟨v, ?_, by omega, by omega, hslot, Or.inl hid, by omega⟩
    simp only [alloc_remote, EStateM.run_bind, EStateM.run_get, gt_iff_lt, hid, if_true, hv,
      Method.run_lift_ok, EStateM.run_set]
  · by_cases hmax : id < USIZE_MAX
    · have hadd : (usize_add id 1 : Res IoError ℕ) = .ok (id + 1) := by
        rw [usize_add, if_pos (Nat.succ_le_of_lt hmax)]
      -- `resize(id + 1)` fills up with empty slots
      by_cases hcap : id + 1 ≤ Vec.max_len SLOT_SIZE
      · left
        obtain ⟨v, hv, hlen, hslot⟩ :=
          Vec.resize_none_spec IoError hcap (Nat.le_succ_of_le (Nat.le_of_not_lt hid))
        refine ⟨v, ?_, by omega, by omega, fun j => ?_, Or.inr (Nat.lt_of_succ_le hcap), by omega⟩
        · simp only [alloc_remote, EStateM.run_bind, EStateM.run_get, gt_iff_lt, hid, if_false,
            hadd, hv, Method.run_lift_ok, EStateM.run_set]
        · rw [hslot]
          split
          · rename_i hj
            rw [hj, Vec.slot_of_len_le (Nat.le_of_not_lt hid)]
          · rfl
      · right; left
        have hresize : (m.remote_id.resize SLOT_SIZE (id + 1) none : Res IoError _)
            = .error (.panic .capacity_overflow) := by
          rw [Vec.resize, dif_neg hcap]
        refine ⟨hmax, fun h => h.elim hid fun h => hcap (Nat.succ_le_of_lt h), ?_⟩
        simp only [alloc_remote, EStateM.run_bind, EStateM.run_get, gt_iff_lt, hid, if_false,
          hadd, hresize, Method.run_lift_ok, Method.run_lift_error]
    · right; right
      have hadd : (usize_add id 1 : Res IoError ℕ) = .error (.panic .overflow) := by
        rw [usize_add, if_neg (Nat.not_le_of_lt (Nat.lt_succ_of_le (Nat.le_of_not_lt hmax)))]
      refine ⟨Nat.le_of_not_lt hmax, ?_⟩
      simp only [alloc_remote, EStateM.run_bind, EStateM.run_get, gt_iff_lt, hid, if_false, hadd,
        Method.run_lift_error]

/-! ## Attaching -/

/-- The handle of `d`, or the one that would be made for it. The two branches of the attaching
calls are one with this. -/
def entry (m : ChannelMap X) (d : DiscoveryKey) : ChannelHandle :=
  (m.channels d).getD ⟨d, none, none, none, m.shared.flags.next⟩

/-- The shared cells once `d` has a handle: a new flag if the handle had to be made, and else the
same. -/
def entered (m : ChannelMap X) (d : DiscoveryKey) : Shared X :=
  if (m.channels d).isSome then m.shared else m.shared.new_flag

theorem entry_of_some (hd : m.channels d = some h) : m.entry d = h := by
  rw [entry, hd, Option.getD_some]

theorem entered_of_some (hd : m.channels d = some h) : m.entered d = m.shared := by
  rw [entered, hd, Option.isSome_some, if_pos rfl]

theorem entry_of_none (hd : m.channels d = none) :
    m.entry d = ⟨d, none, none, none, m.shared.flags.next⟩ := by
  rw [entry, hd, Option.getD_none]

theorem entered_of_none (hd : m.channels d = none) : m.entered d = m.shared.new_flag := by
  rw [entered, hd, Option.isSome_none, if_neg Bool.false_ne_true]

/-- Attaching a key locally gives its entry a free id of the local table, and leaves every other
slot as it is. An id that the entry had before is not given back. -/
theorem attach_local_spec (hpos : 1 ≤ m.local_id.len) (key : Key) :
    (∃ i v, (attach_local key).run m =
        .ok ((m.entry (discovery_key_of X key)).attach_local i key)
          ⟨Function.update m.channels (discovery_key_of X key)
            (some ((m.entry (discovery_key_of X key)).attach_local i key)),
            v, m.remote_id, m.entered (discovery_key_of X key)⟩ ∧
      1 ≤ i ∧ m.local_id.len ≤ v.len ∧ m.local_id.slot i = none ∧
      (∀ j, v.slot j = if j = i then some (discovery_key_of X key) else m.local_id.slot j) ∧
      m.HasRoom ∧
      (m.local_id.len ≤ Vec.max_len SLOT_SIZE → v.len ≤ Vec.max_len SLOT_SIZE)) ∨
    (¬ m.HasRoom ∧ (attach_local key).run m = .error (.panic .capacity_overflow) m) := by
  rcases alloc_local_spec hpos with
    ⟨i, v, halloc, hi, hlt, hlen, hfree, hslot, hroom, hmax⟩ | ⟨hroom, halloc⟩
  · left
    obtain ⟨w, hw, hwlen, hwslot⟩ :=
      Vec.index_set_spec IoError hlt (some (discovery_key_of X key))
    refine ⟨i, w, ?_, hi, by omega, hfree, fun j => by rw [hwslot, hslot], hroom,
      fun h => hwlen ▸ hmax h⟩
    -- the entry is changed if it is there, and made otherwise
    cases hd : m.channels (discovery_key_of X key) with
    | some c =>
      rw [entry_of_some hd, entered_of_some hd]
      simp [attach_local, halloc, hd, hw, insert]
    | none =>
      rw [entry_of_none hd, entered_of_none hd]
      simp [attach_local, halloc, hd, hw, insert, ChannelHandle.new_local, ChannelHandle.new]
  · right
    exact ⟨hroom, by simp [attach_local, halloc]⟩

/-- Attaching a key remotely puts it into slot `r` of the remote table, whoever was there. It
fails only by the panic of a table that would be too long. -/
theorem attach_remote_spec (d : DiscoveryKey) (r : ℕ) (cap : Option (Vec UInt8)) :
    (∃ v, (attach_remote d r cap).run m =
        .ok ((m.entry d).attach_remote r cap)
          ⟨Function.update m.channels d (some ((m.entry d).attach_remote r cap)), m.local_id, v,
            m.entered d⟩ ∧
      r < v.len ∧ m.remote_id.len ≤ v.len ∧
      (∀ j, v.slot j = if j = r then some d else m.remote_id.slot j) ∧ m.TakesRemote r ∧
      v.len = max m.remote_id.len (r + 1)) ∨
    (r < USIZE_MAX ∧ ¬ m.TakesRemote r ∧
      (attach_remote d r cap).run m = .error (.panic .capacity_overflow) m) ∨
    (USIZE_MAX ≤ r ∧ (attach_remote d r cap).run m = .error (.panic .overflow) m) := by
  rcases alloc_remote_spec (m := m) r with
    ⟨v, halloc, hlt, hlen, hslot, htakes, hgrow⟩ | ⟨hr, hcap, halloc⟩ | ⟨hr, halloc⟩
  · left
    obtain ⟨w, hw, hwlen, hwslot⟩ := Vec.index_set_spec IoError hlt (some d)
    refine ⟨w, ?_, by omega, by omega, fun j => ?_, htakes, by omega⟩
    · -- as for a local id, the entry is changed or made
      cases hd : m.channels d with
      | some c =>
        rw [entry_of_some hd, entered_of_some hd]
        simp [attach_remote, halloc, hd, hw, insert]
      | none =>
        rw [entry_of_none hd, entered_of_none hd]
        simp [attach_remote, halloc, hd, hw, insert, ChannelHandle.new_remote, ChannelHandle.new]
    · rw [hwslot]
      split
      · rfl
      · rename_i hj
        rw [hslot, if_neg hj]
  · right; left
    exact ⟨hr, hcap, by simp [attach_remote, halloc]⟩
  · right; right
    exact ⟨hr, by simp [attach_remote, halloc]⟩

/-! ## Removing -/

theorem remove_of_none (hd : m.channels d = none) : (remove d).run m = .ok () m := by
  simp [remove, hd]

/-- Clearing the slot of an id that may be absent, the common part of what `remove` does to the
two tables. -/
theorem clear_slot_spec {v : Vec (Option DiscoveryKey)} {id : Option ℕ}
    (hid : ∀ i, id = some i → i < v.len) :
    ∃ w : Vec (Option DiscoveryKey), w.len = v.len ∧
      (∀ j, w.slot j = if id = some j then none else v.slot j) ∧ (id = none → w = v) ∧
      ∀ i, id = some i → (v.index_set i none : Res IoError _) = .ok w := by
  cases id with
  | none => exact ⟨v, rfl, fun j => rfl, fun _ => rfl, fun i hi => nomatch hi⟩
  | some i =>
    obtain ⟨w, hw, hlen, hslot⟩ := Vec.index_set_spec IoError (hid i rfl) none
    refine ⟨w, hlen, fun j => ?_, (fun h => nomatch h), fun j hj => ?_⟩
    · rw [hslot]
      simp only [Option.some.injEq, eq_comm]
    · rw [← Option.some.inj hj, hw]

/-- Removing an entry empties the slots its handle has recorded, and closes it. A slot that leads
to the entry by another id stays. -/
theorem remove_of_some (hd : m.channels d = some h)
    (hl : ∀ i, h.local_id = some i → i < m.local_id.len)
    (hr : ∀ r, h.remote_id = some r → r < m.remote_id.len) :
    ∃ vl vr, (remove d).run m =
        .ok () ⟨Function.update m.channels d none, vl, vr, m.shared.store_true h.closed⟩ ∧
      vl.len = m.local_id.len ∧ vr.len = m.remote_id.len ∧
      (∀ j, vl.slot j = if h.local_id = some j then none else m.local_id.slot j) ∧
      ∀ j, vr.slot j = if h.remote_id = some j then none else m.remote_id.slot j := by
  obtain ⟨vl, hlenl, hslotl, hl₀, hl₁⟩ := clear_slot_spec hl
  obtain ⟨vr, hlenr, hslotr, hr₀, hr₁⟩ := clear_slot_spec hr
  refine ⟨vl, vr, ?_, hlenl, hlenr, hslotl, hslotr⟩
  cases hli : h.local_id with
  | none =>
    cases hri : h.remote_id with
    | none => simp [remove, hd, hli, hri, hl₀ hli, hr₀ hri, drop_handle]
    | some r => simp [remove, hd, hli, hri, hl₀ hli, hr₁ r hri, drop_handle]
  | some i =>
    cases hri : h.remote_id with
    | none => simp [remove, hd, hli, hri, hl₁ i hli, hr₀ hri, drop_handle]
    | some r => simp [remove, hd, hli, hri, hl₁ i hli, hr₁ r hri, drop_handle]

/-! ## Accepting and forwarding -/

/-- The channel that opening a handle with local state `ls` gives, on queue `n`. It shares its
flag with the handle. -/
def opened (h : ChannelHandle) (ls : LocalState) (n : ℕ) : Channel :=
  ⟨some n, n, ls.key, h.discovery_key, ls.local_id, h.closed⟩

/-- The map after opening the handle `h` of `d`: there is one queue more, and the handle sends
into it. -/
def accepted (m : ChannelMap X) (d : DiscoveryKey) (h : ChannelHandle) : ChannelMap X :=
  { m with
    channels := Function.update m.channels d
      (some { h with inbound_tx := some m.shared.inboxes.next })
    shared := m.shared.new_inbox }

/-- What is verified for a connected entry is its key and the remote's capability, whatever id
the remote has now. -/
theorem prepare_to_verify_of_some {i : ℕ} {ls : LocalState} {rs : RemoteState}
    (hs : m.local_id.slot i = some d) (hd : m.channels d = some h) (hl : h.local_state = some ls)
    (hr : h.remote_state = some rs) :
    (prepare_to_verify i).run m = .ok (ls.key, rs.remote_capability) m := by
  simp [prepare_to_verify, get_local, resolve, hs, hd, ChannelHandle.prepare_to_verify,
    ChannelHandle.is_connected, hl, hr]

/-- Accepting a connected entry opens it on a new queue, and cannot fail. -/
theorem accept_of_some {i : ℕ} {ls : LocalState} {rs : RemoteState}
    (hs : m.local_id.slot i = some d) (hd : m.channels d = some h) (hl : h.local_state = some ls)
    (hr : h.remote_state = some rs) :
    (accept i).run m = .ok (opened h ls m.shared.inboxes.next) (m.accepted d h) := by
  simp [accept, hs, hd, ChannelHandle.is_connected, hl, hr, ChannelHandle.open, insert, opened,
    accepted]

/-- Whether a message can be put into queue `n`: the queue exists, and somebody can receive from
it. -/
def receives (m : ChannelMap X) (n : ℕ) : Bool :=
  (m.shared.inboxes.read n).any Inbox.receiver_alive

theorem forward_inbound_message_run (r : ℕ) (msg : Message X) :
    (forward_inbound_message r msg).run m =
      match m.get_remote r with
      | none => .ok () m
      | some h =>
        match h.inbound_tx with
        | none => .error (.err (error "Channel is not open")) m
        | some n =>
          if m.receives n then .ok () { m with shared := m.shared.push n msg }
          else .error (.err (error "Sending to channel failed: sending into a closed channel")) m
        := by
  cases hr : m.get_remote r with
  | none => simp [forward_inbound_message, hr]
  | some h =>
    cases hn : h.inbound_tx with
    | none => simp [forward_inbound_message, hr, ChannelHandle.try_send_inbound, hn]
    | some n =>
      cases ha : m.receives n <;> rw [receives] at ha <;>
        simp [forward_inbound_message, hr, ChannelHandle.try_send_inbound, hn, try_send, receives,
          ha]

theorem forward_tolerate_closed_run (r : ℕ) (msg : Message X) :
    (forward_inbound_message_tolerate_closed r msg).run m =
      match m.get_remote r with
      | none => .ok () m
      | some h =>
        match h.inbound_tx with
        | none => .ok () m
        | some n =>
          if m.receives n then .ok () { m with shared := m.shared.push n msg } else .ok () m := by
  cases hr : m.get_remote r with
  | none => simp [forward_inbound_message_tolerate_closed, hr]
  | some h =>
    cases hn : h.inbound_tx with
    | none =>
      simp [forward_inbound_message_tolerate_closed, hr,
        ChannelHandle.try_send_inbound_tolerate_closed, hn]
    | some n =>
      cases ha : m.receives n <;> rw [receives] at ha <;>
        simp [forward_inbound_message_tolerate_closed, hr,
          ChannelHandle.try_send_inbound_tolerate_closed, hn, try_send, receives, ha]

/-! ## Well-formed maps -/

/-- **The handle `h` fits into the map** as the entry of `d`: it is filed under its own key, its
ids are in the tables, and its cells exist. Well-formedness asks this of all
entries. -/
structure Fits (m : ChannelMap X) (d : DiscoveryKey) (h : ChannelHandle) : Prop where
  /-- It stands under its own discovery key. -/
  keyed : h.discovery_key = d
  /-- Its key is one for that discovery key. -/
  key_of : ∀ {ls}, h.local_state = some ls → discovery_key_of X ls.key = d
  /-- Its local id is in the table and leads back to it. -/
  local_slot : ∀ {i}, h.local_id = some i → 1 ≤ i ∧ m.local_id.slot i = some d
  /-- Its remote id is inside the table. -/
  remote_lt : ∀ {r}, h.remote_id = some r → r < m.remote_id.len
  /-- If it is open, it is attached from both sides. -/
  connected : ∀ {n}, h.inbound_tx = some n → h.is_connected = true
  flag_lt : h.closed < m.shared.flags.next
  inbox_lt : ∀ {n}, h.inbound_tx = some n → n < m.shared.inboxes.next

/-- A handle keeps fitting while its slot is left alone and nothing shrinks. The calls on other
entries are all of this kind. -/
theorem Fits.mono (hf : m.Fits d h)
    (hslot : ∀ i, m.local_id.slot i = some d → m'.local_id.slot i = some d)
    (hremote : m.remote_id.len ≤ m'.remote_id.len)
    (hflags : m.shared.flags.next ≤ m'.shared.flags.next)
    (hinboxes : m.shared.inboxes.next ≤ m'.shared.inboxes.next) : m'.Fits d h where
  keyed := hf.keyed
  key_of := hf.key_of
  local_slot hi := ⟨(hf.local_slot hi).1, hslot _ (hf.local_slot hi).2⟩
  remote_lt hr := Nat.lt_of_lt_of_le (hf.remote_lt hr) hremote
  connected := hf.connected
  flag_lt := Nat.lt_of_lt_of_le hf.flag_lt hflags
  inbox_lt hn := Nat.lt_of_lt_of_le (hf.inbox_lt hn) hinboxes

/-- The invariant of every map the methods build: all entries fit, and no two share
a flag or a queue. -/
structure Wf (m : ChannelMap X) : Prop where
  local_pos : 1 ≤ m.local_id.len
  fits : ∀ {d h}, m.channels d = some h → m.Fits d h
  flag_inj : ∀ {d h d' h'}, m.channels d = some h → m.channels d' = some h' →
    h.closed = h'.closed → d = d'
  inbox_inj : ∀ {d h d' h' n}, m.channels d = some h → m.channels d' = some h' →
    h.inbound_tx = some n → h'.inbound_tx = some n → d = d'

theorem wf_new : (new : ChannelMap X).Wf where
  local_pos := Nat.le_refl 1
  fits hd := nomatch hd
  flag_inj hd := nomatch hd
  inbox_inj hd := nomatch hd

theorem update_some_iff {f : DiscoveryKey → Option ChannelHandle} {h₀ h' : ChannelHandle}
    {d d' : DiscoveryKey} :
    Function.update f d (some h₀) d' = some h' ↔
      (d' = d ∧ h₀ = h') ∨ (d' ≠ d ∧ f d' = some h') := by
  by_cases hd : d' = d
  · subst hd
    simp
  · simp [hd]

theorem update_none_iff {f : DiscoveryKey → Option ChannelHandle} {h' : ChannelHandle}
    {d d' : DiscoveryKey} :
    Function.update f d none d' = some h' ↔ d' ≠ d ∧ f d' = some h' := by
  by_cases hd : d' = d
  · subst hd
    simp
  · simp [hd]

/-- The rule for a method that gives `d` the handle `h` and leaves the other entries:
the new handle has to fit, and its flag and queue must not be another entry's. -/
theorem Wf.replace (hm : m.Wf) (hchannels : m'.channels = Function.update m.channels d (some h))
    (hpos : 1 ≤ m'.local_id.len) (hfits : m'.Fits d h)
    (hothers : ∀ {d' h'}, d' ≠ d → m.channels d' = some h' → m'.Fits d' h')
    (hflag : ∀ {d' h'}, d' ≠ d → m.channels d' = some h' → h'.closed ≠ h.closed)
    (hinbox : ∀ {d' h' n}, d' ≠ d → m.channels d' = some h' → h'.inbound_tx = some n →
      h.inbound_tx ≠ some n) : m'.Wf := by
  -- every entry of the new map is the new one or an old one; two of them are compared
  -- case by case
  have hcases : ∀ {d' h'}, m'.channels d' = some h' →
      (d' = d ∧ h = h') ∨ (d' ≠ d ∧ m.channels d' = some h') := by
    intro d' h' hd'
    rw [hchannels] at hd'
    exact update_some_iff.mp hd'
  refine ⟨hpos, fun {d' h'} hd' => ?_, fun {d₁ h₁ d₂ h₂} hd₁ hd₂ heq => ?_,
    fun {d₁ h₁ d₂ h₂ n} hd₁ hd₂ hn₁ hn₂ => ?_⟩
  · rcases hcases hd' with ⟨rfl, rfl⟩ | ⟨hne, hd'⟩
    · exact hfits
    · exact hothers hne hd'
  · rcases hcases hd₁ with ⟨e₁, e₁'⟩ | ⟨hne₁, hd₁⟩ <;>
      rcases hcases hd₂ with ⟨e₂, e₂'⟩ | ⟨hne₂, hd₂⟩
    · rw [e₁, e₂]
    · rw [← e₁'] at heq
      exact absurd heq.symm (hflag hne₂ hd₂)
    · rw [← e₂'] at heq
      exact absurd heq (hflag hne₁ hd₁)
    · exact hm.flag_inj hd₁ hd₂ heq
  · rcases hcases hd₁ with ⟨e₁, e₁'⟩ | ⟨hne₁, hd₁⟩ <;>
      rcases hcases hd₂ with ⟨e₂, e₂'⟩ | ⟨hne₂, hd₂⟩
    · rw [e₁, e₂]
    · rw [← e₁'] at hn₁
      exact absurd hn₁ (hinbox hne₂ hd₂ hn₂)
    · rw [← e₂'] at hn₂
      exact absurd hn₂ (hinbox hne₁ hd₁ hn₁)
    · exact hm.inbox_inj hd₁ hd₂ hn₁ hn₂

/-- Only the number of cells matters, not what is in them: no invariant of the map speaks of a
flag or of a message. -/
theorem Wf.with_shared (hm : m.Wf) {shared : Shared X}
    (hflags : shared.flags.next = m.shared.flags.next)
    (hinboxes : shared.inboxes.next = m.shared.inboxes.next) :
    ({ m with shared := shared } : ChannelMap X).Wf where
  local_pos := hm.local_pos
  fits hd := (hm.fits hd).mono (fun _ h => h) (Nat.le_refl _) (Nat.le_of_eq hflags.symm)
    (Nat.le_of_eq hinboxes.symm)
  flag_inj hd := hm.flag_inj hd
  inbox_inj hd := hm.inbox_inj hd

theorem Wf.push (hm : m.Wf) (n : ℕ) (msg : Message X) :
    ({ m with shared := m.shared.push n msg } : ChannelMap X).Wf :=
  hm.with_shared rfl (Arena.next_update _ _ _)

/-! ### Attaching keeps maps well-formed -/

theorem entered_inboxes (m : ChannelMap X) (d : DiscoveryKey) :
    (m.entered d).inboxes = m.shared.inboxes := by
  rw [entered]
  split <;> rfl

theorem le_entered_flags (m : ChannelMap X) (d : DiscoveryKey) :
    m.shared.flags.next ≤ (m.entered d).flags.next := by
  rw [entered]
  split
  · exact Nat.le_refl _
  · exact Nat.le_of_lt (by simp [Shared.new_flag])

/-- A flag that is there keeps its value when a handle is made, which gets a new one. -/
theorem read_entered {n : ℕ} (hn : n < m.shared.flags.next) (d : DiscoveryKey) :
    (m.entered d).flags.read n = m.shared.flags.read n := by
  rw [entered]
  split
  · rfl
  · exact Arena.read_alloc_of_lt hn false

/-- What is known of the handle of `d`, whether it is there already or made new: it fits, once
the cell of its flag is counted. -/
theorem Wf.fits_entry (hm : m.Wf) (d : DiscoveryKey) :
    ({ m with shared := m.entered d } : ChannelMap X).Fits d (m.entry d) := by
  cases hd : m.channels d with
  | some h =>
    rw [entry_of_some hd, entered_of_some hd]
    exact hm.fits hd
  | none =>
    rw [entry_of_none hd, entered_of_none hd]
    exact ⟨rfl, (fun hls => nomatch hls), (fun hi => nomatch hi), (fun hr => nomatch hr),
      (fun hn => nomatch hn), by simp [Shared.new_flag], fun hn => nomatch hn⟩

theorem Wf.entry_flag (hm : m.Wf) {d' : DiscoveryKey} {h' : ChannelHandle} (hne : d' ≠ d)
    (hd' : m.channels d' = some h') : h'.closed ≠ (m.entry d).closed := by
  intro heq
  cases hd : m.channels d with
  | some h =>
    rw [entry_of_some hd] at heq
    exact hne (hm.flag_inj hd' hd heq)
  | none =>
    rw [entry_of_none hd] at heq
    exact Nat.ne_of_lt (hm.fits hd').flag_lt heq

theorem Wf.entry_inbox (hm : m.Wf) {d' : DiscoveryKey} {h' : ChannelHandle} {n : ℕ} (hne : d' ≠ d)
    (hd' : m.channels d' = some h') (hn : h'.inbound_tx = some n) :
    (m.entry d).inbound_tx ≠ some n := by
  intro heq
  cases hd : m.channels d with
  | some h =>
    rw [entry_of_some hd] at heq
    exact hne (hm.inbox_inj hd' hd hn heq)
  | none =>
    rw [entry_of_none hd] at heq
    exact nomatch heq

/-- A map after `attach_local`, see `attach_local_spec`. Other entries keep their slots, since
the id was free. -/
theorem Wf.attached_local (hm : m.Wf) {key : Key} {i : ℕ} {v : Vec (Option DiscoveryKey)}
    (hkey : discovery_key_of X key = d) (hi : 1 ≤ i) (hlen : m.local_id.len ≤ v.len)
    (hfree : m.local_id.slot i = none)
    (hslot : ∀ j, v.slot j = if j = i then some d else m.local_id.slot j) :
    (⟨Function.update m.channels d (some ((m.entry d).attach_local i key)), v, m.remote_id,
      m.entered d⟩ : ChannelMap X).Wf := by
  have hf := hm.fits_entry d
  refine hm.replace rfl (Nat.le_trans hm.local_pos hlen) ?_ ?_ hm.entry_flag hm.entry_inbox
  · refine ⟨hf.keyed, ?_, ?_, hf.remote_lt, ?_, hf.flag_lt, hf.inbox_lt⟩
    · intro ls hls
      rw [← Option.some.inj hls]
      exact hkey
    · intro j hj
      obtain rfl : i = j := Option.some.inj hj
      exact ⟨hi, by rw [hslot, if_pos rfl]⟩
    · intro n hn
      have hc := hf.connected hn
      simp only [ChannelHandle.is_connected, Bool.and_eq_true] at hc ⊢
      exact ⟨rfl, hc.2⟩
  · intro d' h' hne hd'
    refine (hm.fits hd').mono (fun j hj => ?_) (Nat.le_refl _) (le_entered_flags m d)
      (by rw [entered_inboxes])
    -- the slot that was taken was free, so it is not the one of `d'`
    rw [hslot, if_neg]
    · exact hj
    · rintro rfl
      rw [hfree] at hj
      exact nomatch hj

/-- A map after `attach_remote`, see `attach_remote_spec`. The remote slots are not part of
well-formedness: the remote may give an id twice. -/
theorem Wf.attached_remote (hm : m.Wf) {r : ℕ} {cap : Option (Vec UInt8)}
    {v : Vec (Option DiscoveryKey)} (hr : r < v.len) (hlen : m.remote_id.len ≤ v.len) :
    (⟨Function.update m.channels d (some ((m.entry d).attach_remote r cap)), m.local_id, v,
      m.entered d⟩ : ChannelMap X).Wf := by
  have hf := hm.fits_entry d
  refine hm.replace rfl hm.local_pos ?_ ?_ hm.entry_flag hm.entry_inbox
  · refine ⟨hf.keyed, hf.key_of, hf.local_slot, ?_, ?_, hf.flag_lt, hf.inbox_lt⟩
    · intro j hj
      obtain rfl : r = j := Option.some.inj hj
      exact hr
    · intro n hn
      have hc := hf.connected hn
      simp only [ChannelHandle.is_connected, Bool.and_eq_true] at hc ⊢
      exact ⟨hc.1, rfl⟩
  · intro d' h' hne hd'
    exact (hm.fits hd').mono (fun _ hj => hj) hlen (le_entered_flags m d)
      (by rw [entered_inboxes])

/-! ### Removing and accepting keep maps well-formed -/

theorem Wf.local_lt (hm : m.Wf) (hd : m.channels d = some h) {i : ℕ} (hi : h.local_id = some i) :
    i < m.local_id.len :=
  Vec.lt_len_of_slot ((hm.fits hd).local_slot hi).2

/-- A map after `remove`, see `remove_of_some`. No other entry had its local slot there, so that
none loses it. -/
theorem Wf.removed (hm : m.Wf) (hd : m.channels d = some h) {vl vr : Vec (Option DiscoveryKey)}
    (hlenl : vl.len = m.local_id.len) (hlenr : vr.len = m.remote_id.len)
    (hslot : ∀ j, vl.slot j = if h.local_id = some j then none else m.local_id.slot j) :
    (⟨Function.update m.channels d none, vl, vr, m.shared.store_true h.closed⟩ :
      ChannelMap X).Wf := by
  refine ⟨by rw [hlenl]; exact hm.local_pos, fun {d' h'} hd' => ?_,
    fun hd₁ hd₂ => hm.flag_inj (update_none_iff.mp hd₁).2 (update_none_iff.mp hd₂).2,
    fun hd₁ hd₂ => hm.inbox_inj (update_none_iff.mp hd₁).2 (update_none_iff.mp hd₂).2⟩
  obtain ⟨hne, hd'⟩ := update_none_iff.mp hd'
  refine (hm.fits hd').mono (fun j hj => ?_) (Nat.le_of_eq hlenr.symm)
    (Nat.le_of_eq (Arena.next_update _ _ _).symm) (Nat.le_refl _)
  -- the slot that was cleared belonged to `d`
  rw [hslot, if_neg]
  · exact hj
  · intro hl
    rw [((hm.fits hd).local_slot hl).2] at hj
    exact hne (Option.some.inj hj).symm

theorem Wf.accepted (hm : m.Wf) (hd : m.channels d = some h) (hc : h.is_connected = true) :
    (m.accepted d h).Wf := by
  have hf := hm.fits hd
  have hnext : (m.accepted d h).shared.inboxes.next = m.shared.inboxes.next + 1 :=
    Arena.next_alloc _ _
  refine hm.replace rfl hm.local_pos ?_ ?_ ?_ ?_
  · refine ⟨hf.keyed, hf.key_of, hf.local_slot, hf.remote_lt, fun _ => hc, hf.flag_lt, ?_⟩
    intro n hn
    obtain rfl : m.shared.inboxes.next = n := Option.some.inj hn
    rw [hnext]
    exact Nat.lt_succ_self _
  · intro d' h' hne hd'
    refine (hm.fits hd').mono (fun _ hj => hj) (Nat.le_refl _) (Nat.le_refl _) ?_
    rw [hnext]
    exact Nat.le_succ _
  · intro d' h' hne hd' heq
    exact hne (hm.flag_inj hd' hd heq)
  · intro d' h' n hne hd' hn heq
    obtain rfl : m.shared.inboxes.next = n := Option.some.inj heq
    exact Nat.lt_irrefl _ ((hm.fits hd').inbox_lt hn)

end ChannelMap

/-! ## The content of the inbound queues -/

/-- The messages in the queue `n` of a channel, none if there is no such queue. What waits is
compared by this in several modules. -/
def inbox_queue (m : ChannelMap X) (n : ℕ) : List (Message X) :=
  ((m.shared.inboxes.read n).map Inbox.queue).getD []

theorem receives_lt {n : ℕ} (h : m.receives n = true) : n < m.shared.inboxes.next := by
  by_contra hn
  rw [ChannelMap.receives, Arena.read_of_next_le (Nat.le_of_not_lt hn)] at h
  cases h

/-- A queue that is made new is empty, so that accepting an entry changes no queue. -/
theorem inbox_queue_accepted (m : ChannelMap X) (d : DiscoveryKey) (h : ChannelHandle) (n : ℕ) :
    inbox_queue (m.accepted d h) n = inbox_queue m n := by
  rw [inbox_queue, inbox_queue]
  show (((m.shared.inboxes.alloc ⟨[], true⟩).read n).map Inbox.queue).getD [] = _
  rw [Arena.read_alloc]
  split
  · rename_i hn
    rw [hn, Arena.read_of_next_le (Nat.le_refl _)]
    rfl
  · rfl

theorem inbox_queue_push {k : ℕ} (hk : k < m.shared.inboxes.next) (msg : Message X) (n : ℕ) :
    inbox_queue { m with shared := m.shared.push k msg } n =
      inbox_queue m n ++ if k = n then [msg] else [] := by
  obtain ⟨b, hb⟩ := Arena.exists_read hk
  rw [inbox_queue, inbox_queue]
  show (((m.shared.inboxes.update k _).read n).map Inbox.queue).getD [] = _
  by_cases hn : k = n
  · subst hn
    rw [if_pos rfl, Arena.read_update_self, hb]
    rfl
  · rw [if_neg hn, Arena.read_update_of_ne (Ne.symm hn), List.append_nil]

/-- Something else is done to a queue that is there, such as taking its first message. -/
theorem inbox_queue_update {n : ℕ} {b : Inbox X} (hb : m.shared.inboxes.read n = some b)
    (f : Inbox X → Inbox X) :
    inbox_queue { m with shared := { m.shared with inboxes := m.shared.inboxes.update n f } } n
      = (f b).queue := by
  rw [inbox_queue]
  show ((m.shared.inboxes.update n f).read n |>.map Inbox.queue).getD [] = _
  rw [Arena.read_update_self, hb]
  rfl

end hypercore_protocol.channels
