/-
Histories of a channel map.

A run applies `attach_local`, `attach_remote` and `remove` in any order to the
empty map. `map_step_cases` says what one call can do to a well-formed map, and
the invariants over runs are read off it.

Remote ids are chosen by the remote and written into the table without looking,
so whether they stay resolvable depends on the history:
`remote_ids_resolve_iff` gives the exact condition. Local ids are chosen here, and
`local_ids_resolve` needs none. Attaching an entry to a second id does not free
the slot of its first; `no_stale_slots_iff` says when that happens.
-/
import HypercoreProtocol.ChannelMapSpec

set_option autoImplicit false

namespace hypercore_protocol.channels

open Rust Runs compact_encoding

variable {X : Deps} {m m' : ChannelMap X}

/-- The calls that change the entries or the id tables. The other calls only read, or touch the
shared cells. -/
inductive MapOp where
  | attach_local (key : Key)
  | attach_remote (discovery_key : DiscoveryKey) (remote_id : ℕ) (capability : Option (Vec UInt8))
  | remove (discovery_key : DiscoveryKey)

/-- The method a call runs. The handle that the attaching calls return is not looked at here. -/
def MapOp.call : MapOp → MapMethod X Unit
  | .attach_local key => do
    let _ ← ChannelMap.attach_local key
    return ()
  | .attach_remote discovery_key remote_id capability => do
    let _ ← ChannelMap.attach_remote discovery_key remote_id capability
    return ()
  | .remove discovery_key => ChannelMap.remove discovery_key

/-- A call that comes back takes the map to `m'`. Calls that panic are no steps, and none of
these returns an error. -/
def map_step (m : ChannelMap X) (op : MapOp) (m' : ChannelMap X) : Prop :=
  Method.Leaves op.call m m'

/-- **Everything a call can do to a well-formed map.** The tables are described by their slots,
so that proofs about runs need nothing of how a call computes them. -/
inductive MapEffect (m : ChannelMap X) : MapOp → ChannelMap X → Prop where
  | attached_local {key : Key} {d : DiscoveryKey} {i : ℕ} {v : Vec (Option DiscoveryKey)}
      (hkey : discovery_key_of X key = d) (hi : 1 ≤ i) (hlen : m.local_id.len ≤ v.len)
      (hfree : m.local_id.slot i = none)
      (hslot : ∀ j, v.slot j = if j = i then some d else m.local_id.slot j)
      (hroom : m.HasRoom)
      (hmax : m.local_id.len ≤ Vec.max_len SLOT_SIZE → v.len ≤ Vec.max_len SLOT_SIZE) :
      MapEffect m (.attach_local key)
        ⟨Function.update m.channels d (some ((m.entry d).attach_local i key)), v, m.remote_id,
          m.entered d⟩
  | attached_remote {d : DiscoveryKey} {r : ℕ} {cap : Option (Vec UInt8)}
      {v : Vec (Option DiscoveryKey)} (hr : r < v.len) (hlen : m.remote_id.len ≤ v.len)
      (hslot : ∀ j, v.slot j = if j = r then some d else m.remote_id.slot j)
      (htakes : m.TakesRemote r) (hgrow : v.len = max m.remote_id.len (r + 1)) :
      MapEffect m (.attach_remote d r cap)
        ⟨Function.update m.channels d (some ((m.entry d).attach_remote r cap)), m.local_id, v,
          m.entered d⟩
  | absent {d : DiscoveryKey} (hd : m.channels d = none) : MapEffect m (.remove d) m
  | removed {d : DiscoveryKey} {h : ChannelHandle} {vl vr : Vec (Option DiscoveryKey)}
      (hd : m.channels d = some h) (hlenl : vl.len = m.local_id.len)
      (hlenr : vr.len = m.remote_id.len)
      (hslotl : ∀ j, vl.slot j = if h.local_id = some j then none else m.local_id.slot j)
      (hslotr : ∀ j, vr.slot j = if h.remote_id = some j then none else m.remote_id.slot j) :
      MapEffect m (.remove d)
        ⟨Function.update m.channels d none, vl, vr, m.shared.store_true h.closed⟩

theorem map_step_cases {op : MapOp} (hm : m.Wf) (h : map_step m op m') : MapEffect m op m' := by
  cases op with
  | attach_local key =>
    rcases ChannelMap.attach_local_spec hm.local_pos key with
      ⟨i, v, hrun, hi, hlen, hfree, hslot, hroom, hmax⟩ | ⟨-, hrun⟩
    · rw [Method.leaves_of_run_ok (Method.run_discard_ok hrun) h]
      exact .attached_local rfl hi hlen hfree hslot hroom hmax
    · exact absurd h (Method.not_leaves_of_panic (Method.run_discard_error hrun))
  | attach_remote d r cap =>
    rcases ChannelMap.attach_remote_spec (m := m) d r cap with
      ⟨v, hrun, hr, hlen, hslot, htakes, hgrow⟩ | ⟨-, -, hrun⟩ | ⟨-, hrun⟩
    · rw [Method.leaves_of_run_ok (Method.run_discard_ok hrun) h]
      exact .attached_remote hr hlen hslot htakes hgrow
    · exact absurd h (Method.not_leaves_of_panic (Method.run_discard_error hrun))
    · exact absurd h (Method.not_leaves_of_panic (Method.run_discard_error hrun))
  | remove d =>
    cases hd : m.channels d with
    | none =>
      rw [Method.leaves_of_run_ok (ChannelMap.remove_of_none hd) h]
      exact .absent hd
    | some c =>
      -- a well-formed map has both slots of the entry, so `remove` does not index out of bounds
      obtain ⟨vl, vr, hrun, hlenl, hlenr, hslotl, hslotr⟩ := ChannelMap.remove_of_some hd
        (fun i hi => hm.local_lt hd hi) (fun r hr => (hm.fits hd).remote_lt hr)
      rw [Method.leaves_of_run_ok hrun h]
      exact .removed hd hlenl hlenr hslotl hslotr

/-- Calls keep a map well-formed, and so do runs of them. -/
theorem MapEffect.wf {op : MapOp} (h : MapEffect m op m') (hm : m.Wf) : m'.Wf := by
  cases h with
  | attached_local hkey hi hlen hfree hslot => exact hm.attached_local hkey hi hlen hfree hslot
  | attached_remote hr hlen hslot => exact hm.attached_remote hr hlen
  | absent => exact hm
  | removed hd hlenl hlenr hslotl hslotr => exact hm.removed hd hlenl hlenr hslotl

/-- Attaching an entry locally leaves what the remote has told: the two sides of a handle are
apart. -/
theorem attached_local_keeps {key : Key} {e e' : ChannelHandle} {rs : RemoteState}
    (hd : m.channels (discovery_key_of X key) = some e) (hr : e.remote_state = some rs)
    (h : MapEffect m (.attach_local key) m')
    (hd' : m'.channels (discovery_key_of X key) = some e') : e'.remote_state = some rs := by
  cases h with
  | attached_local hkey =>
    subst hkey
    rcases ChannelMap.update_some_iff.mp hd' with ⟨-, rfl⟩ | ⟨hne, -⟩
    · rw [ChannelMap.entry_of_some hd]
      exact hr
    · exact absurd rfl hne

/-- Attaching an entry remotely leaves what was attached locally. The key comes as the
bytes of an `Open`, which name one entry. -/
theorem attached_remote_keeps {k : Wire.Bytes} {d d' : DiscoveryKey} {r : ℕ}
    {cap : Option (Vec UInt8)} {e e' : ChannelHandle} {ls : LocalState}
    (hd : m.channels d = some e) (hl : e.local_state = some ls) (hk : k = d.val)
    (hk' : k = d'.val) (h : MapEffect m (.attach_remote d' r cap) m')
    (hd' : m'.channels d' = some e') : d' = d ∧ e'.local_state = some ls := by
  obtain rfl : d' = d := Subtype.ext (hk'.symm.trans hk)
  refine ⟨rfl, ?_⟩
  cases h with
  | attached_remote =>
    rcases ChannelMap.update_some_iff.mp hd' with ⟨-, rfl⟩ | ⟨hne, -⟩
    · rw [ChannelMap.entry_of_some hd]
      exact hl
    · exact absurd rfl hne

/-! ## Remote ids -/

/-- The entry with remote id `r` is the one `get_remote` finds under `r`. A message of the remote
then reaches the entry it was meant for. -/
def RemoteIdsResolve (m : ChannelMap X) : Prop :=
  ∀ d h r, m.channels d = some h → h.remote_id = some r → m.get_remote r = some h

/-- In a well-formed map that is a matter of the slot, since an entry is found by its key. -/
theorem get_remote_iff_slot (hm : m.Wf) {d : DiscoveryKey} {h : ChannelHandle}
    (hd : m.channels d = some h) (r : ℕ) :
    m.get_remote r = some h ↔ m.remote_id.slot r = some d := by
  rw [ChannelMap.get_remote, ChannelMap.resolve, Option.bind_eq_some_iff]
  constructor
  · rintro ⟨d', hslot, hd'⟩
    rw [hslot, ← (hm.fits hd').keyed, (hm.fits hd).keyed]
  · intro hslot
    exact ⟨d, hslot, hd⟩

theorem remote_ids_resolve_iff_slots (hm : m.Wf) :
    RemoteIdsResolve m ↔
      ∀ d h r, m.channels d = some h → h.remote_id = some r → m.remote_id.slot r = some d := by
  constructor
  · intro hres d h r hd hr
    exact (get_remote_iff_slot hm hd r).mp (hres d h r hd hr)
  · intro hslots d h r hd hr
    exact (get_remote_iff_slot hm hd r).mpr (hslots d h r hd hr)

/-- An `attach_remote` whose id no other entry has. The remote chooses its ids, and nothing
checks this. -/
def ClaimsFreeId (t : Transition (ChannelMap X) MapOp) : Prop :=
  ∀ d r cap, t.act = .attach_remote d r cap →
    ∀ d' h', d' ≠ d → t.pre.channels d' = some h' → h'.remote_id ≠ some r

/-- One call on a map whose remote ids resolve: they still do exactly when it does
not attach an id that another entry has. -/
theorem MapEffect.keeps_resolving_iff {op : MapOp} (h : MapEffect m op m') (hm : m.Wf)
    (hres : RemoteIdsResolve m) : RemoteIdsResolve m' ↔ ClaimsFreeId ⟨m, op, m'⟩ := by
  rw [remote_ids_resolve_iff_slots (h.wf hm)]
  rw [remote_ids_resolve_iff_slots hm] at hres
  cases h with
  | attached_local hkey hi hlen hfree hslot hroom hmax =>
    rename_i key d i v
    refine iff_of_true (fun d' h' r hd' hr => ?_) (fun _ _ _ hact => nomatch hact)
    rcases ChannelMap.update_some_iff.mp hd' with ⟨rfl, rfl⟩ | ⟨-, hd'⟩
    · cases hd : m.channels d' with
      | some c =>
        rw [ChannelMap.entry_of_some hd] at hr
        exact hres _ c r hd hr
      | none =>
        rw [ChannelMap.entry_of_none hd] at hr
        exact nomatch hr
    · exact hres d' h' r hd' hr
  | attached_remote hr hlen hslot htakes hgrow =>
    rename_i d r cap v
    constructor
    · rintro hres' d₀ r₀ cap₀ hact d' h' hne hd' hr'
      obtain ⟨rfl, rfl, rfl⟩ := MapOp.attach_remote.inj hact
      -- the other entry is untouched, and its slot now names `d`
      have hnew := hres' d' h' r (ChannelMap.update_some_iff.mpr (Or.inr ⟨hne, hd'⟩)) hr'
      rw [hslot, if_pos rfl] at hnew
      exact hne (Option.some.inj hnew).symm
    · intro hfree d' h' j hd' hj
      rw [hslot]
      rcases ChannelMap.update_some_iff.mp hd' with ⟨rfl, rfl⟩ | ⟨hne, hold⟩
      · rw [if_pos (Option.some.inj hj).symm]
      · rw [if_neg, hres d' h' j hold hj]
        rintro rfl
        exact hfree d j cap rfl d' h' hne hold hj
  | absent hd =>
    exact iff_of_true hres fun _ _ _ hact => nomatch hact
  | removed hd hlenl hlenr hslotl hslotr =>
    rename_i d c vl vr
    refine iff_of_true (fun d' h' r hd' hr => ?_) (fun _ _ _ hact => nomatch hact)
    obtain ⟨hne, hd'⟩ := ChannelMap.update_none_iff.mp hd'
    rw [hslotr, if_neg, hres d' h' r hd' hr]
    intro hc
    have hslot := hres d c r hd hc
    rw [hres d' h' r hd' hr] at hslot
    exact hne (Option.some.inj hslot)

/-- Over a whole history, remote ids resolve at every point exactly when no call
ever attached an id that another entry had. -/
theorem remote_ids_resolve_iff {tr : List (Transition (ChannelMap X) MapOp)}
    (run : Run map_step ChannelMap.new tr m) :
    (∀ t ∈ tr, RemoteIdsResolve t.post) ↔ ∀ t ∈ tr, ClaimsFreeId t := by
  refine run.forall_post_iff ChannelMap.wf_new (fun _ _ _ hd => nomatch hd) ?_ ?_
  · intro m op m' h hm
    exact (map_step_cases hm h).wf hm
  · intro m op m' h hm hres
    exact (map_step_cases hm h).keeps_resolving_iff hm hres

/-- Two keys on two ids: all resolve. -/
theorem remote_ids_resolve_iff_two_ids :
    ∃ tr m, Run map_step (ChannelMap.new : ChannelMap deps) tr m ∧ tr.length = 2 ∧
      ∀ t ∈ tr, RemoteIdsResolve t.post := by
  have run₁ : Run map_step (ChannelMap.new : ChannelMap deps) _ _ :=
    .snoc (a := .attach_remote (sample 1) 1 none) .nil (Or.inl ⟨(), rfl⟩)
  have run : Run map_step (ChannelMap.new : ChannelMap deps) _ _ :=
    run₁.snoc (a := .attach_remote (sample 2) 2 none) (Or.inl ⟨(), rfl⟩)
  refine ⟨_, _, run, rfl, (remote_ids_resolve_iff run).mpr ?_⟩
  simp only [List.nil_append, List.cons_append, List.forall_mem_cons]
  refine ⟨?_, ?_, fun t ht => absurd ht List.not_mem_nil⟩
  · rintro d r cap - d' h' - hd'
    cases hd'
  · rintro d r cap hact d' h' - hd'
    obtain ⟨-, rfl, -⟩ := MapOp.attach_remote.inj hact
    rcases ChannelMap.update_some_iff.mp hd' with ⟨-, rfl⟩ | ⟨-, hd'⟩
    · decide
    · cases hd'

/-- Two keys on one id: the first entry still claims the id, which now leads to the
second, and once the second is removed it leads nowhere. -/
theorem remote_id_taken_over :
    ∃ tr m, Run map_step (ChannelMap.new : ChannelMap deps) tr m ∧
      (m.channels (sample 1)).map ChannelHandle.remote_id = some (some 1) ∧
      (m.get_remote 1).map ChannelHandle.discovery_key = some (sample 2) ∧
      ∃ m', map_step m (.remove (sample 2)) m' ∧
        (m'.channels (sample 1)).map ChannelHandle.remote_id = some (some 1) ∧
        (m'.get_remote 1).isNone := by
  refine ⟨_, _, .snoc (a := .attach_remote (sample 2) 1 none)
    (.snoc (a := .attach_remote (sample 1) 1 none) .nil (Or.inl ⟨(), rfl⟩)) (Or.inl ⟨(), rfl⟩),
    ?_, ?_, _, Or.inl ⟨(), rfl⟩, ?_, ?_⟩
  all_goals decide

/-! ## Local ids -/

theorem reachable_wf {tr : List (Transition (ChannelMap X) MapOp)}
    (run : Run map_step ChannelMap.new tr m) : m.Wf :=
  run.invariant (I := fun _ m => m.Wf) ChannelMap.wf_new
    fun _ _ _ _ _ hm h => (map_step_cases hm h).wf hm

/-- The local ids of a map: each leads to its entry, none of them is 0, no two entries
have the same one on the wire, and a new one is none of them. -/
theorem local_ids_resolve {tr : List (Transition (ChannelMap X) MapOp)}
    (run : Run map_step ChannelMap.new tr m) :
    (∀ d h i, m.channels d = some h → h.local_id = some i → 1 ≤ i ∧ m.get_local i = some h) ∧
    (∀ d h i d' h' i', m.channels d = some h → h.local_id = some i →
      m.channels d' = some h' → h'.local_id = some i' → UInt64.ofNat i = UInt64.ofNat i' →
      d = d') ∧
    ∀ i m', ChannelMap.alloc_local.run m = .ok i m' →
      1 ≤ i ∧ ∀ d h, m.channels d = some h → h.local_id ≠ some i := by
  have hm := reachable_wf run
  refine ⟨fun d h i hd hi => ?_, fun d h i d' h' i' hd hi hd' hi' heq => ?_, fun i m' halloc => ?_⟩
  · obtain ⟨hpos, hslot⟩ := (hm.fits hd).local_slot hi
    exact ⟨hpos, Option.bind_eq_some_iff.mpr ⟨d, hslot, hd⟩⟩
  · -- the table is too short for two ids to be the same number of 64 bits
    have hlt : ∀ {d h i}, m.channels d = some h → h.local_id = some i → i < UInt64.size :=
      fun hd hi => Nat.lt_of_lt_of_le (hm.local_lt hd hi)
        (Nat.le_trans m.local_id.len_le (by decide))
    have hids : i = i' := by
      rw [← UInt64.toNat_ofNat_of_lt' (hlt hd hi), heq, UInt64.toNat_ofNat_of_lt' (hlt hd' hi')]
    subst hids
    exact Option.some.inj (((hm.fits hd).local_slot hi).2.symm.trans
      ((hm.fits hd').local_slot hi').2)
  · rcases ChannelMap.alloc_local_spec hm.local_pos with
      ⟨j, v, hrun, hpos, -, -, hfree, -⟩ | ⟨-, hrun⟩
    · rw [hrun] at halloc
      injection halloc with hj _
      subst hj
      -- the slot of an entry is taken, the slot of a new id was not
      refine ⟨hpos, fun d h hd hi => ?_⟩
      exact nomatch hfree.symm.trans ((hm.fits hd).local_slot hi).2
    · rw [hrun] at halloc
      exact nomatch halloc

/-- A key attached twice, next to another one: its second id is 3, and the next one 4. -/
theorem local_ids_resolve_attached_twice :
    ∃ tr m, Run map_step (ChannelMap.new : ChannelMap deps) tr m ∧ tr.length = 3 ∧
      (∃ h, m.channels (discovery_key_of deps (sample 1)) = some h ∧ m.get_local 3 = some h) ∧
      ∃ m', ChannelMap.alloc_local.run m = .ok 4 m' := by
  have run₁ : Run map_step (ChannelMap.new : ChannelMap deps) _ _ :=
    .snoc (a := .attach_local (sample 1)) .nil (Or.inl ⟨(), rfl⟩)
  have run₂ := run₁.snoc (a := .attach_local (sample 2)) (Or.inl ⟨(), rfl⟩)
  have run₃ := run₂.snoc (a := .attach_local (sample 1)) (Or.inl ⟨(), rfl⟩)
  obtain ⟨tr, m, run, hlen, hid, hnext⟩ : ∃ tr m,
      Run map_step (ChannelMap.new : ChannelMap deps) tr m ∧ tr.length = 3 ∧
      (m.channels (discovery_key_of deps (sample 1))).bind ChannelHandle.local_id = some 3 ∧
      ∃ m', ChannelMap.alloc_local.run m = .ok 4 m' := ⟨_, _, run₃, rfl, by decide, _, rfl⟩
  obtain ⟨h, hd, hl⟩ := Option.bind_eq_some_iff.mp hid
  exact ⟨tr, m, run, hlen, ⟨h, hd, ((local_ids_resolve run).1 _ h 3 hd hl).2⟩, hnext⟩

/-! ## Stale slots -/

/-- Every slot in use names an entry that has the id of the slot. A stale slot leads a message,
or a `Close`, to an entry that is now known by another id. -/
structure NoStaleSlots (m : ChannelMap X) : Prop where
  local_slot : ∀ i d, m.local_id.slot i = some d →
    ∃ h, m.channels d = some h ∧ h.local_id = some i
  remote_slot : ∀ r d, m.remote_id.slot r = some d →
    ∃ h, m.channels d = some h ∧ h.remote_id = some r

/-- A call that attaches no entry to a second id while a slot still leads to it by its
first. Local ids always have their slot. -/
def GivesUpNoId (t : Transition (ChannelMap X) MapOp) : Prop :=
  (∀ key h, t.act = .attach_local key → t.pre.channels (discovery_key_of X key) = some h →
    h.local_id = none) ∧
  ∀ d r cap h r', t.act = .attach_remote d r cap → t.pre.channels d = some h →
    h.remote_id = some r' → r' ≠ r → t.pre.remote_id.slot r' ≠ some d

section Fresh

variable {slot slot' : ℕ → Option DiscoveryKey}
  {channels : DiscoveryKey → Option ChannelHandle} {id : ChannelHandle → Option ℕ}
  {d : DiscoveryKey} {h : ChannelHandle} {i : ℕ}

/-- One table without stale slots: every slot in use names an entry that has the id of the
slot. The two tables of a map differ in which id this is, so what a call does to a table is
said for either. -/
def Fresh (slot : ℕ → Option DiscoveryKey) (channels : DiscoveryKey → Option ChannelHandle)
    (id : ChannelHandle → Option ℕ) : Prop :=
  ∀ i d, slot i = some d → ∃ h, channels d = some h ∧ id h = some i

/-- An entry gets an id and the slot of this id. That leaves a stale slot exactly if a slot
still leads to the entry by another id it had. -/
theorem Fresh.numbered_iff (hfresh : Fresh slot channels id)
    (hslot : ∀ j, slot' j = if j = i then some d else slot j) (hid : id h = some i) :
    Fresh slot' (Function.update channels d (some h)) id ↔
      ∀ h₀ j, channels d = some h₀ → id h₀ = some j → j ≠ i → slot j ≠ some d := by
  constructor
  · intro hfresh' h₀ j _ _ hne hj
    obtain ⟨h', hd', hj'⟩ := hfresh' j d (by rw [hslot, if_neg hne, hj])
    rw [Function.update_self] at hd'
    obtain rfl := Option.some.inj hd'
    exact hne (Option.some.inj (hj'.symm.trans hid))
  · intro hno j d' hj
    rw [hslot] at hj
    by_cases heq : j = i
    · rw [if_pos heq] at hj
      obtain rfl := Option.some.inj hj
      exact ⟨h, Function.update_self _ _ _, heq ▸ hid⟩
    · rw [if_neg heq] at hj
      obtain ⟨h', hd', hj'⟩ := hfresh j d' hj
      have hne : d' ≠ d := by
        rintro rfl
        exact hno h' j hd' hj' heq hj
      exact ⟨h', (Function.update_of_ne hne _ _).trans hd', hj'⟩

/-- An entry is replaced by one that has the same id in this table, and no slot is touched. -/
theorem Fresh.entered (hfresh : Fresh slot channels id)
    (hsame : ∀ h₀, channels d = some h₀ → id h = id h₀) :
    Fresh slot (Function.update channels d (some h)) id := by
  intro j d' hj
  obtain ⟨h', hd', hj'⟩ := hfresh j d' hj
  by_cases heq : d' = d
  · subst heq
    exact ⟨h, Function.update_self _ _ _, (hsame h' hd').trans hj'⟩
  · exact ⟨h', (Function.update_of_ne heq _ _).trans hd', hj'⟩

/-- An entry is removed with the slot of its id. If no slot was stale, no other one led to it. -/
theorem Fresh.removed (hfresh : Fresh slot channels id) (hd : channels d = some h)
    (hslot : ∀ j, slot' j = if id h = some j then none else slot j) :
    Fresh slot' (Function.update channels d none) id := by
  intro j d' hj
  rw [hslot] at hj
  split at hj
  · cases hj
  · rename_i hne
    obtain ⟨h', hd', hj'⟩ := hfresh j d' hj
    refine ⟨h', ChannelMap.update_none_iff.mpr ⟨fun heq => hne ?_, hd'⟩, hj'⟩
    rw [heq, hd] at hd'
    rw [Option.some.inj hd', hj']

end Fresh

/-- A key is attached locally: its local id is new, so an old one would be given up. -/
theorem fresh_attached_local_iff {key : Key} {d : DiscoveryKey} {i : ℕ}
    {v : Vec (Option DiscoveryKey)} {m' : ChannelMap X} (hm : m.Wf) (hfresh : NoStaleSlots m)
    (hkey : discovery_key_of X key = d) (hfree : m.local_id.slot i = none)
    (hslot : ∀ j, v.slot j = if j = i then some d else m.local_id.slot j)
    (hm' : m' = ⟨Function.update m.channels d (some ((m.entry d).attach_local i key)), v,
      m.remote_id, m.entered d⟩) :
    NoStaleSlots m' ↔ GivesUpNoId ⟨m, .attach_local key, m'⟩ := by
  subst hm'
  have hlocal := Fresh.numbered_iff hfresh.local_slot hslot
    (rfl : ((m.entry d).attach_local i key).local_id = some i)
  have hremote : Fresh m.remote_id.slot
      (Function.update m.channels d (some ((m.entry d).attach_local i key)))
      ChannelHandle.remote_id := by
    refine Fresh.entered hfresh.remote_slot fun h hd => ?_
    rw [ChannelMap.entry_of_some hd]
    rfl
  constructor
  · intro hfresh'
    refine ⟨fun key' h hact hd => ?_, fun _ _ _ _ _ hact => nomatch hact⟩
    obtain rfl := MapOp.attach_local.inj hact
    rw [hkey] at hd
    -- the old id keeps its slot, and the entry has the new one
    cases hl : h.local_id with
    | none => rfl
    | some j =>
      have hj := ((hm.fits hd).local_slot hl).2
      refine absurd hj (hlocal.mp hfresh'.local_slot h j hd hl ?_)
      rintro rfl
      exact nomatch hfree.symm.trans hj
  · rintro ⟨hnone, -⟩
    refine ⟨hlocal.mpr fun h j hd hl => ?_, hremote⟩
    exact nomatch (hnone key h rfl (hkey ▸ hd)).symm.trans hl

/-- A key is attached remotely: the remote has chosen the id, and may have chosen another
before. -/
theorem fresh_attached_remote_iff {d : DiscoveryKey} {r : ℕ} {cap : Option (Vec UInt8)}
    {v : Vec (Option DiscoveryKey)} {m' : ChannelMap X} (hfresh : NoStaleSlots m)
    (hslot : ∀ j, v.slot j = if j = r then some d else m.remote_id.slot j)
    (hm' : m' = ⟨Function.update m.channels d (some ((m.entry d).attach_remote r cap)),
      m.local_id, v, m.entered d⟩) :
    NoStaleSlots m' ↔ GivesUpNoId ⟨m, .attach_remote d r cap, m'⟩ := by
  subst hm'
  have hremote := Fresh.numbered_iff hfresh.remote_slot hslot
    (rfl : ((m.entry d).attach_remote r cap).remote_id = some r)
  have hlocal : Fresh m.local_id.slot
      (Function.update m.channels d (some ((m.entry d).attach_remote r cap)))
      ChannelHandle.local_id := by
    refine Fresh.entered hfresh.local_slot fun h hd => ?_
    rw [ChannelMap.entry_of_some hd]
    rfl
  constructor
  · intro hfresh'
    refine ⟨(fun _ _ hact => nomatch hact), fun d₀ r₀ cap₀ h r' hact hd hr' hne => ?_⟩
    obtain ⟨rfl, rfl, rfl⟩ := MapOp.attach_remote.inj hact
    exact hremote.mp hfresh'.remote_slot h r' hd hr' hne
  · rintro ⟨-, hold⟩
    exact ⟨hlocal, hremote.mpr fun h j hd hj hne => hold d r cap h j rfl hd hj hne⟩

/-- One call on a map without stale slots: there is none afterwards exactly when the
call gives up no id. -/
theorem MapEffect.keeps_fresh_iff {op : MapOp} (h : MapEffect m op m') (hm : m.Wf)
    (hfresh : NoStaleSlots m) : NoStaleSlots m' ↔ GivesUpNoId ⟨m, op, m'⟩ := by
  cases h with
  | attached_local hkey hi hlen hfree hslot hroom hmax =>
    exact fresh_attached_local_iff hm hfresh hkey hfree hslot rfl
  | attached_remote hr hlen hslot htakes hgrow =>
    exact fresh_attached_remote_iff hfresh hslot rfl
  | absent hd =>
    exact iff_of_true hfresh ⟨(fun _ _ hact => nomatch hact), fun _ _ _ _ _ hact => nomatch hact⟩
  | removed hd hlenl hlenr hslotl hslotr =>
    refine iff_of_true ⟨?_, ?_⟩
      ⟨(fun _ _ hact => nomatch hact), fun _ _ _ _ _ hact => nomatch hact⟩
    · exact Fresh.removed hfresh.local_slot hd hslotl
    · exact Fresh.removed hfresh.remote_slot hd hslotr

theorem noStaleSlots_new : NoStaleSlots (ChannelMap.new : ChannelMap X) := by
  refine ⟨fun i d hi => ?_, fun r d hr => nomatch hr⟩
  cases i with
  | zero => exact nomatch hi
  | succ i => exact nomatch hi

/-- Over a whole history, there is no stale slot at any point exactly when no call ever
gave up an id. -/
theorem no_stale_slots_iff {tr : List (Transition (ChannelMap X) MapOp)}
    (run : Run map_step ChannelMap.new tr m) :
    (∀ t ∈ tr, NoStaleSlots t.post) ↔ ∀ t ∈ tr, GivesUpNoId t := by
  refine run.forall_post_iff ChannelMap.wf_new noStaleSlots_new ?_ ?_
  · intro m op m' h hm
    exact (map_step_cases hm h).wf hm
  · intro m op m' h hm hfresh
    exact (map_step_cases hm h).keeps_fresh_iff hm hfresh

/-- A key attached from both sides and removed leaves no slot behind. -/
theorem no_stale_slots_iff_removed :
    ∃ tr m, Run map_step (ChannelMap.new : ChannelMap deps) tr m ∧ tr.length = 3 ∧
      (∀ t ∈ tr, NoStaleSlots t.post) ∧ m.local_id.slot 1 = none ∧ m.remote_id.slot 1 = none := by
  have run₁ : Run map_step (ChannelMap.new : ChannelMap deps) _ _ :=
    .snoc (a := .attach_local (sample 1)) .nil (Or.inl ⟨(), rfl⟩)
  have run₂ := run₁.snoc (a := .attach_remote (discovery_key_of deps (sample 1)) 1 none)
    (Or.inl ⟨(), rfl⟩)
  have run₃ := run₂.snoc (a := .remove (discovery_key_of deps (sample 1))) (Or.inl ⟨(), rfl⟩)
  refine ⟨_, _, run₃, rfl, (no_stale_slots_iff run₃).mpr ?_, rfl, rfl⟩
  simp only [List.nil_append, List.cons_append, List.forall_mem_cons]
  refine ⟨⟨by rintro key h - ⟨⟩, by rintro _ _ _ _ _ ⟨⟩⟩,
    ⟨by rintro _ _ ⟨⟩, fun d r cap h r' hact hd hr' => ?_⟩,
    ⟨by rintro _ _ ⟨⟩, by rintro _ _ _ _ _ ⟨⟩⟩,
    fun t ht => absurd ht List.not_mem_nil⟩
  obtain ⟨rfl, -, -⟩ := MapOp.attach_remote.inj hact
  rw [← Option.some.inj hd] at hr'
  cases hr'

/-- A key attached twice on each side and removed: its first ids still name it, and when
it is attached once more they lead to the new entry. -/
theorem stale_slots_left :
    ∃ tr m, Run map_step (ChannelMap.new : ChannelMap deps) tr m ∧ tr.length = 5 ∧
      m.channels (discovery_key_of deps (sample 1)) = none ∧
      m.local_id.slot 1 = some (discovery_key_of deps (sample 1)) ∧
      m.remote_id.slot 1 = some (discovery_key_of deps (sample 1)) ∧
      ∃ m' h, map_step m (.attach_local (sample 1)) m' ∧ m'.get_local 1 = some h ∧
        h.local_id = some 2 := by
  have run₁ : Run map_step (ChannelMap.new : ChannelMap deps) _ _ :=
    .snoc (a := .attach_local (sample 1)) .nil (Or.inl ⟨(), rfl⟩)
  have run₂ := run₁.snoc (a := .attach_local (sample 1)) (Or.inl ⟨(), rfl⟩)
  have run₃ := run₂.snoc (a := .attach_remote (discovery_key_of deps (sample 1)) 1 none)
    (Or.inl ⟨(), rfl⟩)
  have run₄ := run₃.snoc (a := .attach_remote (discovery_key_of deps (sample 1)) 2 none)
    (Or.inl ⟨(), rfl⟩)
  have run₅ := run₄.snoc (a := .remove (discovery_key_of deps (sample 1))) (Or.inl ⟨(), rfl⟩)
  exact ⟨_, _, run₅, rfl, rfl, rfl, rfl, _, _, Or.inl ⟨(), rfl⟩, rfl, rfl⟩

end hypercore_protocol.channels
