/-
Two protocols that talk to each other.

A close is not answered: the side that hears of it removes the whole entry, and both
sides hand out the freed ids again at once. So openings, closes and new openings under
old ids can cross on the way in any number. That the two tables agree again whenever
nothing is on the way is the theorem of `Lib/Link`, about two parties that number keys
for each other; this file shows that a protocol is such a party. Its ids by discovery
key are the numbers (`party`), an `Open`, a `Close` and any other message are the
signals (`Carries`), and what keeps the protocol a party, its tables without stale
slots and a queue with a receiver behind every connected entry, is `Side`.

The messages that one side has enqueued and the other has not handled yet are what is
on the link between them.
-/
import HypercoreProtocol.Capabilities
import HypercoreProtocol.FrameSpec
import HypercoreProtocol.Lib.Link

set_option autoImplicit false

namespace hypercore_protocol.session

open Rust Wire Runs Link schema message channels mqueue protocol crypto compact_encoding

variable {X : Deps} {σ : Type} [CipherTrait σ] {p p' q : Protocol X σ} {m m' : ChannelMap X}
  {d : DiscoveryKey} {h : ChannelHandle} {P : MapOp → Prop}

/-! ## A channel map as a party -/

theorem is_connected_iff : h.is_connected = true ↔ h.local_id.isSome ∧ h.remote_id.isSome := by
  rw [ChannelHandle.is_connected, Bool.and_eq_true, ChannelHandle.local_id, ChannelHandle.remote_id,
    Option.isSome_map, Option.isSome_map]

/-- The ids by key: those we gave, and those we were told. Through this a channel map is a party,
and the results about links apply to it. -/
def party (m : ChannelMap X) : Party DiscoveryKey ℕ where
  mine d := (m.channels d).bind ChannelHandle.local_id
  theirs d := (m.channels d).bind ChannelHandle.remote_id

theorem party_mine (hd : m.channels d = some h) : (party m).mine d = h.local_id := by
  simp only [party, hd, Option.bind_some]

theorem party_theirs (hd : m.channels d = some h) : (party m).theirs d = h.remote_id := by
  simp only [party, hd, Option.bind_some]

theorem party_congr (hsame : m'.channels = m.channels) : party m' = party m := by
  rw [party, party, hsame]

theorem entry_local_id (m : ChannelMap X) (d : DiscoveryKey) :
    (m.entry d).local_id = (party m).mine d := by
  cases hd : m.channels d with
  | some h => rw [ChannelMap.entry_of_some hd, party_mine hd]
  | none =>
    rw [ChannelMap.entry_of_none hd]
    simp only [party, hd, Option.bind_none]
    rfl

theorem entry_remote_id (m : ChannelMap X) (d : DiscoveryKey) :
    (m.entry d).remote_id = (party m).theirs d := by
  cases hd : m.channels d with
  | some h => rw [ChannelMap.entry_of_some hd, party_theirs hd]
  | none =>
    rw [ChannelMap.entry_of_none hd]
    simp only [party, hd, Option.bind_none]
    rfl

/-- Another entry for `d` changes the ids of `d`, and no others. The calls on the map are all of
this kind. -/
theorem party_update {e : Option ChannelHandle}
    (hchannels : m'.channels = Function.update m.channels d e) :
    party m' = ⟨Function.update (party m).mine d (e.bind ChannelHandle.local_id),
      Function.update (party m).theirs d (e.bind ChannelHandle.remote_id)⟩ := by
  refine Party.ext (funext fun d' => ?_) (funext fun d' => ?_)
  all_goals
    simp only [party, hchannels]
    by_cases hd : d' = d
    · rw [hd, Function.update_self, Function.update_self]
    · rw [Function.update_of_ne hd, Function.update_of_ne hd]

theorem party_accepted (hd : m.channels d = some h) : party (m.accepted d h) = party m := by
  rw [party_update (m := m) (d := d) (e := some { h with inbound_tx := some _ }) rfl]
  refine Party.ext ?_ ?_
  · exact Function.update_eq_self_iff.mpr (party_mine hd).symm
  · exact Function.update_eq_self_iff.mpr (party_theirs hd).symm

/-- Attaching a key locally numbers it, with an id whose slot was free, so that no other key has
it. -/
theorem party_attach_local {key : Key} {i : ℕ} (heff : MapEffect m (.attach_local key) m')
    (hd : m'.channels (discovery_key_of X key) = some h) (hl : h.local_state = some ⟨key, i⟩) :
    party m' = (party m).number (discovery_key_of X key) i ∧ m.local_id.slot i = none ∧
      i < m'.local_id.len := by
  cases heff with
  | @attached_local _ _ j v hkey hi hlen hfree hslot =>
    subst hkey
    obtain ⟨-, rfl⟩ | ⟨hne, -⟩ := ChannelMap.update_some_iff.mp hd
    · obtain rfl : j = i := congrArg LocalState.local_id (Option.some.inj hl)
      refine ⟨?_, hfree, Vec.lt_len_of_slot (by rw [hslot, if_pos rfl])⟩
      rw [party_update rfl]
      exact Party.ext rfl (Function.update_eq_self_iff.mpr (entry_remote_id m _))
    · exact absurd rfl hne

/-- Attaching a key remotely is hearing of its number. -/
theorem party_attach_remote {r : ℕ} {cap : Option (Vec UInt8)}
    (heff : MapEffect m (.attach_remote d r cap) m') :
    party m' = (party m).recv (.opened d r) := by
  cases heff with
  | attached_remote =>
    rw [party_update rfl]
    exact Party.ext (Function.update_eq_self_iff.mpr (entry_local_id m _)) rfl

/-- Removing an entry is forgetting its key, with both of its ids. -/
theorem party_remove (heff : MapEffect m (.remove d) m') : party m' = (party m).forget d := by
  cases heff with
  | absent hd =>
    refine Party.ext ?_ ?_
    all_goals
      refine (Function.update_eq_self_iff.mpr ?_).symm
      simp only [party, hd, Option.bind_none]
  | removed =>
    rw [party_update (m := m) (d := d) (e := none) rfl]
    rfl

/-- A slot in use and an id are the same thing, if no slot is stale. It turns the tables into
statements about the party. -/
theorem noStaleSlots_iff : NoStaleSlots m ↔
    (∀ i d, m.local_id.slot i = some d → (party m).mine d = some i) ∧
      ∀ r d, m.remote_id.slot r = some d → (party m).theirs d = some r := by
  simp only [party, Option.bind_eq_some_iff]
  exact ⟨fun h => ⟨h.local_slot, h.remote_slot⟩, fun h => ⟨h.1, h.2⟩⟩

theorem remoteIdsResolve_iff (hm : m.Wf) : RemoteIdsResolve m ↔
    ∀ d r, (party m).theirs d = some r → m.remote_id.slot r = some d := by
  rw [remote_ids_resolve_iff_slots hm]
  simp only [party, Option.bind_eq_some_iff]
  exact ⟨fun h d r ⟨e, hd, hr⟩ => h d e r hd hr, fun h d e r hd hr => h d r ⟨e, hd, hr⟩⟩

/-- Opening an entry on a queue, and filling queues, leaves ids and slots alone, and with them
what holds of the tables. -/
theorem tables_of_same (hm : m.Wf) (hm' : m'.Wf) (hparty : party m' = party m)
    (hl : m'.local_id = m.local_id) (hr : m'.remote_id = m.remote_id)
    (h : NoStaleSlots m ∧ RemoteIdsResolve m) : NoStaleSlots m' ∧ RemoteIdsResolve m' := by
  rw [noStaleSlots_iff, remoteIdsResolve_iff hm] at h
  rw [noStaleSlots_iff, remoteIdsResolve_iff hm', hparty, hl, hr]
  exact h

/-- The entries after attaching a key locally: only its own entry changes, and of this only the
local side. -/
theorem attached_local_entries {key : Key} (heff : MapEffect m (.attach_local key) m')
    (hd : m'.channels (discovery_key_of X key) = some h) :
    m'.channels = Function.update m.channels (discovery_key_of X key) (some h) ∧
      h.remote_state = (m.entry (discovery_key_of X key)).remote_state ∧
      h.inbound_tx = (m.entry (discovery_key_of X key)).inbound_tx := by
  cases heff with
  | attached_local hkey =>
    subst hkey
    obtain ⟨-, rfl⟩ | ⟨hne, -⟩ := ChannelMap.update_some_iff.mp hd
    · exact ⟨rfl, rfl, rfl⟩
    · exact absurd rfl hne

/-- The entries after attaching a key remotely: only its own entry changes, and of this only the
remote side. -/
theorem attached_remote_entries {r : ℕ} {cap : Option (Vec UInt8)}
    (heff : MapEffect m (.attach_remote d r cap) m') (hd : m'.channels d = some h) :
    m'.channels = Function.update m.channels d (some h) ∧
      h.local_state = (m.entry d).local_state ∧ h.inbound_tx = (m.entry d).inbound_tx := by
  cases heff with
  | attached_remote =>
    obtain ⟨-, rfl⟩ | ⟨hne, -⟩ := ChannelMap.update_some_iff.mp hd
    · exact ⟨rfl, rfl, rfl⟩
    · exact absurd rfl hne

/-! ## What keeps a protocol a party -/

/-- Every inbound queue has a receiver. The applications are assumed to keep theirs, since a
message to nobody is an error. -/
def Listening (m : ChannelMap X) : Prop :=
  ∀ n, n < m.shared.inboxes.next → m.receives n = true

/-- Every entry that is attached from both sides is open. Then data for it has a queue to go
to. -/
def AllOpen (m : ChannelMap X) : Prop :=
  ∀ d h, m.channels d = some h → h.is_connected = true → h.inbound_tx.isSome

/-- One of two honest peers with this handshake hash. `keys` are the keys that either of
them may open. -/
structure Side (keys : Set Key) (hash : Vec UInt8) (p : Protocol X σ) : Prop where
  wf : p.channels.Wf
  fresh : NoStaleSlots p.channels
  resolve : RemoteIdsResolve p.channels
  local_len : p.channels.local_id.len ≤ Vec.max_len SLOT_SIZE
  listening : Listening p.channels
  all_open : AllOpen p.channels
  local_keys : ∀ d h ls, p.channels.channels d = some h → h.local_state = some ls → ls.key ∈ keys
  /-- The remote has shown the capability for one of the keys. -/
  remote_keys : ∀ d h rs, p.channels.channels d = some h → h.remote_state = some rs →
    ∃ key ∈ keys, discovery_key_of X key = d ∧ p.Verified key rs.remote_capability
  backed : ∀ c, Event.Channel c ∈ p.queued_events → Backed p.channels c
  handshake_hash : p.io.handshake_hash = some hash
  remote_key : p.io.remote_public_key.isSome

theorem MapChange.listening (hc : MapChange P m m') (hm : Listening m) : Listening m' := by
  cases hc with
  | call _ heff =>
    cases heff with
    | attached_local =>
      intro n hn
      rw [ChannelMap.receives]
      rw [ChannelMap.entered_inboxes] at hn ⊢
      exact hm n hn
    | attached_remote =>
      intro n hn
      rw [ChannelMap.receives]
      rw [ChannelMap.entered_inboxes] at hn ⊢
      exact hm n hn
    | absent => exact hm
    | removed => exact hm
  -- the new queue has its receiver, the others are as before
  | accept hd =>
    intro n hn
    rw [ChannelMap.receives]
    show (((m.shared.inboxes.alloc ⟨[], true⟩).read n).any _) = true
    rw [Arena.read_alloc]
    split
    · rfl
    · rename_i hne
      refine hm n ?_
      have hlt : n < m.shared.inboxes.next + 1 := (Arena.next_alloc _ _) ▸ hn
      omega
  -- a message changes the contents of a queue, not its receiver
  | push k msg =>
    intro n hn
    have hold : m.receives n = true := hm n (Nat.lt_of_lt_of_eq hn (Arena.next_update _ _ _))
    rw [ChannelMap.receives] at hold ⊢
    show ((m.shared.inboxes.update _ _).read n).any _ = true
    rw [Arena.read_update]
    split
    · rename_i heq
      rw [heq] at hold
      rw [Option.any_map]
      exact hold
    · exact hold

theorem MapChange.local_len (hc : MapChange P m m')
    (hm : m.local_id.len ≤ Vec.max_len SLOT_SIZE) :
    m'.local_id.len ≤ Vec.max_len SLOT_SIZE := by
  cases hc with
  | call _ heff =>
    cases heff with
    | attached_local _ _ _ _ _ _ hmax => exact hmax hm
    | attached_remote => exact hm
    | absent => exact hm
    | removed _ hlenl => exact hlenl ▸ hm
  | accept => exact hm
  | push => exact hm

/-- An entry that is replaced does not matter to the others, and has to be looked at by
itself. -/
theorem AllOpen.replace (hm : AllOpen m) {e : Option ChannelHandle}
    (hchannels : m'.channels = Function.update m.channels d e)
    (he : ∀ h, e = some h → h.is_connected = true → h.inbound_tx.isSome) : AllOpen m' := by
  intro d' h' hd' hc
  rw [hchannels] at hd'
  by_cases heq : d' = d
  · rw [heq, Function.update_self] at hd'
    exact he h' hd' hc
  · rw [Function.update_of_ne heq] at hd'
    exact hm d' h' hd' hc

/-- An entry that is opened is one that may be connected. -/
theorem AllOpen.accepted {m₀ : ChannelMap X} (hm : AllOpen m₀)
    (hchannels : m.channels = Function.update m₀.channels d (some h)) :
    AllOpen (m.accepted d h) := by
  have hself : (m.accepted d h).channels = Function.update m₀.channels d
      (some { h with inbound_tx := some m.shared.inboxes.next }) := by
    rw [ChannelMap.accepted, hchannels, Function.update_idem]
  refine hm.replace hself fun e he _ => ?_
  rw [← Option.some.inj he]
  rfl

/-- Removing an entry leaves nothing of it behind: its slots are empty, and no other entry has
changed. -/
theorem removed_kept (hm : m.Wf) (htables : NoStaleSlots m ∧ RemoteIdsResolve m)
    (hopen : AllOpen m) (heff : MapEffect m (.remove d) m') :
    (NoStaleSlots m' ∧ RemoteIdsResolve m') ∧ AllOpen m' := by
  refine ⟨⟨(heff.keeps_fresh_iff hm htables.1).mpr ⟨(fun _ _ hact => nomatch hact),
      (fun _ _ _ _ _ hact => nomatch hact)⟩,
    (heff.keeps_resolving_iff hm htables.2).mpr fun _ _ _ hact => nomatch hact⟩, ?_⟩
  cases heff with
  | absent => exact hopen
  | removed => exact hopen.replace rfl fun e he => nomatch he

theorem Side.mine_iff {keys : Set Key} {hash : Vec UInt8} (hs : Side keys hash p) (d : DiscoveryKey)
    (i : ℕ) : (party p.channels).mine d = some i ↔ p.channels.local_id.slot i = some d := by
  constructor
  · intro hmine
    obtain ⟨h, hd, hl⟩ := Option.bind_eq_some_iff.mp hmine
    exact ((hs.wf.fits hd).local_slot hl).2
  · intro hslot
    obtain ⟨h, hd, hl⟩ := hs.fresh.local_slot i d hslot
    rw [party_mine hd, hl]

theorem Side.theirs_iff {keys : Set Key} {hash : Vec UInt8} (hs : Side keys hash p)
    (d : DiscoveryKey) (r : ℕ) :
    (party p.channels).theirs d = some r ↔ p.channels.remote_id.slot r = some d := by
  constructor
  · intro htheirs
    obtain ⟨h, hd, hr⟩ := Option.bind_eq_some_iff.mp htheirs
    exact (get_remote_iff_slot hs.wf hd r).mp (hs.resolve d h r hd hr)
  · intro hslot
    obtain ⟨h, hd, hr⟩ := hs.fresh.remote_slot r d hslot
    rw [party_theirs hd, hr]

/-- What most of the invariant follows from: the calls that were made, and the events that
were queued. -/
theorem Side.after {keys : Set Key} {hash : Vec UInt8} (hs : Side keys hash p)
    (hframe : Protocol.SameFrame p p') (hchanges : MapChanges P p.channels p'.channels)
    (hlocal : ∀ key, P (.attach_local key) → key ∈ keys)
    (hremote : ∀ d r cap, P (.attach_remote d r cap) →
      ∃ key ∈ keys, discovery_key_of X key = d ∧ p.Verified key cap)
    (hevents : ∃ es, p'.queued_events = p.queued_events ++ es ∧
      ∀ c, Event.Channel c ∈ es → Establishes p p' c)
    (hfresh : NoStaleSlots p'.channels) (hresolve : RemoteIdsResolve p'.channels)
    (hopen : AllOpen p'.channels) : Side keys hash p' where
  wf := (hchanges.keep (I := fun _ => True) (fun _ _ _ => trivial) hs.wf trivial).1
  fresh := hfresh
  resolve := hresolve
  local_len := (hchanges.keep (fun h _ => h.local_len) hs.wf hs.local_len).2
  listening := (hchanges.keep (fun h _ => h.listening) hs.wf hs.listening).2
  all_open := hopen
  local_keys := fun d => hchanges.local_state (A := fun ls => ls.key ∈ keys)
    (fun key _ hop => hlocal key hop) hs.wf (hs.local_keys d)
  remote_keys := by
    -- what is verified depends on the handshake only, which stays
    have hv : ∀ key cap, p'.Verified key cap ↔ p.Verified key cap := by
      intro key cap
      simp only [Protocol.Verified, MessageIo.handshake_hash, hframe.stream, hframe.is_initiator]
    simp only [hv]
    exact fun d => hchanges.remote_state
      (A := fun rs =>
        ∃ key ∈ keys, discovery_key_of X key = d ∧ p.Verified key rs.remote_capability)
      (fun r cap hop => hremote d r cap hop) hs.wf (hs.remote_keys d)
  backed := by
    obtain ⟨es, hes, hest⟩ := hevents
    intro c hc
    rw [hes, List.mem_append] at hc
    rcases hc with hc | hc
    · exact (hchanges.keep (fun h hm => h.backed hm) hs.wf (hs.backed c hc)).2
    · exact (hest c hc).backed
  handshake_hash := by
    rw [MessageIo.handshake_hash, hframe.stream]
    exact hs.handshake_hash
  remote_key := by
    rw [MessageIo.remote_public_key, hframe.stream]
    exact hs.remote_key

/-! ## Messages as signals -/

/-- The message stands for the signal. The sender has this role, and the id fits into a
table of local ids. -/
inductive Carries (X : Deps) (is_initiator : Bool) (hash : Vec UInt8) (keys : Set Key) :
    ChannelMessage X → Signal DiscoveryKey ℕ → Prop where
  | opened {key : Key} {i : ℕ} {cap : Vec UInt8} (hkey : key ∈ keys)
      (hi : i < Vec.max_len SLOT_SIZE)
      (hcap : (replicate_capability X is_initiator key.val hash.val : Res IoError _) = .ok cap) :
      Carries X is_initiator hash keys (open_message i (discovery_key_of X key) (some cap))
        (.opened (discovery_key_of X key) i)
  | closed {i : ℕ} {c : Close} (hi : i < Vec.max_len SLOT_SIZE) :
      Carries X is_initiator hash keys ⟨UInt64.ofNat i, .Close c⟩ (.closed i)
  | data {i : ℕ} {msg : Message X} (hi : i < Vec.max_len SLOT_SIZE)
      (hmsg : msg.is_open_or_close = false) :
      Carries X is_initiator hash keys ⟨UInt64.ofNat i, msg⟩ (.data i)

/-- What stands for an opening is an `Open` with the capability of the sender, so that it will be
accepted. -/
theorem Carries.opening {is_initiator : Bool} {hash : Vec UInt8} {keys : Set Key}
    {msg : ChannelMessage X} {x : Signal DiscoveryKey ℕ} {i : ℕ}
    (h : Carries X is_initiator hash keys msg x) (hx : x = .opened d i) :
    ∃ key ∈ keys, ∃ cap, discovery_key_of X key = d ∧ i < Vec.max_len SLOT_SIZE ∧
      (replicate_capability X is_initiator key.val hash.val : Res IoError _) = .ok cap ∧
      msg = open_message i d (some cap) := by
  cases h with
  | opened hkey hi hcap =>
    obtain ⟨rfl, rfl⟩ := Signal.opened.inj hx
    exact ⟨_, hkey, _, rfl, hi, hcap, rfl⟩
  | closed => exact nomatch hx
  | data => exact nomatch hx

theorem toNat_ofNat_id {i : ℕ} (hi : i < Vec.max_len SLOT_SIZE) : (UInt64.ofNat i).toNat = i :=
  UInt64.toNat_ofNat_of_lt' (Nat.lt_of_lt_of_le hi
    (Nat.le_trans (Vec.max_len_le SLOT_SIZE) (by decide)))

/-! ## Opening -/

variable {keys : Set Key} {hash : Vec UInt8}

/-- What the entry of a key is proven for, is the key: the discovery key is injective on the keys
in use, and the capability was made for one of them. -/
theorem Side.verified (hs : Side keys hash p) (hinj : Set.InjOn (discovery_key_of X) keys)
    {key : Key} (hkey : key ∈ keys) (hd : p.channels.channels (discovery_key_of X key) = some h)
    {rs : RemoteState} (hr : h.remote_state = some rs) :
    p.Verified key rs.remote_capability := by
  obtain ⟨key', hkey', hdk, hv⟩ := hs.remote_keys _ h rs hd hr
  rwa [hinj hkey' hkey hdk] at hv

/-- What we offer after the handshake: a capability, and the right one. -/
theorem Side.offers (hs : Side keys hash p) {key : Key} {capability : Option (Vec UInt8)}
    (hcap : p.Offers key capability) :
    ∃ cap, (replicate_capability X p.is_initiator key.val hash.val : Res IoError _) = .ok cap ∧
      capability = some cap := by
  obtain ⟨remote, hremote⟩ := Option.isSome_iff_exists.mp hs.remote_key
  cases hhs : p.handshake_result with
  | none =>
    simp only [Protocol.handshake_result, hremote, hs.handshake_hash] at hhs
    cases hhs
  | some handshake =>
    rw [Protocol.Offers, hhs] at hcap
    obtain ⟨-, hash', -, hhash', -, heq⟩ := Protocol.handshake_result_eq_some hhs
    obtain rfl := Option.some.inj (hs.handshake_hash.symm.trans hhash')
    rw [← heq]
    exact hcap

/-- A command to open a key that has no local state here. It succeeds, numbers the key, and
queues the `Open` for it. -/
theorem Side.opens (hs : Side keys hash p) (hinj : Set.InjOn (discovery_key_of X) keys) {key : Key}
    (hkey : key ∈ keys) (hnone : (party p.channels).mine (discovery_key_of X key) = none)
    (hleaves : Method.Leaves (Protocol.on_command (.Open key)) p p') :
    ∃ i msg, Protocol.CommandEffect p (.Open key) none p' ∧ Side keys hash p' ∧
      p'.io.write_queue = p.io.write_queue ++ [msg] ∧
      Carries X p.is_initiator hash keys msg (.opened (discovery_key_of X key) i) ∧
      party p'.channels = (party p.channels).number (discovery_key_of X key) i ∧
      ∀ d, (party p.channels).mine d ≠ some i := by
  obtain ⟨result, heff⟩ := leaves_outcome hleaves (Protocol.on_command_spec hs.wf (.Open key))
  have heffect := heff
  have hframe := heff.frame
  have hchanges := command_changes heff
  have hevents := command_events hs.wf heff
  -- what the attached map keeps
  have hattach : ∀ {m : ChannelMap X}, MapEffect p.channels (.attach_local key) m →
      NoStaleSlots m ∧ RemoteIdsResolve m := by
    intro m hmap
    refine ⟨(hmap.keeps_fresh_iff hs.wf hs.fresh).mpr ⟨fun key' h hact hd => ?_,
      (fun _ _ _ _ _ hact => nomatch hact)⟩,
      (hmap.keeps_resolving_iff hs.wf hs.resolve).mpr fun _ _ _ hact => nomatch hact⟩
    obtain rfl := MapOp.attach_local.inj hact
    rw [← party_mine hd]
    exact hnone
  have hside : NoStaleSlots p'.channels → RemoteIdsResolve p'.channels → AllOpen p'.channels →
      Side keys hash p' :=
    hs.after hframe hchanges (fun key' hop => MapOp.attach_local.inj hop ▸ hkey)
      (fun _ _ _ hop => nomatch hop) hevents
  have hnew : ∀ {m : ChannelMap X} {h : ChannelHandle} {i : ℕ},
      MapEffect p.channels (.attach_local key) m →
      m.channels (discovery_key_of X key) = some h → h.local_state = some ⟨key, i⟩ →
      m.local_id.len = p'.channels.local_id.len → party p'.channels = party m →
      Side keys hash p' →
      party p'.channels = (party p.channels).number (discovery_key_of X key) i ∧
        (∀ d, (party p.channels).mine d ≠ some i) ∧ i < Vec.max_len SLOT_SIZE := by
    intro m h i hmap hd hl hlen hparty hs'
    obtain ⟨hnumber, hfree, hlt⟩ := party_attach_local hmap hd hl
    refine ⟨hparty.trans hnumber, fun d hmine => ?_, ?_⟩
    · cases (hfree.symm.trans ((hs.mine_iff d i).mp hmine))
    · exact Nat.lt_of_lt_of_le (hlen ▸ hlt) hs'.local_len
  cases heff with
  | opened hmap hd hl hr hcap =>
    obtain ⟨hfresh, hresolve⟩ := hattach hmap
    have hs' := hside hfresh hresolve (hs.all_open.replace (attached_local_entries hmap hd).1 (by
      intro e he hc
      rw [← Option.some.inj he, ChannelHandle.is_connected, hr, Option.isSome_none,
        Bool.and_false] at hc
      cases hc))
    obtain ⟨hparty, hunused, hi⟩ := hnew hmap hd hl rfl rfl hs'
    obtain ⟨cap, hcomputed, rfl⟩ := hs.offers hcap
    exact ⟨_, _, heffect, hs', rfl, .opened hkey hi hcomputed, hparty, hunused⟩
  | refused hmap hd hl hr hv =>
    rw [(attached_local_entries hmap hd).2.1] at hr
    rcases entry_cases p.channels (discovery_key_of X key) with hd₀ | ⟨-, hr₀, -⟩
    · exact absurd (hs.verified hinj hkey hd₀ hr) hv
    · cases (hr₀.symm.trans hr)
  | accepted hmap hd hl hr hv hcap =>
    have hm := hmap.wf hs.wf
    obtain ⟨hfresh, hresolve⟩ := tables_of_same hm
      (hm.accepted hd (by rw [ChannelHandle.is_connected, hl, hr]; rfl)) (party_accepted hd) rfl rfl
      (hattach hmap)
    have hs' := hside hfresh hresolve (hs.all_open.accepted (attached_local_entries hmap hd).1)
    obtain ⟨hparty, hunused, hi⟩ := hnew hmap hd hl rfl (party_accepted hd) hs'
    obtain ⟨cap, hcomputed, rfl⟩ := hs.offers hcap
    exact ⟨_, _, heffect, hs', rfl, .opened hkey hi hcomputed, hparty, hunused⟩

/-! ## Sending and closing -/

/-- The application has the channel, and nothing has closed it. Sends and closes are made on such
channels only. -/
structure Established (p : Protocol X σ) (c : Channel) : Prop where
  emitted : Event.Channel c ∈ p.queued_events
  unset : p.channels.shared.flags.read c.closed = some false

/-- An established channel is numbered from both sides, under the id that it carries. -/
theorem Side.established (hs : Side keys hash p) {c : Channel} (hc : Established p c) :
    (party p.channels).mine c.discovery_key = some c.local_id ∧
      (∃ r, (party p.channels).theirs c.discovery_key = some r) ∧
      c.local_id < Vec.max_len SLOT_SIZE := by
  have hb := hs.backed c hc.emitted
  obtain ⟨h, hd, hclosed⟩ := hb.entry hc.unset
  have hslot := hb.slot h hd hclosed
  have hconn := hb.connected h hd hclosed
  rw [ChannelHandle.is_connected, Bool.and_eq_true] at hconn
  obtain ⟨rs, hr⟩ := Option.isSome_iff_exists.mp hconn.2
  refine ⟨(hs.mine_iff _ _).mpr hslot, ⟨rs.remote_id, ?_⟩,
    Nat.lt_of_lt_of_le (Vec.lt_len_of_slot hslot) hs.local_len⟩
  rw [party_theirs hd, ChannelHandle.remote_id, hr]
  rfl

/-- Messages under an id, as they stand in a batch or in a frame. -/
def on_channel (i : ℕ) (msgs : List (Message X)) : List (ChannelMessage X) :=
  msgs.map (ChannelMessage.mk (UInt64.ofNat i))

omit [CipherTrait σ] in
/-- A batch without `Open` and `Close` passes, but for its local signals, which become events. -/
theorem batch_of_data {i : ℕ} {msgs : List (Message X)} {kept : List (ChannelMessage X)}
    (hmsgs : ∀ msg ∈ msgs, msg.is_open_or_close = false)
    (heff : Protocol.BatchEffect p (on_channel i msgs) kept p') :
    p'.channels = p.channels ∧ kept = on_channel i (msgs.filter Message.is_data) := by
  induction msgs generalizing p kept with
  | nil =>
    cases heff with
    | nil => exact ⟨rfl, rfl⟩
  | cons msg msgs ih =>
    have hmsg := hmsgs msg List.mem_cons_self
    cases heff with
    | cons head tail =>
      obtain ⟨hsame, rfl⟩ := ih (fun m hm => hmsgs m (List.mem_cons_of_mem _ hm)) tail
      cases head with
      | close_unknown => exact nomatch hmsg
      | closed => exact nomatch hmsg
      | signalled => exact ⟨hsame, rfl⟩
      | passed hclose hsignal =>
        -- neither `Open` nor `Close` nor a signal is left but data
        have hdata : msg.is_data = true := by
          cases msg with
          | Open => exact nomatch hmsg
          | Close => exact nomatch hmsg
          | LocalSignal name data => exact absurd rfl (hsignal name data)
          | _ => rfl
        rw [List.filter_cons_of_pos hdata]
        exact ⟨hsame, rfl⟩

/-- What the invariant looks at. Events may be taken, and the connection may go on: neither
matters to it. -/
theorem Side.congr (hs : Side keys hash p) (hchannels : p'.channels = p.channels)
    (hevents : ∀ c, Event.Channel c ∈ p'.queued_events → Event.Channel c ∈ p.queued_events)
    (hstream : KeepsHandshake p.io.stream p'.io.stream)
    (hrole : p'.is_initiator = p.is_initiator) : Side keys hash p' := by
  obtain ⟨remote, hremote⟩ := Option.isSome_iff_exists.mp hs.remote_key
  have hhash : p'.io.handshake_hash = some hash := hstream.1 _ hs.handshake_hash
  have hv : ∀ key cap, p'.Verified key cap ↔ p.Verified key cap := by
    intro key cap
    rw [Protocol.Verified, Protocol.Verified, hhash, hs.handshake_hash, hrole]
  refine ⟨?_, ?_, ?_, ?_, ?_, ?_, ?_, ?_, ?_, hhash,
    Option.isSome_iff_exists.mpr ⟨remote, hstream.2 _ hremote⟩⟩
  all_goals rw [hchannels]
  · exact hs.wf
  · exact hs.fresh
  · exact hs.resolve
  · exact hs.local_len
  · exact hs.listening
  · exact hs.all_open
  · exact hs.local_keys
  · simp only [hv]
    exact hs.remote_keys
  · exact fun c hc => hs.backed c (hevents c hc)

theorem Side.with_write_queue (hs : Side keys hash p) (write_queue : List (ChannelMessage X)) :
    Side keys hash { p with io := { p.io with write_queue := write_queue } } :=
  hs.congr rfl (fun _ hc => hc) (.refl _) rfl

/-- What a batch leaves of the invariant: what it does not close. The tables have to be looked at
by the caller. -/
theorem Side.batch (hs : Side keys hash p) {msgs kept : List (ChannelMessage X)}
    (heff : Protocol.BatchEffect p msgs kept p')
    (htables : NoStaleSlots p'.channels ∧ RemoteIdsResolve p'.channels)
    (hopen : AllOpen p'.channels) : Side keys hash p' := by
  refine hs.after heff.frame (batch_changes heff) (fun _ ⟨_, hop⟩ => nomatch hop)
    (fun _ _ _ ⟨_, hop⟩ => nomatch hop) ?_ htables.1 htables.2 hopen
  obtain ⟨es, hes, hno⟩ := batch_events heff
  exact ⟨es, hes, fun c hc => absurd hc (hno c)⟩

/-- Data on an established channel changes nothing here, and all of it but the signals is
queued. -/
theorem Side.sends (hs : Side keys hash p) {c : Channel} (hc : Established p c)
    {msgs : List (Message X)} (hmsgs : ∀ msg ∈ msgs, msg.is_open_or_close = false)
    (hleaves : Method.Leaves (Protocol.on_outbound_batch (batch_of c msgs)) p p') :
    Side keys hash p' ∧ p'.is_initiator = p.is_initiator ∧ party p'.channels = party p.channels ∧
      ∃ msgs', p'.io.write_queue = p.io.write_queue ++ on_channel c.local_id msgs' ∧
        List.Forall₂ (Carries X p.is_initiator hash keys) (on_channel c.local_id msgs')
          (msgs'.map fun _ => .data c.local_id) := by
  obtain ⟨kept, q, heff, hrun⟩ := Protocol.on_outbound_batch_spec hs.wf (batch_of c msgs)
  obtain rfl := Method.leaves_of_run_ok hrun hleaves
  obtain ⟨hsame, rfl⟩ := batch_of_data hmsgs heff
  have hq : Side keys hash q := hs.batch heff (hsame.symm ▸ ⟨hs.fresh, hs.resolve⟩)
    (hsame.symm ▸ hs.all_open)
  refine ⟨hq.with_write_queue _, heff.frame.is_initiator, by rw [hsame],
    msgs.filter Message.is_data, by rw [heff.io], ?_⟩
  have hi := (hs.established hc).2.2
  rw [on_channel, List.forall₂_map_left_iff, List.forall₂_map_right_iff, List.forall₂_same]
  exact fun msg hmsg => .data hi (hmsgs msg (List.mem_of_mem_filter hmsg))

/-- Storing flags does not matter to the invariant, as long as none is cleared. -/
theorem Side.store_true (hs : Side keys hash p) (flag : ℕ) :
    Side keys hash { p with channels := { p.channels with
      shared := p.channels.shared.store_true flag } } where
  wf := hs.wf.with_shared (Arena.next_update _ _ _) rfl
  fresh := ⟨hs.fresh.local_slot, hs.fresh.remote_slot⟩
  resolve := hs.resolve
  local_len := hs.local_len
  listening := hs.listening
  all_open := hs.all_open
  local_keys := hs.local_keys
  remote_keys := hs.remote_keys
  backed c hc := (hs.backed c hc).with_shared (Arena.next_update _ _ _) rfl read_store_true
  handshake_hash := hs.handshake_hash
  remote_key := hs.remote_key

/-- A `close` on an established channel, up to where its message is written. The key is forgotten
here before the other side hears of it. -/
theorem Side.closes (hs : Side keys hash p) {c : Channel} (hc : Established p c)
    (hleaves : Method.Leaves (Protocol.on_outbound_batch (batch_of c [close_of c])) p p') :
    Side keys hash p' ∧ p'.is_initiator = p.is_initiator ∧
      party p'.channels = (party p.channels).forget c.discovery_key ∧
      p'.io.write_queue = p.io.write_queue ++ batch_of c [close_of c] := by
  obtain ⟨kept, q, heff, hrun⟩ := Protocol.on_outbound_batch_spec hs.wf (batch_of c [close_of c])
  obtain rfl := Method.leaves_of_run_ok hrun hleaves
  have hframe := heff.frame
  obtain ⟨hmine, -, hi⟩ := hs.established hc
  have hslot := (hs.mine_iff _ _).mp hmine
  -- the channel is established, so its id finds the entry and the entry is removed
  have hq : Side keys hash q ∧ party q.channels = (party p.channels).forget c.discovery_key ∧
      kept = batch_of c [close_of c] := by
    have hside := hs.batch heff
    cases heff with
    | cons head tail =>
      cases tail with
      | nil =>
        cases head with
        | close_unknown hl =>
          obtain ⟨h, hd, -⟩ := hs.fresh.local_slot _ _ hslot
          rw [toNat_ofNat_id hi, ChannelMap.get_local, ChannelMap.resolve, hslot,
            Option.bind_some, hd] at hl
          cases hl
        | closed hl hd hmap =>
          rw [toNat_ofNat_id hi] at hl
          obtain ⟨-, hslot'⟩ := Protocol.channels_of_get_local hs.wf hl
          rw [← Option.some.inj (hslot.symm.trans hslot')] at hmap
          obtain ⟨htables, hopen⟩ := removed_kept hs.wf ⟨hs.fresh, hs.resolve⟩ hs.all_open hmap
          exact ⟨hside htables hopen, party_remove hmap, rfl⟩
        | passed hclose => exact absurd rfl (hclose _)
  obtain ⟨hside, hparty, rfl⟩ := hq
  exact ⟨hside.with_write_queue _, hframe.is_initiator, hparty, by rw [heff.io]⟩

/-! ## Receiving -/

/-- An id that is heard of leads to the entry of its key, since ids resolve. -/
theorem Side.get_remote (hs : Side keys hash p) {r : ℕ} (hd : p.channels.get_remote r = some h) :
    (party p.channels).theirs h.discovery_key = some r ∧
      p.channels.channels h.discovery_key = some h := by
  have hentry := Protocol.channels_of_get_remote hs.wf hd
  exact ⟨(hs.theirs_iff _ r).mpr ((get_remote_iff_slot hs.wf hentry r).mp hd), hentry⟩

theorem Side.get_remote_none (hs : Side keys hash p) {r : ℕ}
    (hnone : p.channels.get_remote r = none) (d : DiscoveryKey) :
    (party p.channels).theirs d ≠ some r := by
  intro htheirs
  obtain ⟨h, hd, hr⟩ := Option.bind_eq_some_iff.mp htheirs
  exact nomatch hnone.symm.trans (hs.resolve d h r hd hr)

/-- Hearing that `r` was taken back is forgetting its key: no other key has this id. -/
theorem Side.recv_closed (hs : Side keys hash p) {r : ℕ}
    (hr : (party p.channels).theirs d = some r) :
    (party p.channels).recv (.closed r) = (party p.channels).forget d := by
  have hiff : ∀ d', (party p.channels).theirs d' = some r ↔ d' = d := by
    intro d'
    rw [hs.theirs_iff, (hs.theirs_iff d r).mp hr, Option.some_inj, eq_comm]
  refine Party.ext (funext fun d' => ?_) (funext fun d' => ?_)
  all_goals
    simp only [Party.recv, Party.forget, hiff, Function.update_apply]

/-- What a message leaves of the invariant: an `Open` has to carry a proof for its key, and
others need nothing. -/
theorem Side.after_inbound (hs : Side keys hash p) {msg : ChannelMessage X}
    {result : Option IoError} (heff : Protocol.InboundEffect p msg result p')
    (hproof : ∀ ch o, msg = ⟨ch, .Open o⟩ → ∃ key ∈ keys,
      o.discovery_key.val = (discovery_key_of X key).val ∧ p.Verified key o.capability)
    (htables : NoStaleSlots p'.channels ∧ RemoteIdsResolve p'.channels)
    (hopen : AllOpen p'.channels) : Side keys hash p' := by
  have hcalls : ∀ op, inbound_calls p.channels msg op → (Move.inbound msg).calls p.channels op :=
    fun _ hop => hop
  refine hs.after heff.frame (inbound_changes heff)
    (fun key hop => nomatch Move.calls_attach_local (hcalls _ hop)) (fun d r cap hop => ?_)
    (inbound_events hs.wf heff) htables.1 htables.2 hopen
  obtain ⟨ch, o, hmsg, hk, -, rfl⟩ := Move.calls_attach_remote (hcalls _ hop)
  obtain ⟨key, hkey, hk', hv⟩ := hproof ch o (Move.inbound.inj hmsg)
  exact ⟨key, hkey, Subtype.ext (hk'.symm.trans hk), hv⟩

/-- What a message that is expected does here: it is handled without an error, the ids change as
its signal says, and nothing is queued for the other side. -/
structure Heard (keys : Set Key) (hash : Vec UInt8) (p : Protocol X σ) (msg : ChannelMessage X)
    (x : Signal DiscoveryKey ℕ) (p' : Protocol X σ) : Prop where
  side : Side keys hash p'
  effect : Protocol.InboundEffect p msg none p'
  write_queue : p'.io.write_queue = p.io.write_queue
  party : party p'.channels = (party p.channels).recv x

theorem Side.hears_open (hs : Side keys hash p) (hinj : Set.InjOn (discovery_key_of X) keys)
    {key : Key} {i : ℕ} {cap : Vec UInt8} (hkey : key ∈ keys) (hi : i < Vec.max_len SLOT_SIZE)
    (hcap : (replicate_capability X (!p.is_initiator) key.val hash.val : Res IoError _) = .ok cap)
    (hexp : (party p.channels).Expected (.opened (discovery_key_of X key) i)) :
    ∃ p', (Protocol.on_inbound_message (open_message i (discovery_key_of X key) (some cap))).run p
        = .ok () p' ∧ Heard keys hash p (open_message i (discovery_key_of X key) (some cap))
          (.opened (discovery_key_of X key) i) p' := by
  have hv : p.Verified key (some cap) := ⟨hash, cap, hs.handshake_hash, hcap, rfl⟩
  have htakes : p.channels.TakesRemote (UInt64.ofNat i).toNat :=
    Or.inr ((toNat_ofNat_id hi).symm ▸ hi)
  rcases Protocol.on_inbound_message_spec hs.wf
    (open_message i (discovery_key_of X key) (some cap)) with
    ⟨result, p', heff, hrun⟩ | ⟨pan, p', ⟨o, -, -, hpan⟩, -⟩
  swap
  · obtain ⟨remote, hremote⟩ := Option.isSome_iff_exists.mp hs.remote_key
    rcases hpan with ⟨-, hno⟩ | ⟨-, hmax⟩ | ⟨-, hno⟩
    · exact absurd htakes hno
    · exact absurd hmax (takesRemote_ne_max htakes)
    · exact absurd (Protocol.ready_of_computed hremote hs.handshake_hash hcap) hno
  have heffect := heff
  have hside := hs.after_inbound heff fun ch o ho => by
    obtain rfl := Message.Open.inj (congrArg ChannelMessage.message ho)
    exact ⟨key, hkey, rfl, hv⟩
  -- the entry has heard of no number, and the number is no other entry's
  have hattach : ∀ {d : DiscoveryKey} {m : ChannelMap X}, d = discovery_key_of X key →
      MapEffect p.channels (.attach_remote d (UInt64.ofNat i).toNat (some cap)) m →
      (NoStaleSlots m ∧ RemoteIdsResolve m) ∧
        party m = (party p.channels).recv (.opened (discovery_key_of X key) i) := by
    rintro _ m rfl hmap
    rw [toNat_ofNat_id hi] at hmap
    refine ⟨⟨(hmap.keeps_fresh_iff hs.wf hs.fresh).mpr ⟨(fun _ _ hact => nomatch hact), ?_⟩,
      (hmap.keeps_resolving_iff hs.wf hs.resolve).mpr ?_⟩, party_attach_remote hmap⟩
    · intro d r cap' h r' hact hd hr'
      obtain ⟨rfl, -, -⟩ := MapOp.attach_remote.inj hact
      cases ((hexp.1.symm.trans (party_theirs hd)).trans hr')
    · rintro d r cap' hact d' h' - hd' hr'
      obtain ⟨-, rfl, -⟩ := MapOp.attach_remote.inj hact
      exact hexp.2 d' ((party_theirs hd').trans hr')
  rw [open_message] at heff hrun
  cases heff with
  | bad_key hlen => exact absurd (discovery_key_of X key).property hlen
  | announced hk hmap hd hr hl =>
    obtain ⟨htables, hparty⟩ := hattach (Subtype.ext hk).symm hmap
    refine ⟨_, hrun, hside htables ?_, heffect, rfl, hparty⟩
    refine hs.all_open.replace (attached_remote_entries hmap hd).1 fun e he hc => ?_
    rw [← Option.some.inj he, ChannelHandle.is_connected, hl] at hc
    cases hc
  | refused hk hmap hd hr hl hno =>
    obtain rfl : discovery_key_of X key = _ := Subtype.ext hk
    rw [(attached_remote_entries hmap hd).2.1] at hl
    rcases entry_cases p.channels (discovery_key_of X key) with hd₀ | ⟨hl₀, -⟩
    · have hkey' := hs.local_keys _ _ _ hd₀ hl
      rw [hinj hkey' hkey ((hs.wf.fits hd₀).key_of hl)] at hno
      exact absurd hv hno
    · cases (hl₀.symm.trans hl)
  | accepted hk hmap hd hr hl =>
    obtain ⟨htables, hparty⟩ := hattach (Subtype.ext hk).symm hmap
    have hm := hmap.wf hs.wf
    have htables' := tables_of_same hm
      (hm.accepted hd (by rw [ChannelHandle.is_connected, hl, hr]; rfl)) (party_accepted hd) rfl rfl
      htables
    exact ⟨_, hrun, hside htables'
      (hs.all_open.accepted (attached_remote_entries hmap hd).1), heffect, rfl,
      (party_accepted hd).trans hparty⟩
  | unknown hmsg => cases hmsg
  | not_open hmsg => cases hmsg
  | no_receiver hmsg => cases hmsg
  | delivered hmsg => cases hmsg

/-- Filling a queue does not matter to the invariant. -/
theorem Side.push (hs : Side keys hash p) (n : ℕ) (msg : Message X) :
    Side keys hash { p with channels := { p.channels with
      shared := p.channels.shared.push n msg } } :=
  have hchange : MapChange (fun _ => False) p.channels
      { p.channels with shared := p.channels.shared.push n msg } := .push n msg
  hs.after ⟨rfl, rfl, rfl, rfl, rfl⟩ (.single hchange) (fun _ hop => hop.elim)
    (fun _ _ _ hop => hop.elim) ⟨[], (List.append_nil _).symm, fun _ h => absurd h List.not_mem_nil⟩
    ⟨hs.fresh.local_slot, hs.fresh.remote_slot⟩ hs.resolve hs.all_open

theorem Side.hears_close (hs : Side keys hash p) {i : ℕ} {c : Close}
    (hi : i < Vec.max_len SLOT_SIZE) :
    ∃ p', (Protocol.on_inbound_message ⟨UInt64.ofNat i, .Close c⟩).run p = .ok () p' ∧
      Heard keys hash p ⟨UInt64.ofNat i, .Close c⟩ (.closed i) p' := by
  obtain ⟨p', heff, hrun⟩ := Protocol.on_close_spec hs.wf (UInt64.ofNat i) c
  refine ⟨p', hrun, ?_⟩
  have heffect := heff
  have hside := hs.after_inbound heff fun ch o ho =>
    nomatch congrArg ChannelMessage.message ho
  cases heff with
  | close_unknown hr =>
    rw [toNat_ofNat_id hi] at hr
    have hnone := hs.get_remote_none hr
    exact ⟨hs, heffect, rfl, Party.ext (funext fun d => (if_neg (hnone d)).symm)
      (funext fun d => (if_neg (hnone d)).symm)⟩
  | closed hr hd htold hmap =>
    rw [toNat_ofNat_id hi] at hr
    have htheirs := (hs.get_remote hr).1
    rename_i h m₁ m
    -- telling the channel first changes nothing of the entries
    obtain ⟨hm₁, hparty₁, htables₁, hopen₁⟩ : m₁.Wf ∧ party m₁ = party p.channels ∧
        (NoStaleSlots m₁ ∧ RemoteIdsResolve m₁) ∧ AllOpen m₁ := by
      rcases htold with ⟨n, -, -, rfl⟩ | ⟨-, rfl⟩
      · have hpush := hs.push n (.Close c)
        exact ⟨hpush.wf, rfl, ⟨hpush.fresh, hpush.resolve⟩, hpush.all_open⟩
      · exact ⟨hs.wf, rfl, ⟨hs.fresh, hs.resolve⟩, hs.all_open⟩
    obtain ⟨htables, hopen⟩ := removed_kept hm₁ htables₁ hopen₁ hmap
    refine ⟨hside htables hopen, heffect, rfl, ?_⟩
    rw [hs.recv_closed htheirs, ← hparty₁]
    exact party_remove hmap
  | unknown hmsg => exact nomatch hmsg
  | delivered hmsg => exact nomatch hmsg

theorem Side.hears_data (hs : Side keys hash p) {i : ℕ} {msg : Message X}
    (hi : i < Vec.max_len SLOT_SIZE) (hmsg : msg.is_open_or_close = false)
    (hexp : (party p.channels).Expected (.data i)) :
    ∃ p', (Protocol.on_inbound_message ⟨UInt64.ofNat i, msg⟩).run p = .ok () p' ∧
      Heard keys hash p ⟨UInt64.ofNat i, msg⟩ (.data i) p' := by
  have hforward : (Protocol.on_inbound_message ⟨UInt64.ofNat i, msg⟩ : ProtocolMethod X σ Unit) =
      Protocol.on_channels (ChannelMap.forward_inbound_message (UInt64.ofNat i).toNat msg) := by
    cases msg with
    | Open => exact nomatch hmsg
    | Close => exact nomatch hmsg
    | _ => rfl
  obtain ⟨result, p', heff, hrun⟩ := Protocol.forward_spec p (UInt64.ofNat i) hmsg
  rw [hforward]
  have heffect := heff
  -- the key is attached from both sides, so the entry has a queue, and it has a receiver
  have hopen : ∀ {h : ChannelHandle}, p.channels.get_remote (UInt64.ofNat i).toNat = some h →
      ∃ n, h.inbound_tx = some n ∧ p.channels.receives n = true := by
    intro h hr
    rw [toNat_ofNat_id hi] at hr
    obtain ⟨htheirs, hd⟩ := hs.get_remote hr
    obtain ⟨l, hmine⟩ := Option.ne_none_iff_exists'.mp (hexp _ htheirs)
    rw [party_mine hd] at hmine
    rw [party_theirs hd] at htheirs
    have hconn : h.is_connected = true := is_connected_iff.mpr ⟨by rw [hmine]; rfl,
      by rw [htheirs]; rfl⟩
    obtain ⟨n, hn⟩ := Option.isSome_iff_exists.mp (hs.all_open _ h hd hconn)
    exact ⟨n, hn, hs.listening n ((hs.wf.fits hd).inbox_lt hn)⟩
  cases heff with
  | unknown _ hr => exact ⟨_, hrun, hs, heffect, rfl, rfl⟩
  | not_open _ hr hn =>
    obtain ⟨n, hn', -⟩ := hopen hr
    exact nomatch hn.symm.trans hn'
  | no_receiver _ hr hn ha =>
    obtain ⟨n, hn', ha'⟩ := hopen hr
    obtain rfl := Option.some.inj (hn.symm.trans hn')
    exact nomatch ha.symm.trans ha'
  | delivered _ hr hn ha => exact ⟨_, hrun, hs.push _ msg, heffect, rfl, rfl⟩
  | bad_key => exact nomatch hmsg
  | announced => exact nomatch hmsg
  | refused => exact nomatch hmsg
  | accepted => exact nomatch hmsg
  | close_unknown => exact nomatch hmsg
  | closed => exact nomatch hmsg

/-- A message that is expected is handled without an error, as its signal. One case for each kind
of message. -/
theorem Side.hears (hs : Side keys hash p) (hinj : Set.InjOn (discovery_key_of X) keys)
    {msg : ChannelMessage X} {x : Signal DiscoveryKey ℕ}
    (hmsg : Carries X (!p.is_initiator) hash keys msg x) (hexp : (party p.channels).Expected x) :
    ∃ p', (Protocol.on_inbound_message msg).run p = .ok () p' ∧ Heard keys hash p msg x p' := by
  cases hmsg with
  | opened hkey hi hcap => exact hs.hears_open hinj hkey hi hcap hexp
  | closed hi => exact hs.hears_close hi
  | data hi hmsg => exact hs.hears_data hi hmsg hexp

/-! ## Two peers -/

/-- The two protocols, by a boolean: side `i` and side `!i`. -/
abbrev Peers (X : Deps) (σ : Type) := Bool → Protocol X σ

inductive PeerAction (X : Deps) where
  | opens (i : Bool) (key : Key)
  | sends (i : Bool) (c : Channel) (msgs : List (Message X))
  | closes (i : Bool) (c : Channel)
  /-- Side `i` gets the next message of the other side. -/
  | delivers (i : Bool)

/-- What two honest peers do. What a send or a close queues is handled in the same step. -/
inductive PeerStep (keys : Set Key) : Peers X σ → PeerAction X → Peers X σ → Prop where
  | opens {s : Peers X σ} {i : Bool} {key : Key} {p : Protocol X σ} (hkey : key ∈ keys)
      (hnone : ∀ h, (s i).channels.channels (discovery_key_of X key) = some h →
        h.local_state = none)
      (h : Method.Leaves (Protocol.on_command (.Open key)) (s i) p) :
      PeerStep keys s (.opens i key) (Function.update s i p)
  | sends {s : Peers X σ} {i : Bool} {c : Channel} {msgs : List (Message X)} {p : Protocol X σ}
      (hc : Established (s i) c) (hmsgs : ∀ msg ∈ msgs, msg.is_open_or_close = false)
      (h : Method.Leaves (Protocol.on_outbound_batch (batch_of c msgs)) (s i) p) :
      PeerStep keys s (.sends i c msgs) (Function.update s i p)
  | closes {s : Peers X σ} {i : Bool} {c : Channel} {p : Protocol X σ} (hc : Established (s i) c)
      (h : Method.Leaves (Protocol.on_outbound_batch (batch_of c [close_of c])) (s i) p) :
      PeerStep keys s (.closes i c) (Function.update s i
        { p with channels := { p.channels with shared := p.channels.shared.store_true c.closed } })
  | delivers {s : Peers X σ} {i : Bool} {msg : ChannelMessage X} {rest : List (ChannelMessage X)}
      {p : Protocol X σ} (hq : (s !i).io.write_queue = msg :: rest)
      (h : Method.Leaves (Protocol.on_inbound_message msg) (s i) p) :
      PeerStep keys s (.delivers i) (Function.update (Function.update s i p) (!i)
        { s !i with io := { (s !i).io with write_queue := rest } })

/-- The handshake is complete on both sides, and nothing else has happened. The roles differ, and
the hash is the same. -/
structure Handshaken (hash : Vec UInt8) (s : Peers X σ) : Prop where
  channels : ∀ i, (s i).channels = ChannelMap.new
  write_queue : ∀ i, (s i).io.write_queue = []
  queued_events : ∀ i, (s i).queued_events = []
  handshake_hash : ∀ i, (s i).io.handshake_hash = some hash
  remote_key : ∀ i, (s i).io.remote_public_key.isSome
  roles : ∀ i, (s !i).is_initiator = !(s i).is_initiator

/-- The messages between `p` and `q` stand for signals under which the two agree. The two write
queues are the links. -/
def Linked (keys : Set Key) (hash : Vec UInt8) (p q : Protocol X σ) : Prop :=
  ∃ pq qp, List.Forall₂ (Carries X p.is_initiator hash keys) p.io.write_queue pq ∧
    List.Forall₂ (Carries X q.is_initiator hash keys) q.io.write_queue qp ∧
    Agreed (party p.channels) (party q.channels) pq qp

omit [CipherTrait σ] in
theorem Linked.symm (h : Linked keys hash p q) : Linked keys hash q p := by
  obtain ⟨pq, qp, hpq, hqp, hagreed⟩ := h
  exact ⟨qp, pq, hqp, hpq, hagreed.symm⟩

/-- **The invariant of two honest peers**: each side is in order by itself, their roles differ,
and they are linked. -/
structure Joined (keys : Set Key) (hash : Vec UInt8) (s : Peers X σ) : Prop where
  side : ∀ i, Side keys hash (s i)
  roles : ∀ i, (s !i).is_initiator = !(s i).is_initiator
  linked : ∀ i, Linked keys hash (s i) (s !i)

variable {s s' : Peers X σ} {i : Bool}

/-- It is enough to look from one of the sides, since all that is said of two is symmetric. -/
theorem joined_of (i : Bool) (hi : Side keys hash (s i)) (hni : Side keys hash (s !i))
    (hrole : (s !i).is_initiator = !(s i).is_initiator) (hlinked : Linked keys hash (s i) (s !i)) :
    Joined keys hash s := by
  have hcases : ∀ j, j = i ∨ j = !i := by
    intro j
    cases i <;> cases j <;> decide
  refine ⟨fun j => ?_, fun j => ?_, fun j => ?_⟩
  · rcases hcases j with rfl | rfl
    · exact hi
    · exact hni
  · rcases hcases j with rfl | rfl
    · exact hrole
    · rw [hrole, Bool.not_not, Bool.not_not]
  · rcases hcases j with rfl | rfl
    · exact hlinked
    · rw [Bool.not_not]
      exact hlinked.symm

/-- One side has done something and told the other of it, whose state is untouched. -/
theorem Joined.local_step (hs : Joined keys hash s) (hside : Side keys hash p)
    (hrole : p.is_initiator = (s i).is_initiator) (hlinked : Linked keys hash p (s !i)) :
    Joined keys hash (Function.update s i p) := by
  have hself : Function.update s i p i = p := Function.update_self i p s
  have hother : Function.update s i p (!i) = s !i :=
    Function.update_of_ne (Bool.not_ne_self i) p s
  refine joined_of i ?_ ?_ ?_ ?_
  · rw [hself]
    exact hside
  · rw [hother]
    exact hs.side !i
  · rw [hself, hother, hrole]
    exact hs.roles i
  · rw [hself, hother]
    exact hlinked

theorem joined_of_handshaken (h : Handshaken hash s) : Joined keys hash s := by
  have hside : ∀ i, Side keys hash (s i) := by
    intro i
    -- a new map has no entries, so most of the invariant says nothing
    have hnone : ∀ d, (s i).channels.channels d = none := fun d => by rw [h.channels]; rfl
    refine ⟨?_, ?_, ?_, ?_, ?_, ?_, ?_, ?_, ?_, h.handshake_hash i, h.remote_key i⟩
    · rw [h.channels]
      exact ChannelMap.wf_new
    · rw [h.channels]
      exact noStaleSlots_new
    · exact fun d h r hd => nomatch (hnone d).symm.trans hd
    · rw [h.channels]
      show 1 ≤ Vec.max_len SLOT_SIZE
      decide
    · rw [h.channels]
      exact fun n hn => absurd hn (Nat.not_lt_zero n)
    · exact fun d h hd => nomatch (hnone d).symm.trans hd
    · exact fun d h ls hd => nomatch (hnone d).symm.trans hd
    · exact fun d h rs hd => nomatch (hnone d).symm.trans hd
    · rw [h.queued_events]
      exact fun c hc => absurd hc List.not_mem_nil
  refine ⟨hside, h.roles, fun i => ⟨[], [], ?_, ?_, ?_⟩⟩
  · rw [h.write_queue]
    exact .nil
  · rw [h.write_queue]
    exact .nil
  · rw [h.channels, h.channels]
    exact ⟨trivial, trivial, rfl, rfl⟩

/-- Ids are not shared: the key of an id of ours is the only one with it. -/
theorem Side.mine_inj (hs : Side keys hash p) {l : ℕ}
    (hl : (party p.channels).mine d = some l) (d' : DiscoveryKey)
    (hl' : (party p.channels).mine d' = some l) : d' = d := by
  rw [hs.mine_iff] at hl hl'
  exact Option.some.inj (hl'.symm.trans hl)

/-- The message that is next on the way to side `i` is handled there without an error, as the
agreement says that it is expected. -/
theorem Joined.hears (hs : Joined keys hash s) (hinj : Set.InjOn (discovery_key_of X) keys)
    {msg : ChannelMessage X} {rest : List (ChannelMessage X)}
    (hq : (s !i).io.write_queue = msg :: rest) :
    ∃ p, (Protocol.on_inbound_message msg).run (s i) = .ok () p ∧ Side keys hash p ∧
      p.is_initiator = (s i).is_initiator ∧
      Linked keys hash p { s !i with io := { (s !i).io with write_queue := rest } } := by
  obtain ⟨out, inn, hout, hinn, hagreed⟩ := hs.linked i
  rw [hq] at hinn
  cases hinn with
  | cons hmsg hrest =>
    rw [hs.roles] at hmsg
    obtain ⟨hexp, hagreed⟩ := hagreed.receive
    obtain ⟨p, hrun, hheard⟩ := (hs.side i).hears hinj hmsg hexp
    have hrole := hheard.effect.frame.is_initiator
    refine ⟨p, hrun, hheard.side, hrole, out, _, ?_, hrest, ?_⟩
    · rw [hrole, hheard.write_queue]
      exact hout
    · rw [hheard.party]
      exact hagreed

/-- Every step keeps the invariant: opening, sending and closing by the lemmas about one side,
and a delivery by `Joined.hears`. -/
theorem Joined.step (hs : Joined keys hash s) (hinj : Set.InjOn (discovery_key_of X) keys)
    {a : PeerAction X} (h : PeerStep keys s a s') : Joined keys hash s' := by
  cases h with
  | @opens i key p hkey hnone hleaves =>
    have hmine : (party (s i).channels).mine (discovery_key_of X key) = none := by
      cases hd : (s i).channels.channels (discovery_key_of X key) with
      | none => simp only [party, hd, Option.bind_none]
      | some h => rw [party_mine hd, ChannelHandle.local_id, hnone h hd, Option.map_none]
    obtain ⟨l, msg, heff, hside, hqueue, hmsg, hparty, hunused⟩ :=
      (hs.side i).opens hinj hkey hmine hleaves
    have hrole := heff.frame.is_initiator
    obtain ⟨out, inn, hout, hinn, hagreed⟩ := hs.linked i
    refine hs.local_step hside hrole ⟨out ++ [.opened (discovery_key_of X key) l], inn, ?_, hinn,
      ?_⟩
    · rw [hrole, hqueue]
      exact List.rel_append hout (.cons hmsg .nil)
    · rw [hparty]
      exact hagreed.number hmine hunused
  | @sends i c msgs p hc hmsgs hleaves =>
    obtain ⟨hside, hrole, hparty, msgs', hqueue, hcarried⟩ := (hs.side i).sends hc hmsgs hleaves
    obtain ⟨hmine, ⟨r, htheirs⟩, -⟩ := (hs.side i).established hc
    obtain ⟨out, inn, hout, hinn, hagreed⟩ := hs.linked i
    refine hs.local_step hside hrole ⟨out ++ msgs'.map fun _ => .data c.local_id, inn, ?_, hinn, ?_⟩
    · rw [hrole, hqueue]
      exact List.rel_append hout hcarried
    · rw [hparty]
      exact hagreed.sends ((hs.side i).mine_inj hmine) hmine htheirs msgs'
  | @closes i c p hc hleaves =>
    obtain ⟨hside, hrole, hparty, hqueue⟩ := (hs.side i).closes hc hleaves
    obtain ⟨hmine, ⟨r, htheirs⟩, hi⟩ := (hs.side i).established hc
    obtain ⟨out, inn, hout, hinn, hagreed⟩ := hs.linked i
    refine hs.local_step (hside.store_true _) hrole ⟨out ++ [.closed c.local_id], inn, ?_, hinn, ?_⟩
    · show List.Forall₂ (Carries X p.is_initiator hash keys) p.io.write_queue _
      rw [hrole, hqueue]
      exact List.rel_append hout (.cons (.closed hi) .nil)
    · show Agreed (party p.channels) _ _ _
      rw [hparty]
      exact hagreed.forget ((hs.side i).mine_inj hmine) hmine htheirs
  -- the message leaves the other side's queue as it is handled on this one
  | @delivers i msg rest p hq hleaves =>
    obtain ⟨p', hrun, hside, hrole, hlinked⟩ := hs.hears hinj hq
    obtain rfl := Method.leaves_of_run_ok hrun hleaves
    refine joined_of i ?_ ?_ ?_ ?_
    all_goals
      simp only [Function.update_self, Function.update_of_ne (Bool.not_ne_self i).symm]
    · exact hside
    · exact (hs.side !i).with_write_queue rest
    · rw [hrole]
      exact hs.roles i
    · exact hlinked

/-- The key is attached from both sides, as far as this side knows. -/
def Connected (m : ChannelMap X) (d : DiscoveryKey) : Prop :=
  ∃ h, m.channels d = some h ∧ h.is_connected = true

/-- The entry of the key has this local id. -/
def HasLocalId (m : ChannelMap X) (d : DiscoveryKey) (l : ℕ) : Prop :=
  ∃ h, m.channels d = some h ∧ h.local_id = some l

def HasRemoteId (m : ChannelMap X) (d : DiscoveryKey) (r : ℕ) : Prop :=
  ∃ h, m.channels d = some h ∧ h.remote_id = some r

theorem connected_iff_party : Connected m d ↔
    ((party m).mine d).isSome ∧ ((party m).theirs d).isSome := by
  constructor
  · rintro ⟨h, hd, hc⟩
    rw [party_mine hd, party_theirs hd]
    exact is_connected_iff.mp hc
  · rintro ⟨hl, hr⟩
    obtain ⟨l, hmine⟩ := Option.isSome_iff_exists.mp hl
    obtain ⟨h, hd, -⟩ := Option.bind_eq_some_iff.mp hmine
    rw [party_mine hd] at hl
    rw [party_theirs hd] at hr
    exact ⟨h, hd, is_connected_iff.mpr ⟨hl, hr⟩⟩

/-- Two honest peers after the handshake, that open keys from `keys`, send on channels and
close them, in any order. No message that arrives makes its handler fail. And whenever
nothing is on the way, the two agree about every key: whether it is connected, and which
ids it has on either side. -/
theorem peers_agree (hinj : Set.InjOn (discovery_key_of X) keys) {s₀ : Peers X σ}
    (h₀ : Handshaken hash s₀) {tr : List (Transition (Peers X σ) (PeerAction X))}
    (run : Run (PeerStep keys) s₀ tr s) :
    (∀ i msg rest, (s !i).io.write_queue = msg :: rest →
      ∃ p, (Protocol.on_inbound_message msg).run (s i) = .ok () p) ∧
    ((∀ i, (s i).io.write_queue = []) → ∀ d,
      (Connected (s true).channels d ↔ Connected (s false).channels d) ∧
      ∀ i l, HasLocalId (s i).channels d l ↔ HasRemoteId (s !i).channels d l) := by
  have hs : Joined keys hash s := run.invariant (I := fun _ s => Joined keys hash s)
    (joined_of_handshaken h₀) fun _ _ _ _ _ hs h => hs.step hinj h
  refine ⟨fun i msg rest hq => ?_, fun hempty d => ?_⟩
  · obtain ⟨p, hrun, -⟩ := hs.hears hinj hq
    exact ⟨p, hrun⟩
  · -- with nothing on the way the two parties mirror each other
    have hsettled : ∀ i, (party (s i).channels).mine = (party (s !i).channels).theirs ∧
        (party (s i).channels).theirs = (party (s !i).channels).mine := by
      intro i
      obtain ⟨out, inn, hout, hinn, hagreed⟩ := hs.linked i
      rw [hempty, List.forall₂_nil_left_iff] at hout hinn
      subst hout hinn
      exact hagreed.settled
    refine ⟨?_, fun i l => ?_⟩
    · rw [connected_iff_party, connected_iff_party, (hsettled true).1, (hsettled true).2]
      exact and_comm
    · have hids := congrFun (hsettled i).1 d
      simp only [party] at hids
      rw [HasLocalId, HasRemoteId, ← Option.bind_eq_some_iff, ← Option.bind_eq_some_iff, hids]

/-- Each side opens the same key and hears of the other's opening. -/
theorem peers_agree_connected : ∃ tr, ∃ s : Peers deps Memory,
    Run (PeerStep {sample 1}) (fun i => Protocol.new (Memory.connected i)) tr s ∧ tr.length = 4 ∧
      (∀ i, (s i).io.write_queue = []) ∧
      ∀ i, Connected (s i).channels (discovery_key_of deps (sample 1)) := by
  have run₁ : Run (PeerStep {sample 1})
      ((fun i => Protocol.new (Memory.connected i)) : Peers deps Memory) _ _ :=
    .snoc .nil (.opens (i := true) rfl (fun _ h => nomatch h) (Or.inl ⟨(), rfl⟩))
  have run₂ := run₁.snoc (.delivers (i := false) rfl (Or.inl ⟨(), rfl⟩))
  have run₃ := run₂.snoc (.opens (i := false) rfl
    (fun h hd => by obtain rfl := Option.some.inj hd; rfl) (Or.inl ⟨(), rfl⟩))
  have run₄ := run₃.snoc (.delivers (i := true) rfl (Or.inl ⟨(), rfl⟩))
  obtain ⟨tr, s, run, hlen, hempty, htrue⟩ : ∃ tr, ∃ s : Peers deps Memory,
      Run (PeerStep {sample 1}) (fun i => Protocol.new (Memory.connected i)) tr s ∧ tr.length = 4 ∧
      (∀ i, (s i).io.write_queue = []) ∧
      Connected (s true).channels (discovery_key_of deps (sample 1)) :=
    ⟨_, _, run₄, rfl, (fun i => by cases i <;> rfl), _, rfl, rfl⟩
  refine ⟨tr, s, run, hlen, hempty, fun i => ?_⟩
  have hstart : Handshaken (to_vec (sample 0))
      ((fun i => Protocol.new (Memory.connected i)) : Peers deps Memory) :=
    ⟨fun _ => rfl, fun _ => rfl, fun _ => rfl, fun _ => rfl, fun _ => rfl, fun _ => rfl⟩
  have hagree := (peers_agree (Set.injOn_singleton _ _) hstart run).2
    hempty (discovery_key_of deps (sample 1))
  cases i with
  | true => exact htrue
  | false => exact hagree.1.mp htrue

end hypercore_protocol.session
