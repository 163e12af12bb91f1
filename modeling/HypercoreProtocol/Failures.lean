/-
What a failed operation leaves behind.

Both opening handlers attach the entry first and verify the capability of the
remote afterwards, and nothing undoes the attachment when the verification
fails. So a refused `Open` is the one error that leaves a trace, and it does in
every state that allows it; the only refused `Open` without one is a message that
repeats what the entry already holds. All other errors are raised before anything
is changed.
-/
import HypercoreProtocol.Establishment

set_option autoImplicit false

namespace hypercore_protocol.session

open Rust Wire Runs schema message channels mqueue protocol crypto compact_encoding

variable {X : Deps} {σ : Type} [CipherTrait σ] {p p' : Protocol X σ} {s : Session X σ}
  {m m' : ChannelMap X} {d : DiscoveryKey}

/-! ## The property -/

/-- The entries, both id tables, the event queue and the write queue are the same. So whoever
gets the error finds them as if the call had not been made. -/
structure NoTrace (p p' : Protocol X σ) : Prop where
  entries : p'.channels.channels = p.channels.channels
  local_id : p'.channels.local_id = p.channels.local_id
  remote_id : p'.channels.remote_id = p.channels.remote_id
  queued_events : p'.queued_events = p.queued_events
  write_queue : p'.io.write_queue = p.io.write_queue

/-- If the call returns `Err`, nothing has changed. A call that succeeds or panics may have
changed anything. -/
def FailsCleanly (f : ProtocolMethod X σ Unit) (p : Protocol X σ) : Prop :=
  ∀ e p', f.run p = .error (.err e) p' → NoTrace p p'

omit [CipherTrait σ] in
theorem noTrace_refl (p : Protocol X σ) : NoTrace p p := ⟨rfl, rfl, rfl, rfl, rfl⟩

/-! ## The condition -/

/-- The command opens a key that the remote has opened with another capability. (The
handshake is there, and there is an id for it.) -/
def CommandRefused (p : Protocol X σ) (c : Command) : Prop :=
  ∃ key h rs, c = .Open key ∧ p.channels.channels (discovery_key_of X key) = some h ∧
    h.remote_state = some rs ∧ ¬ p.Verified key rs.remote_capability ∧ p.Ready ∧
    p.channels.HasRoom

/-- The message opens a key that is open here with a capability that is not the one for
it, and it is news: the entry does not have its id and its capability already. (The
handshake is there, and the table of remote ids takes the id.) -/
def InboundRefused (p : Protocol X σ) (msg : ChannelMessage X) : Prop :=
  ∃ ch o d h ls, msg = ⟨ch, .Open o⟩ ∧ o.discovery_key.val = d.val ∧
    p.channels.channels d = some h ∧ h.local_state = some ls ∧
    ¬ p.Verified ls.key o.capability ∧ p.Ready ∧ p.channels.TakesRemote ch.toNat ∧
    ¬ (h.remote_state = some ⟨ch.toNat, o.capability⟩ ∧
      p.channels.remote_id.slot ch.toNat = some d)

/-! ## Commands -/

/-- What `attach_local` leaves of the entry, and of the table of local ids: the remote state
stays, and the table has changed. -/
theorem attached_local_entry {key : Key} {h : ChannelHandle} {rs : RemoteState}
    (hmap : MapEffect m (.attach_local key) m')
    (hd : m'.channels (discovery_key_of X key) = some h) (hr : h.remote_state = some rs) :
    (∃ h₀, m.channels (discovery_key_of X key) = some h₀ ∧ h₀.remote_state = some rs) ∧
      m.HasRoom ∧ m'.local_id ≠ m.local_id := by
  cases hmap with
  | attached_local hkey hi hlen hfree hslot hroom =>
    rename_i i v _
    subst hkey
    refine ⟨?_, hroom, fun heq => ?_⟩
    · rcases ChannelMap.update_some_iff.mp hd with ⟨-, rfl⟩ | ⟨hne, -⟩
      · rcases entry_cases m (discovery_key_of X key) with hd₀ | ⟨-, hnone, -⟩
        · exact ⟨_, hd₀, hr⟩
        · exact nomatch hnone.symm.trans hr
      · exact absurd rfl hne
    · -- the slot of the new id was free
      have hnew := hslot i
      rw [if_pos rfl, show v = m.local_id from heq, hfree] at hnew
      exact nomatch hnew

theorem command_fails_cleanly_iff (hm : p.channels.Wf) (c : Command) :
    FailsCleanly (Protocol.on_command c) p ↔ ¬ CommandRefused p c := by
  constructor
  · rintro hclean ⟨key, h, rs, rfl, hd, hr, hv, hready, hroom⟩
    rcases Protocol.on_command_spec hm (.Open key) with
      ⟨result, p', heff, hrun⟩ | ⟨pan, p', hpan, -⟩
    · -- the entry keeps the remote state, so the command is refused
      cases heff with
      | opened hmap hd' hl hr' => exact nomatch hr'.symm.trans (attached_local_keeps hd hr hmap hd')
      | refused hmap hd' hl hr' =>
        exact (attached_local_entry hmap hd' hr').2.2 (hclean _ _ hrun).local_id
      | accepted hmap hd' hl hr' hv' =>
        rw [Option.some.inj (hr'.symm.trans (attached_local_keeps hd hr hmap hd'))] at hv'
        exact hv hv'
    · rcases hpan with ⟨-, hno⟩ | ⟨-, hno⟩
      · exact hno hroom
      · exact hno hready
  · -- of all the ways a command can end only a refusal is an error
    intro hno e p' hrun
    rcases Protocol.on_command_spec hm c with ⟨result, q, heff, hrun'⟩ | ⟨pan, q, -, hrun'⟩
    · cases heff with
      | refused hmap hd hl hr hv hready =>
        obtain ⟨⟨h₀, hd₀, hr₀⟩, hroom, -⟩ := attached_local_entry hmap hd hr
        exact absurd ⟨_, h₀, _, rfl, hd₀, hr₀, hv, hready, hroom⟩ hno
      | _ => exact nomatch hrun.symm.trans hrun'
    · exact nomatch hrun.symm.trans hrun'

/-! ## Messages -/

/-- What `attach_remote` leaves of an entry that is open here. If the entry had the id and
the capability already, nothing changes. -/
theorem attached_remote_entry {r : ℕ} {cap : Option (Vec UInt8)} {h : ChannelHandle}
    {ls : LocalState} (hmap : MapEffect m (.attach_remote d r cap) m')
    (hd : m'.channels d = some h) (hl : h.local_state = some ls) :
    m.TakesRemote r ∧ m'.remote_id.slot r = some d ∧
    ∃ h₀, m.channels d = some h₀ ∧ h₀.local_state = some ls ∧
      (h₀.remote_state = some ⟨r, cap⟩ → m.remote_id.slot r = some d →
        m'.channels = m.channels ∧ m'.local_id = m.local_id ∧ m'.remote_id = m.remote_id) := by
  cases hmap with
  | attached_remote hr hlen hslot htakes hgrow =>
    rename_i v
    refine ⟨htakes, (hslot r).trans (if_pos rfl), ?_⟩
    rcases ChannelMap.update_some_iff.mp hd with ⟨-, rfl⟩ | ⟨hne, -⟩
    swap
    · exact absurd rfl hne
    rcases entry_cases m d with hd₀ | ⟨hnone, -⟩
    swap
    · exact nomatch hnone.symm.trans hl
    refine ⟨_, hd₀, hl, fun hrs hs => ⟨?_, rfl, ?_⟩⟩
    · -- writing the same state again changes neither the entry nor its slot
      have hsame : (m.entry d).attach_remote r cap = m.entry d := by
        rw [ChannelHandle.attach_remote, ← hrs]
      show Function.update m.channels d _ = m.channels
      rw [hsame, ← hd₀, Function.update_eq_self]
    · refine Vec.ext_slot ?_ fun j => ?_
      · have hlt := Vec.lt_len_of_slot hs
        show v.len = m.remote_id.len
        omega
      · show v.slot j = m.remote_id.slot j
        rw [hslot j]
        split
        · rename_i hj
          rw [hj, hs]
        · rfl

theorem inbound_fails_cleanly_iff (hm : p.channels.Wf) (msg : ChannelMessage X) :
    FailsCleanly (Protocol.on_inbound_message msg) p ↔ ¬ InboundRefused p msg := by
  constructor
  · rintro hclean ⟨ch, o, d, h, ls, rfl, hk, hd, hl, hv, hready, htakes, hnews⟩
    rcases Protocol.on_inbound_message_spec hm ⟨ch, .Open o⟩ with
      ⟨result, p', heff, hrun⟩ | ⟨pan, p', ⟨o', -, -, hpan⟩, -⟩
    · cases heff with
      | bad_key hlen => exact hlen (hk ▸ d.property)
      | announced hk' hmap hd' hr' hl' =>
        exact nomatch hl'.symm.trans (attached_remote_keeps hd hl hk hk' hmap hd').2
      | refused hk' hmap hd' hr' hl' =>
        obtain ⟨rfl, -⟩ := attached_remote_keeps hd hl hk hk' hmap hd'
        -- without a trace the entry and the slot would have been the same before
        obtain ⟨-, hslot, -⟩ := attached_remote_entry hmap hd' hl'
        have htrace := hclean _ _ hrun
        have hentry := congrFun htrace.entries
        refine hnews ⟨?_, ?_⟩
        · rw [← Option.some.inj (hd'.symm.trans ((hentry _).trans hd)), hr']
        · rw [← htrace.remote_id]
          exact hslot
      | accepted hk' hmap hd' hr' hl' hv' =>
        obtain ⟨rfl, hl''⟩ := attached_remote_keeps hd hl hk hk' hmap hd'
        rw [Option.some.inj (hl'.symm.trans hl'')] at hv'
        exact hv hv'
      | unknown hmsg => exact nomatch hmsg
      | not_open hmsg => exact nomatch hmsg
      | no_receiver hmsg => exact nomatch hmsg
      | delivered hmsg => exact nomatch hmsg
    · rcases hpan with ⟨-, hno⟩ | ⟨-, hmax⟩ | ⟨-, hno⟩
      · exact hno htakes
      · -- the last id fits into no table
        change ch.toNat = USIZE_MAX at hmax
        rcases htakes with hlt | hlt
        · have := p.channels.remote_id.len_le
          simp only [Vec.len] at hlt
          omega
        · have := Vec.max_len_le SLOT_SIZE
          omega
      · exact hno hready
  · intro hno e p' hrun
    rcases Protocol.on_inbound_message_spec hm msg with
      ⟨result, q, heff, hrun'⟩ | ⟨pan, q, -, hrun'⟩
    swap
    · exact nomatch hrun.symm.trans hrun'
    have hq : ∀ {e'}, result = some e' → p' = q := by
      rintro e' rfl
      have := hrun.symm.trans hrun'
      injection this
    cases heff with
    | bad_key => rw [hq rfl]; exact noTrace_refl p
    | refused hk hmap hd hr hl hv hready =>
      rw [hq rfl]
      obtain ⟨htakes, -, h₀, hd₀, hl₀, hsame⟩ := attached_remote_entry hmap hd hl
      by_contra htrace
      refine hno ⟨_, _, _, h₀, _, rfl, hk, hd₀, hl₀, hv, hready, htakes, fun hnews => htrace ?_⟩
      obtain ⟨h₁, h₂, h₃⟩ := hsame hnews.1 hnews.2
      exact ⟨h₁, h₂, h₃, rfl, rfl⟩
    | not_open => rw [hq rfl]; exact noTrace_refl p
    | no_receiver => rw [hq rfl]; exact noTrace_refl p
    | _ => exact nomatch hrun.symm.trans hrun'

/-! ## The theorem -/

/-- In every reachable session, commands and messages fail without a trace exactly when
they are not a refused `Open`. -/
theorem fails_cleanly_iff {stream : σ} {tr : List (Happening X σ)}
    (run : Run Step (Session.new stream) tr s) :
    (∀ c, FailsCleanly (Protocol.on_command c) s.protocol ↔ ¬ CommandRefused s.protocol c) ∧
    ∀ msg, FailsCleanly (Protocol.on_inbound_message msg) s.protocol ↔
      ¬ InboundRefused s.protocol msg :=
  ⟨command_fails_cleanly_iff (reachable_inv run).wf,
    inbound_fails_cleanly_iff (reachable_inv run).wf⟩

/-- An `Open` without a key, in the established session. It fails before anything is attached. -/
theorem fails_cleanly_iff_bad_key :
    ∃ tr, Run Step (Session.new (Memory.connected false) : Session deps Memory) tr established ∧
      ∃ p', (Protocol.on_inbound_message
          ⟨2, .Open ⟨2, PROTOCOL_NAME, Vec.empty, none⟩⟩).run established.protocol
          = .error (.err invalid_key) p' ∧ NoTrace established.protocol p' := by
  obtain ⟨tr, run, -⟩ := established_reachable
  have hrun : (Protocol.on_inbound_message
      ⟨2, .Open ⟨2, PROTOCOL_NAME, Vec.empty, none⟩⟩).run established.protocol
      = .error (.err invalid_key) established.protocol := rfl
  refine ⟨tr, run, _, hrun, ((fails_cleanly_iff run).2 _).mpr ?_ _ _ hrun⟩
  rintro ⟨ch, o, d, h, ls, hmsg, hk, -⟩
  obtain ⟨-, ho⟩ := ChannelMessage.mk.inj hmsg
  rw [← Message.Open.inj ho] at hk
  exact absurd (congrArg List.length hk) (by rw [d.property]; decide)

/-- An `Open` with a wrong capability, in the established session: it is refused, and the
channel that was verified is attached to its id. -/
theorem fails_with_trace :
    ∃ tr, Run Step (Session.new (Memory.connected false) : Session deps Memory) tr established ∧
      ∃ p', (Protocol.on_inbound_message
          (open_message 2 first_channel.discovery_key none)).run established.protocol
          = .error (.err invalid_capability) p' ∧
        established.protocol.channels.remote_id.slot 2 = none ∧
        p'.channels.remote_id.slot 2 = some first_channel.discovery_key ∧
        ¬ NoTrace established.protocol p' := by
  obtain ⟨tr, run, -⟩ := established_reachable
  refine ⟨tr, run, _, rfl, rfl, rfl, fun htrace => ?_⟩
  have hslot := congrArg (fun table => table.slot 2) htrace.remote_id
  exact nomatch hslot

end hypercore_protocol.session
