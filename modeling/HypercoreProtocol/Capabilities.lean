/-
The proof that an opening carries.

`command_open` asks the connection for the handshake at the moment it handles the
command, and writes an `Open` without a capability if there is none yet. A peer
refuses such an `Open`. An initiator handles no command before its handshake is
complete, since `poll_next` returns before it comes to the commands; a responder
handles them on every poll.
-/
import HypercoreProtocol.Polled
import HypercoreProtocol.Establishment

set_option autoImplicit false

namespace hypercore_protocol.session

open Rust Wire Runs schema message channels mqueue protocol crypto compact_encoding

variable {X : Deps} {σ : Type} [CipherTrait σ] {p p' q : Protocol X σ} {s s' : Session X σ}
  {a : Action X} {tr : List (Happening X σ)}

/-! ## The property -/

/-- The peer has `key` open, and a message with this channel id finds a slot. The peer knows our
public key as well, which it has from the handshake. -/
structure HasOpen (q : Protocol X σ) (key : Key) (ch : UInt64) : Prop where
  wf : q.channels.Wf
  entry : ∃ h i, q.channels.channels (discovery_key_of X key) = some h ∧
    h.local_state = some ⟨key, i⟩
  takes : q.channels.TakesRemote ch.toNat
  remote_key : q.io.remote_public_key.isSome

/-- The peer establishes a channel for `key` when the message arrives: handling it queues the
event of the channel, and no other. -/
def Accepts (q : Protocol X σ) (key : Key) (msg : ChannelMessage X) : Prop :=
  ∃ q' c, (Protocol.on_inbound_message msg).run q = .ok () q' ∧ c.key = key ∧
    q'.queued_events = q.queued_events ++ [.Channel c]

/-- The `Open` that a handled command has written has the capability for its key, and
every peer with the same hash, the other role and the same key open accepts it. -/
def CarriesProof (t : Happening X σ) : Prop :=
  ∀ key msg, Handles (.Open key) t →
    t.post.protocol.io.write_queue = t.pre.protocol.io.write_queue ++ [msg] →
    ∃ hash cap i, t.pre.protocol.io.handshake_hash = some hash ∧
      (replicate_capability X t.pre.protocol.is_initiator key.val hash.val :
        Res IoError (Vec UInt8)) = .ok cap ∧
      msg = open_message i (discovery_key_of X key) (some cap) ∧
      ∀ q : Protocol X σ, q.io.handshake_hash = some hash →
        q.is_initiator = !t.pre.protocol.is_initiator → HasOpen q key msg.channel →
        Accepts q key msg

/-- A command to open a key is handled after the handshake. Of other steps, nothing is asked. -/
def OpensAfterHandshake (t : Happening X σ) : Prop :=
  ∀ key, Handles (.Open key) t → t.pre.protocol.handshake_result.isSome

/-! ## Accepting -/

/-- The last id fits into no table: a table up to it would have more slots than a `Vec` can
hold. -/
theorem takesRemote_ne_max {m : ChannelMap X} {r : ℕ} (h : m.TakesRemote r) : r ≠ USIZE_MAX := by
  intro hmax
  rcases h with hlt | hlt
  · have := m.remote_id.len_le
    simp only [Vec.len] at hlt
    omega
  · have := Vec.max_len_le SLOT_SIZE
    omega

/-- An `Open` with the right capability for a key that is open here establishes it. The panics of
the handler are excluded one by one: the id fits, and the handshake is there. -/
theorem accepts_open {ch : UInt64} {o : Open} {key : Key}
    (hq : HasOpen q key ch) (hk : o.discovery_key.val = (discovery_key_of X key).val)
    (hv : q.Verified key o.capability) (hready : q.Ready) :
    Accepts q key ⟨ch, .Open o⟩ := by
  obtain ⟨h, i, hd, hl⟩ := hq.entry
  rcases Protocol.on_inbound_message_spec hq.wf ⟨ch, .Open o⟩ with
    ⟨result, q', heff, hrun⟩ | ⟨pan, q', ⟨o', -, -, hpan⟩, -⟩
  · cases heff with
    | bad_key hlen => exact absurd (hk ▸ (discovery_key_of X key).property) hlen
    | announced hk' hmap hd' hr' hl' =>
      exact nomatch hl'.symm.trans (attached_remote_keeps hd hl hk hk' hmap hd').2
    | refused hk' hmap hd' hr' hl' hv' =>
      rw [Option.some.inj (hl'.symm.trans (attached_remote_keeps hd hl hk hk' hmap hd').2)] at hv'
      exact absurd hv hv'
    | accepted hk' hmap hd' hr' hl' =>
      refine ⟨_, _, hrun, ?_, rfl⟩
      rw [Option.some.inj (hl'.symm.trans (attached_remote_keeps hd hl hk hk' hmap hd').2)]
      rfl
    | unknown hmsg => exact nomatch hmsg
    | not_open hmsg => exact nomatch hmsg
    | no_receiver hmsg => exact nomatch hmsg
    | delivered hmsg => exact nomatch hmsg
  · -- none of the panics: the id fits, and the handshake is there
    rcases hpan with ⟨-, hno⟩ | ⟨-, hmax⟩ | ⟨-, hno⟩
    · exact absurd hq.takes hno
    · exact absurd hmax (takesRemote_ne_max hq.takes)
    · exact absurd hready hno

/-- What we show for a key is what a peer with the other role expects. Both compute it from the
key and the hash, and from the role of the one who shows it. -/
theorem accepts_offered {hash : Vec UInt8} {key : Key} {cap : Vec UInt8} {i : ℕ} {role : Bool}
    (hcap : (replicate_capability X role key.val hash.val : Res IoError (Vec UInt8)) = .ok cap)
    (hhash : q.io.handshake_hash = some hash) (hrole : q.is_initiator = !role)
    (hq : HasOpen q key (UInt64.ofNat i)) :
    Accepts q key (open_message i (discovery_key_of X key) (some cap)) := by
  refine accepts_open hq rfl ⟨hash, cap, hhash, ?_, rfl⟩ ?_
  · rw [hrole, Bool.not_not]
    exact hcap
  · obtain ⟨remote_key, hkey⟩ := Option.isSome_iff_exists.mp hq.remote_key
    refine ⟨remote_key, hash, hkey, hhash, ?_⟩
    rcases Protocol.replicate_capability_cases (X := X) (ε := IoError) role key.val hash.val with
      ⟨-, -⟩ | ⟨-, hpanic⟩
    · by_contra hlong
      simp only [replicate_capability, blake2b_mac, hlong, if_false, error_bind] at hcap
      cases hcap
    · cases (hpanic.symm.trans hcap)

/-! ## The `Open` of a command -/

/-- What a command to open a key writes: nothing if it is refused, which takes a
handshake, and otherwise an `Open` with what we can show for the key. -/
theorem command_writes {key : Key} {result : Option IoError}
    (heff : Protocol.CommandEffect p (.Open key) result p') :
    (p'.io.write_queue = p.io.write_queue ∧ p.handshake_result.isSome) ∨
      ∃ i cap, p.Offers key cap ∧ p'.io.write_queue = p.io.write_queue ++
        [open_message i (discovery_key_of X key) cap] := by
  cases heff with
  | opened _ _ _ _ hcap => exact Or.inr ⟨_, _, hcap, rfl⟩
  | refused _ _ _ _ _ hready =>
    obtain ⟨hs, hhs, -⟩ := Protocol.handshake_result_of_ready hready
    exact Or.inl ⟨rfl, by rw [hhs]; rfl⟩
  | accepted _ _ _ _ _ hcap => exact Or.inr ⟨_, _, hcap, rfl⟩

/-- A step that handles the command, with what it writes: one `Open`, or nothing if a capability
of the remote was refused, which takes a handshake. -/
theorem handles_writes {key : Key} (h : Step s a s') (hs : Inv s)
    (hact : Handles (.Open key) (⟨s, a, s'⟩ : Happening X σ)) :
    (s'.protocol.io.write_queue = s.protocol.io.write_queue ∧
      s.protocol.handshake_result.isSome) ∨
      ∃ i cap, s.protocol.Offers key cap ∧ s'.protocol.io.write_queue =
        s.protocol.io.write_queue ++ [open_message i (discovery_key_of X key) cap] := by
  obtain rfl : a = .protocol (.command (.Open key)) := hact
  rcases h.move_or_aside with ⟨move, hact, hmove⟩ | ⟨hno, -⟩
  · obtain rfl := Action.protocol.inj hact
    obtain ⟨rest, result, -, heff⟩ := command_effect hs.wf hmove
    exact (command_writes heff :)
  · exact absurd rfl (hno _)

theorem step_carries_proof_iff (h : Step s a s') (hs : Inv s) :
    CarriesProof (⟨s, a, s'⟩ : Happening X σ) ↔
      OpensAfterHandshake (⟨s, a, s'⟩ : Happening X σ) := by
  constructor
  · intro hproof key hact
    rcases handles_writes h hs hact with ⟨-, hsome⟩ | ⟨i, cap, hoffers, hwq⟩
    · exact hsome
    · -- without a handshake the message would have no capability
      obtain ⟨hash, cap', i', -, -, hmsg, -⟩ := hproof key _ hact hwq
      have hcap : cap = some cap' := congrArg Open.capability
        (Message.Open.inj (ChannelMessage.mk.inj hmsg).2)
      by_contra hnone
      rw [Option.not_isSome_iff_eq_none] at hnone
      rw [Protocol.Offers, show s.protocol.handshake_result = none from hnone] at hoffers
      cases (hoffers.symm.trans hcap)
  · intro hafter key msg hact hmsg
    obtain ⟨hs', hhs⟩ := Option.isSome_iff_exists.mp (hafter key hact)
    rcases handles_writes h hs hact with ⟨hwq, -⟩ | ⟨i, cap, hoffers, hwq⟩
    · have hlen := congrArg List.length (hwq.symm.trans hmsg)
      simp at hlen
    · rw [Protocol.Offers, show s.protocol.handshake_result = some hs' from hhs] at hoffers
      obtain ⟨c, hc, rfl⟩ := hoffers
      obtain ⟨-, hash, -, hhash, -, heq⟩ := Protocol.handshake_result_eq_some hhs
      rw [heq] at hc
      obtain rfl := List.singleton_inj.mp (List.append_cancel_left (hmsg.symm.trans hwq))
      exact ⟨hash, c, i, hhash, hc, rfl, fun q hq hrole hopen => accepts_offered hc hq hrole hopen⟩

/-! ## The theorem -/

/-- In every run, all `Open`s carry their proof exactly when the commands for them are
handled after the handshake. -/
theorem opens_carry_proof_iff {stream : σ} (run : Run Step (Session.new stream) tr s) :
    (∀ t ∈ tr, CarriesProof t) ↔ ∀ t ∈ tr, OpensAfterHandshake t :=
  run.forall_iff fun _ _ _ _ run h => step_carries_proof_iff h (reachable_inv run)

/-- A responder opens a key after its handshake. The `Open` that it writes carries the proof. -/
theorem opens_carry_proof_iff_once :
    ∃ tr t s, Run Step (Session.new (Memory.connected false) : Session deps Memory)
        (tr ++ [t]) s ∧ Handles (.Open (sample 1)) t ∧ CarriesProof t := by
  have run₀ : Run Step (Session.new (Memory.connected false) : Session deps Memory) [] _ := .nil
  have run₁ := run₀.snoc (.queue_command (.Open (sample 1)) (by decide))
  have run₂ := run₁.snoc (.protocol (.command rfl (Or.inl ⟨(), rfl⟩)))
  refine ⟨_, _, _, run₂, rfl, (opens_carry_proof_iff run₂).mpr ?_ _
    (List.mem_append_right _ (List.mem_singleton.mpr rfl))⟩
  simp only [List.nil_append, List.cons_append, List.forall_mem_cons]
  exact ⟨by rintro _ ⟨⟩, fun _ _ => rfl, fun _ ht => absurd ht List.not_mem_nil⟩

/-- A responder that is polled before its handshake is complete. The `Open` it writes has
no capability, and it still has none when the handshake is complete. -/
theorem open_without_proof :
    (∃ tr s, Run PollStep (Session.new ⟨false, none, [], [], [false, false]⟩ : Session deps Memory)
        tr s ∧ s.protocol.io.stream = Memory.connected false ∧
      s.protocol.io.write_queue = [open_message 1 (discovery_key_of deps (sample 1)) none]) ∧
    ∃ tr t s, Run Step (Session.new ⟨false, none, [], [], []⟩ : Session deps Memory)
        (tr ++ [t]) s ∧ ¬ CarriesProof t := by
  constructor
  · have run₀ : Run PollStep (Session.new ⟨false, none, [], [], [false, false]⟩ :
      Session deps Memory) [] _ := .nil
    have run₁ := run₀.snoc (.app (.queue_command (.Open (sample 1)) (by decide))
      (fun _ h => nomatch h))
    have run₂ := run₁.snoc (.poll (rfl : (Protocol.poll_next 1).run _ = _))
    have run₃ := run₂.snoc (.net (memory_completes _ rfl))
    exact ⟨_, _, run₃, rfl, rfl⟩
  · have run₀ : Run Step (Session.new ⟨false, none, [], [], []⟩ : Session deps Memory) [] _ := .nil
    have run₁ := run₀.snoc (.queue_command (.Open (sample 1)) (by decide))
    have run₂ := run₁.snoc (.protocol (.command rfl (Or.inl ⟨(), rfl⟩)))
    refine ⟨_, _, _, run₂, fun hproof => ?_⟩
    obtain ⟨hash, cap, i, hhash, -⟩ := hproof (sample 1) _ rfl rfl
    exact nomatch hhash

/-! ## Polls -/

/-- An initiator, and every protocol whose polls start after the handshake, writes no
`Open` without its proof. -/
theorem polls_carry_proof (hcipher : HandshakeCipher σ) {stream : σ}
    {tr : List (Transition (Session X σ) (PollAction X))}
    (run : Run PollStep (Session.new stream) tr s)
    (hstart : ∀ t ∈ tr, ∀ result, t.act = .poll result →
      t.pre.protocol.is_initiator = true ∨ t.pre.protocol.handshake_result.isSome) :
    ∃ tr', Run Step (Session.new stream) tr' s ∧ ∀ t ∈ tr', CarriesProof t := by
  -- the remote key is known just when the hash is
  have hresult : ∀ p : Protocol X σ, p.handshake_result.isSome ↔ p.io.handshake_hash.isSome := by
    intro p
    have htogether := hcipher.together p.io.stream
    simp only [Protocol.handshake_result, MessageIo.handshake_hash, MessageIo.remote_public_key]
    cases hhash : CipherTrait.handshake_hash p.io.stream with
    | none => simp
    | some hash =>
      rw [hhash, Option.isSome_some, eq_comm, Option.isSome_iff_exists] at htogether
      obtain ⟨key, hkey⟩ := htogether
      simp [hkey]
  have hkeeps : ∀ (p p' : Protocol X σ) (move : Move X), p.channels.Wf → protocol_step p move p' →
      p.handshake_result.isSome → p'.handshake_result.isSome := by
    intro p p' move hm hmove hsome
    rw [hresult] at hsome ⊢
    exact (protocol_step_handshake hm hmove).2.hash hsome
  -- a poll that starts after the handshake handles each command after it
  obtain ⟨tr', run', htr⟩ := poll_run_moves hcipher.toLawfulCipher
    (C := fun p move => ∀ key, move = .command (.Open key) → p.handshake_result.isSome)
    (G := fun p => p.handshake_result.isSome) (fun _ _ hno key h => absurd h (hno _))
    hkeeps (fun p _ hhash => (hresult p).mpr hhash) (fun _ _ hsome _ _ => hsome) run hstart
  refine ⟨tr', run', (run'.forall_iff fun _ _ _ _ run h =>
    step_carries_proof_iff h (reachable_inv run)).mpr fun t ht key hact => ?_⟩
  exact htr t ht _ hact key rfl

end hypercore_protocol.session
