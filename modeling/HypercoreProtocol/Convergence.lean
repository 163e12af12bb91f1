/-
The order of delivery does not matter.

Two peers have messages on the way in both directions, and the connection may deliver them
in any order it likes as long as each direction keeps its own. `deliveries_converge` says that
the peers do not notice: from every state that the two get to by the steps of `PeerStep`, there
is one state (`settled`) in which every sequence of deliveries ends, after as many of them as
there are messages on the way; and in it both sides have the same channels open. The last part
rests on what `PeerStep` asks of the two before: that a key is opened only without local state,
that a send or a close is drained in the step that queues it, and that nothing is closed by
`Command::Close`, of which the remote does not hear.

What makes it true is that handling a message neither reads nor extends the queue of the
handler's own messages (`blind_on_inbound_message`), so that deliveries to the two sides can
be exchanged.
-/
import HypercoreProtocol.Isolation
import HypercoreProtocol.Returning
import HypercoreProtocol.Lib.Blind

set_option autoImplicit false

namespace hypercore_protocol.protocol

open Rust Method Wire message channels mqueue

variable {X : Deps} {σ : Type}

/-- The protocol with other messages to be written. What does not depend on them is the same
before and after this change. -/
def Protocol.with_write_queue (queue : List (ChannelMessage X)) (p : Protocol X σ) :
    Protocol X σ := { p with io := { p.io with write_queue := queue } }

variable {queue : List (ChannelMessage X)} [CipherTrait σ]

omit [CipherTrait σ] in
theorem Protocol.blind_on_channels {α : Type} (m : MapMethod X α) :
    Blind (with_write_queue queue) (on_channels m : ProtocolMethod X σ α) := by
  refine blind_on ?_ ?_ m
  · exact fun _ => rfl
  · exact fun _ _ => rfl

omit [CipherTrait σ] in
theorem Protocol.blind_queue_event (event : Event) :
    Blind (with_write_queue queue) (queue_event event : ProtocolMethod X σ Unit) :=
  blind_modify fun _ => rfl

theorem Protocol.blind_accept_channel (local_id : ℕ) :
    Blind (with_write_queue queue) (accept_channel local_id : ProtocolMethod X σ Unit) := by
  refine blind_bind (blind_on_channels _) fun (key, remote_capability) => ?_
  refine blind_bind ?_ fun _ => blind_bind (blind_on_channels _) fun _ => blind_queue_event _
  -- the capability is checked against the handshake, which the queue has no part in
  refine blind_get (fun p => rfl) fun p => ?_
  split
  · exact blind_lift _
  · exact blind_throw _

/-- Handling a message does not look at the messages that are still to be written, and adds none:
`Open`s are answered by events alone. -/
theorem Protocol.blind_on_inbound_message (msg : ChannelMessage X) :
    Blind (with_write_queue queue) (on_inbound_message msg : ProtocolMethod X σ Unit) := by
  rw [on_inbound_message]
  split
  · refine blind_bind (blind_lift _) fun discovery_key => ?_
    refine blind_bind (blind_on_channels _) fun h => ?_
    split
    · exact blind_bind (blind_unwrap _) fun local_id => blind_accept_channel local_id
    · exact blind_queue_event _
  · refine blind_get (fun p => rfl) fun p => ?_
    split
    · exact blind_bind (blind_on_channels _) fun _ => blind_bind (blind_on_channels _)
        fun _ => blind_queue_event _
    · exact blind_pure _
  · exact blind_on_channels _

theorem Protocol.blind_on_inbound_channel_messages (messages : List (ChannelMessage X)) :
    Blind (with_write_queue queue)
      (on_inbound_channel_messages messages : ProtocolMethod X σ Unit) := by
  induction messages with
  | nil => exact blind_pure _
  | cons msg messages ih => exact blind_bind (blind_on_inbound_message msg) fun _ => ih

end hypercore_protocol.protocol

namespace hypercore_protocol.session

open Rust Method Wire Runs Link schema message channels mqueue protocol compact_encoding

variable {X : Deps} {σ : Type} [CipherTrait σ]

/-! ## What is on the way -/

/-- The protocol after messages that it handles one after the other. If one fails, the rest is
not handled; between joined peers none does. -/
def hears (p : Protocol X σ) (messages : List (ChannelMessage X)) : Protocol X σ :=
  match (Protocol.on_inbound_channel_messages messages).run p with
  | .ok _ p' => p'
  | .error _ p' => p'

variable {p p' : Protocol X σ} {msg : ChannelMessage X} {messages : List (ChannelMessage X)}

theorem hears_cons (h : (Protocol.on_inbound_message msg).run p = .ok () p') :
    hears p (msg :: messages) = hears p' messages := by
  rw [hears, Protocol.on_inbound_channel_messages, EStateM.run_bind, h]
  rfl

theorem hears_with_write_queue (queue : List (ChannelMessage X)) :
    hears (p.with_write_queue queue) messages = (hears p messages).with_write_queue queue := by
  rw [hears, hears, Protocol.blind_on_inbound_channel_messages]
  cases (Protocol.on_inbound_channel_messages messages).run p with
  | ok a p' => rfl
  | error e p' => rfl

/-- The two peers after all that is on the way has arrived. It does not matter which side hears
first. -/
def settled (s : Peers X σ) : Peers X σ := fun i =>
  (hears (s i) (s !i).io.write_queue).with_write_queue []

/-- How much is on the way, in both directions. Each delivery makes it less by one. -/
def on_the_way (s : Peers X σ) : ℕ :=
  (s true).io.write_queue.length + (s false).io.write_queue.length

omit [CipherTrait σ] in
theorem on_the_way_eq (s : Peers X σ) (i : Bool) :
    on_the_way s = (s i).io.write_queue.length + (s !i).io.write_queue.length := by
  cases i with
  | true => rfl
  | false => exact Nat.add_comm _ _

omit [CipherTrait σ] in
theorem write_queue_of_on_the_way {s : Peers X σ} (h : on_the_way s = 0) (i : Bool) :
    (s i).io.write_queue = [] := by
  rw [on_the_way_eq s i, Nat.add_eq_zero_iff] at h
  exact List.length_eq_zero_iff.mp h.1

theorem settled_eq_self {s : Peers X σ} (h : ∀ i, (s i).io.write_queue = []) : settled s = s := by
  funext i
  rw [settled, h]
  show (s i).with_write_queue [] = s i
  rw [← h i]
  rfl

/-! ## One delivery -/

variable {keys : Set Key} {hash : Vec UInt8} {s s' : Peers X σ} {i : Bool}
  {tr : List (Transition (Peers X σ) (PeerAction X))}

/-- What a delivery to side `i` does: the next message of the other side is taken off its queue
and handled without an error. -/
theorem delivers_cases (hs : Joined keys hash s) (hinj : Set.InjOn (discovery_key_of X) keys)
    (h : PeerStep keys s (.delivers i) s') :
    ∃ msg rest, (s !i).io.write_queue = msg :: rest ∧
      (Protocol.on_inbound_message msg).run (s i) = .ok () (s' i) ∧
      (s' i).io = (s i).io ∧ s' (!i) = (s !i).with_write_queue rest := by
  cases h with
  | @delivers _ msg rest p hq hleaves =>
    obtain ⟨q, hrun, -, -, -⟩ := hs.hears hinj hq
    obtain rfl := leaves_of_run_ok hrun hleaves
    obtain ⟨result, heff⟩ := inbound_effect (hs.side i).wf (.inbound hleaves)
    have hself : Function.update (Function.update s i p) (!i)
        { s !i with io := { (s !i).io with write_queue := rest } } i = p := by
      rw [Function.update_of_ne (Bool.not_ne_self i).symm, Function.update_self]
    refine ⟨msg, rest, hq, ?_, ?_, Function.update_self ..⟩
    · rw [hself]
      exact hrun
    · rw [hself]
      exact heff.io

/-- A delivery leaves the rest of the way as it is: the peers settle in the same state with it
and without it. -/
theorem settled_delivers (hs : Joined keys hash s) (hinj : Set.InjOn (discovery_key_of X) keys)
    (h : PeerStep keys s (.delivers i) s') : settled s' = settled s := by
  obtain ⟨msg, rest, hq, hrun, hio, hother⟩ := delivers_cases hs hinj h
  funext j
  by_cases hj : j = i
  · -- the message that has arrived was the first
    subst hj
    rw [settled, settled, hother, hq, hears_cons hrun]
    rfl
  · obtain rfl := Bool.eq_not_of_ne hj
    rw [settled, settled, hother, Bool.not_not, hio, hears_with_write_queue]
    rfl

theorem on_the_way_delivers (hs : Joined keys hash s) (hinj : Set.InjOn (discovery_key_of X) keys)
    (h : PeerStep keys s (.delivers i) s') : on_the_way s' + 1 = on_the_way s := by
  obtain ⟨msg, rest, hq, -, hio, hother⟩ := delivers_cases hs hinj h
  rw [on_the_way_eq s' i, on_the_way_eq s i, hio, hother, hq]
  rfl

/-- As long as something is on the way, it can be delivered. No message blocks the link. -/
theorem exists_delivers (hs : Joined keys hash s) (hinj : Set.InjOn (discovery_key_of X) keys)
    (h : on_the_way s ≠ 0) : ∃ i s', PeerStep keys s (.delivers i) s' := by
  obtain ⟨i, hi⟩ : ∃ i, (s !i).io.write_queue ≠ [] := by
    by_contra hall
    push Not at hall
    rw [on_the_way_eq s true, ← Bool.not_false, hall, hall] at h
    exact h rfl
  obtain ⟨msg, rest, hq⟩ := List.exists_cons_of_ne_nil hi
  obtain ⟨p, hrun, -⟩ := hs.hears hinj hq
  exact ⟨i, _, .delivers hq (Or.inl ⟨(), hrun⟩)⟩

/-! ## All of them -/

/-- Nothing but deliveries. The applications do nothing in the meantime. -/
def Deliveries (tr : List (Transition (Peers X σ) (PeerAction X))) : Prop :=
  ∀ t ∈ tr, ∃ i, t.act = .delivers i

/-- Deliveries lead towards one state, each by one message. By induction over the run, with
`settled` as what no step changes. -/
theorem deliveries_settle (hs : Joined keys hash s) (hinj : Set.InjOn (discovery_key_of X) keys)
    (run : Run (PeerStep keys) s tr s') (htr : Deliveries tr) :
    Joined keys hash s' ∧ settled s' = settled s ∧ tr.length + on_the_way s' = on_the_way s := by
  induction run with
  | nil => exact ⟨hs, rfl, Nat.zero_add _⟩
  | @snoc tr t t' a run hstep ih =>
    obtain ⟨ht, hsettled, hlen⟩ := ih fun u hu => htr u (List.mem_append_left _ hu)
    obtain ⟨i, rfl⟩ := htr _ (List.mem_append_right _ (List.mem_singleton.mpr rfl))
    refine ⟨ht.step hinj hstep, (settled_delivers ht hinj hstep).trans hsettled, ?_⟩
    have hway := on_the_way_delivers ht hinj hstep
    rw [List.length_append, List.length_singleton]
    omega

/-- All that is on the way can be delivered, and then the peers are where they settle. By
induction over how much it is. -/
theorem exists_deliveries (hs : Joined keys hash s) (hinj : Set.InjOn (discovery_key_of X) keys) :
    ∃ tr, Run (PeerStep keys) s tr (settled s) ∧ Deliveries tr := by
  induction hn : on_the_way s generalizing s with
  | zero =>
    have hself := settled_eq_self (write_queue_of_on_the_way hn)
    exact ⟨[], hself.symm ▸ .nil, fun t ht => absurd ht List.not_mem_nil⟩
  | succ n ih =>
    obtain ⟨i, s', hstep⟩ := exists_delivers hs hinj (hn ▸ Nat.succ_ne_zero n)
    have hway := on_the_way_delivers hs hinj hstep
    obtain ⟨tr, run, htr⟩ := ih (hs.step hinj hstep) (by omega)
    rw [settled_delivers hs hinj hstep] at run
    refine ⟨_, (Run.nil.snoc hstep).append run, fun t ht => ?_⟩
    rcases List.mem_append.mp ht with ht | ht
    · rw [List.mem_singleton.mp ht]
      exact ⟨i, rfl⟩
    · exact htr t ht

/-- **The order of delivery does not matter.** From every state that two peers get to after the
handshake by the steps of `PeerStep` (keys are opened without local state only, and a send or a
close is drained in the step that queues it), with any messages on the way in both directions:
whatever is delivered first, there is a next delivery as long as something is on the way, after
as many of them as there were messages nothing is, and then the two are in a state that does
not depend on the order. In it they have the same channels open. -/
theorem deliveries_converge (hinj : Set.InjOn (discovery_key_of X) keys) {s₀ : Peers X σ}
    (h₀ : Handshaken hash s₀) (run : Run (PeerStep keys) s₀ tr s) :
    (∀ tr' s', Run (PeerStep keys) s tr' s' → Deliveries tr' →
      tr'.length + on_the_way s' = on_the_way s ∧
      (on_the_way s' = 0 → s' = settled s) ∧
      (on_the_way s' ≠ 0 → ∃ i s'', PeerStep keys s' (.delivers i) s'')) ∧
    (∃ tr', Run (PeerStep keys) s tr' (settled s) ∧ Deliveries tr') ∧
    on_the_way (settled s) = 0 ∧
    ∀ i d, Usable (settled s i).channels d ↔ Usable (settled s !i).channels d := by
  have hs : Joined keys hash s := (peers_invariant hinj h₀ run).1
  have hempty : ∀ i, (settled s i).io.write_queue = [] := fun i => rfl
  obtain ⟨tr', run', htr'⟩ := exists_deliveries hs hinj
  obtain ⟨hjoined, -, -⟩ := deliveries_settle hs hinj run' htr'
  refine ⟨fun tr s' hrun htr => ?_, ⟨tr', run', htr'⟩, rfl, fun i d => ?_⟩
  · obtain ⟨hs', hsettled, hlen⟩ := deliveries_settle hs hinj hrun htr
    refine ⟨hlen, fun hzero => ?_, exists_delivers hs' hinj⟩
    rw [← settled_eq_self (write_queue_of_on_the_way hzero), hsettled]
  · rw [hjoined.usable_iff hempty, hjoined.usable_iff hempty, Bool.not_not]
    exact and_comm

/-- Both sides have asked for a key and not yet heard of each other. When both `Open`s have
arrived, the channel is open on both sides. -/
theorem deliveries_converge_opened : ∃ tr s,
    Run (PeerStep {key | key ∈ [sample 1]}) fresh_peers tr s ∧ on_the_way s = 2 ∧
    Usable (settled s true).channels (discovery_key_of deps (sample 1)) ∧
    Usable (settled s false).channels (discovery_key_of deps (sample 1)) := by
  have hcomputed : ((performs [sample 1] fresh_peers
      [.opens true (sample 1), .opens false (sample 1)]).any fun r => (on_the_way r.2 == 2) &&
        ((settled r.2 true).channels.channels (discovery_key_of deps (sample 1))).any fun h =>
          h.is_connected && h.inbound_tx.any fun n => (settled r.2 true).channels.receives n)
      = true := by
    decide +kernel
  obtain ⟨⟨tr, s⟩, hrun, hfinal⟩ := (Option.any_eq_true _ _).mp hcomputed
  simp only [Bool.and_eq_true, beq_iff_eq, Option.any_eq_true] at hfinal
  obtain ⟨hway, h, hd, hconn, n, hn, hreceives⟩ := hfinal
  have hinj : Set.InjOn (discovery_key_of deps) {key | key ∈ [sample 1]} := by
    intro k hk k' hk' _
    exact (List.mem_singleton.mp hk).trans (List.mem_singleton.mp hk').symm
  have hopen : Usable (settled s true).channels (discovery_key_of deps (sample 1)) :=
    ⟨h, n, hd, hconn, hn, hreceives⟩
  exact ⟨tr, s, performs_run hrun, hway, hopen, ((deliveries_converge hinj handshaken_fresh
    (performs_run hrun)).2.2.2 true _).mp hopen⟩

end hypercore_protocol.session
