/-
Closing a channel and opening its key again.

`Channel::close` sends its `Close` through the outbound queue, and a new
`Command::Open` goes through the command queue. A poll handles commands first. So if the
`Close` still waits when the command is handled, the key is attached again while the old
entry is there, and the `Close`, which comes second, finds the old id still leading to
that entry and removes it (`reopen_lost`). If the `Close` has left its queue before, the
old entry is gone, and the command makes a new one.

`reopen_takes_effect_iff` says that there is no third way. Where the two requests stand
is a `Stage`, and whatever polls do, they take one stage to the next.
-/
import HypercoreProtocol.Calls
import HypercoreProtocol.Writing
import HypercoreProtocol.Outbound

set_option autoImplicit false

namespace hypercore_protocol.session

open Rust Method Wire Runs schema message channels mqueue protocol

variable {X : Deps} {σ : Type} [CipherTrait σ] {c : Channel}

/-! ## Polls without messages -/

/-- States of a connection in which, whatever is done with it, no message arrives. The assumption
that nothing comes in between is made through this. -/
structure Silent (S : σ → Prop) : Prop where
  no_message : ∀ stream bs, S stream →
    (CipherTrait.poll_next stream).1 ≠ .ready (some (.Message bs))
  poll_next : ∀ stream, S stream → S (CipherTrait.poll_next stream).2
  poll_ready : ∀ stream, S stream → S (CipherTrait.poll_ready stream).2
  start_send : ∀ stream buf, S stream → S (CipherTrait.start_send stream buf).2
  poll_flush : ∀ stream, S stream → S (CipherTrait.poll_flush stream).2

/-- The session is polled any number of times, and the application does nothing else.
Between polls the connection may change as `K` allows. -/
inductive Waits (K : σ → σ → Prop) (s : Session X σ) : Session X σ → Prop where
  | refl : Waits K s s
  | poll {s₁ s₂ : Session X σ} {result : Except IoError (Poll Event)} (before : Waits K s s₁)
      (h : PollStep s₁ (.poll result) s₂) : Waits K s s₂
  | net {s₁ s₂ : Session X σ} (before : Waits K s s₁) (h : PollStep s₁ .net s₂)
      (hK : K s₁.protocol.io.stream s₂.protocol.io.stream) : Waits K s s₂

/-- Nobody but the session writes to the connection, and nothing arrives. What else the
connection does is free. -/
def Undisturbed (S : σ → Prop) (stream stream' : Logged σ) : Prop :=
  S stream'.stream ∧ stream'.calls = stream.calls

/-! ## What was put out -/

/-- Since the log of the sink was `calls`, the sink was given frames which hold, together
with what still waits in the write queue, these messages in this order. -/
def Wrote (calls : List SinkCall) (io : MessageIo X (Logged σ)) (msgs : List (ChannelMessage X)) :
    Prop :=
  ∃ new frames, io.stream.calls = calls ++ new ∧
    List.Forall₂ (fun L buf => to_encoded_bytes L = .ok buf) frames (sent new) ∧
    msgs.Sublist (frames.flatten ++ io.write_queue)

/-- An `Open` or a `Close` that can be written. It is in a frame of its own, and this frame
is not lost. -/
def Lone (msg : ChannelMessage X) : Prop :=
  msg.message.is_open_or_close = true ∧ msg.message.Encodable

section Wrote

variable {calls : List SinkCall} {io io' : MessageIo X (Logged σ)}
  {msgs more : List (ChannelMessage X)}

omit [CipherTrait σ] in
theorem wrote_nil (io : MessageIo X (Logged σ)) : Wrote io.stream.calls io [] :=
  ⟨[], [], (List.append_nil _).symm, .nil, List.nil_sublist _⟩

omit [CipherTrait σ] in
/-- More is put into the queue, behind what was put out before. -/
theorem Wrote.enqueued (h : Wrote calls io msgs) (hcalls : io'.stream.calls = io.stream.calls)
    (hqueue : io'.write_queue = io.write_queue ++ more) : Wrote calls io' (msgs ++ more) := by
  obtain ⟨new, frames, hnew, hframes, hsub⟩ := h
  refine ⟨new, frames, hcalls.trans hnew, hframes, ?_⟩
  rw [hqueue, ← List.append_assoc]
  exact hsub.append (List.Sublist.refl more)

omit [CipherTrait σ] in
theorem Wrote.same (h : Wrote calls io msgs) (hcalls : io'.stream.calls = io.stream.calls)
    (hqueue : io'.write_queue = io.write_queue) : Wrote calls io' msgs := by
  rw [← List.append_nil msgs]
  exact h.enqueued hcalls (hqueue.trans (List.append_nil _).symm)

omit [CipherTrait σ] in
theorem Wrote.log (h : Wrote calls io msgs) (hcalls : io'.stream.calls = io.stream.calls) :
    Wrote calls io' ([] : List (ChannelMessage X)) := by
  obtain ⟨new, frames, hnew, hframes, -⟩ := h
  exact ⟨new, frames, hcalls.trans hnew, hframes, List.nil_sublist _⟩

/-- What has nothing in common with the middle part is in the rest. -/
theorem sublist_without_middle {α : Type} {l a b d : List α} (h : l.Sublist (a ++ (b ++ d)))
    (hb : ∀ x ∈ l, x ∉ b) : l.Sublist (a ++ d) := by
  obtain ⟨la, lbd, rfl, ha, hbd⟩ := List.sublist_append_iff.mp h
  obtain ⟨lb, ld, rfl, hlb, hd⟩ := List.sublist_append_iff.mp hbd
  have hnil : lb = [] := List.eq_nil_iff_forall_not_mem.mpr fun x hx =>
    hb x (List.mem_append_right _ (List.mem_append_left _ hx)) (hlb.subset hx)
  rw [hnil, List.nil_append]
  exact ha.append hd

/-- A call of `poll_outbound` that returns takes frames off the queue, and if it loses one,
then none with a message that travels alone: such a frame is encoded, or there is a panic. -/
theorem Wrote.drives (hX : X.Lawful) (halloc : X.AllocatesOrPanics) {new : List SinkCall}
    {r : Res IoError (Poll Unit)} (h : Wrote calls io msgs) (hlone : ∀ msg ∈ msgs, Lone msg)
    (hdrives : MessageIo.Drives true io new r io')
    (hcalls : io'.stream.calls = io.stream.calls ++ new)
    (hr : ∀ pan, r ≠ .error (.panic pan)) : Wrote calls io' msgs := by
  obtain ⟨before, frames, hbefore, hframes, hsub⟩ := h
  obtain ⟨frames', lost, hframes', hqueue, -, hlost⟩ := hdrives.conserves
  refine ⟨before ++ new, frames ++ frames', ?_, ?_, ?_⟩
  · rw [hcalls, hbefore, List.append_assoc]
  · rw [sent_append]
    exact List.rel_append hframes hframes'
  · rw [← hqueue, ← List.append_assoc, ← List.flatten_append] at hsub
    refine sublist_without_middle hsub fun msg hmsg hmem => ?_
    obtain ⟨hopen, hencodable⟩ := hlone msg hmsg
    rcases hlost with ⟨rfl, -⟩ | ⟨f, rfl, hframe, hf⟩
    · exact absurd hmem List.not_mem_nil
    · rw [hframe.2 msg hmem hopen] at hf
      rcases to_encoded_bytes_encodable hX halloc (List.forall_mem_singleton.mpr hencodable) with
        ⟨buf, hbuf⟩ | ⟨-, hpanic⟩
      · rw [hbuf] at hf
        cases hf
      · rw [hpanic] at hf
        exact hr _ (congrArg Except.error (Except.error.inj hf).symm)

end Wrote

/-! ## The property -/

/-- The key of `c` is attached locally, and the `Close` of `c` was put out before a new `Open`
of the key. `calls` is what the sink had been asked before. -/
def ReopenTakesEffect (c : Channel) (calls : List SinkCall) (p : Protocol X (Logged σ)) : Prop :=
  (∃ h, p.channels.channels c.discovery_key = some h ∧ h.local_state.isSome) ∧
  ∃ i cap, Wrote calls p.io
    [⟨UInt64.ofNat c.local_id, close_of c⟩, open_message i c.discovery_key cap]

/-! ## Stages -/

/-- **Where the two requests stand**: the `Close` in the outbound queue, and the command in its
own. A poll takes them from one stage to the next, and which way is decided when the command is
queued. -/
inductive Stage (X : Deps) (c : Channel) where
  /-- Nothing was asked for yet. -/
  | idle
  /-- The `Close` waits in the outbound queue. -/
  | closing
  /-- The `Close` was handled. -/
  | closed
  /-- The `Close` waits, and so does the command to open the key. -/
  | overtaken
  /-- The command waits, and the `Close` was handled before. -/
  | asked
  /-- The key has a new entry. -/
  | reopened (i : ℕ) (cap : Option (Vec UInt8))
      (h : (open_message (X := X) i c.discovery_key cap).message.Encodable)

namespace Stage

def command_rx : Stage X c → List Command
  | overtaken => [.Open c.key]
  | asked => [.Open c.key]
  | _ => []

def outbound_rx : Stage X c → List (List (ChannelMessage X))
  | closing => [batch_of c [close_of c]]
  | overtaken => [batch_of c [close_of c]]
  | _ => []

/-- The entry of the key: that of `c`, none, or a new one. As long as the `Close` has not been
handled it is still the old one. -/
def Entry (m : ChannelMap X) : Stage X c → Prop
  | closed => m.channels c.discovery_key = none
  | asked => m.channels c.discovery_key = none
  | reopened _ _ _ => ∃ h, m.channels c.discovery_key = some h ∧ h.local_state.isSome
  | _ => Backed m c ∧ Live m c

/-- What was put out: nothing, the `Close`, or the `Close` and then the new `Open`. The `Open` of
a command that has overtaken the `Close` is not recorded, since only the order of these two
matters. -/
def written : Stage X c → List (ChannelMessage X)
  | closed => batch_of c [close_of c]
  | asked => batch_of c [close_of c]
  | reopened i cap _ => batch_of c [close_of c] ++ [open_message i c.discovery_key cap]
  | _ => []

/-- What polls do with the requests. In the first step the command overtakes the `Close`:
the key is attached to the entry that the `Close` then removes. -/
inductive Next : Stage X c → Stage X c → Prop where
  | attaches : Next overtaken closing
  | removes : Next closing closed
  | opens {i : ℕ} {cap : Option (Vec UInt8)}
      (h : (open_message (X := X) i c.discovery_key cap).message.Encodable) :
      Next asked (reopened i cap h)

/-- There are no longer ways than from the overtaken `Close` to its end. So where the requests
can be is a short list. -/
theorem follows {stage stage' : Stage X c} (h : Relation.ReflTransGen Next stage stage') :
    stage' = stage ∨ Next stage stage' ∨ (stage = overtaken ∧ stage' = closed) := by
  induction h with
  | refl => exact Or.inl rfl
  | tail _ h ih =>
    rcases ih with rfl | hnext | ⟨rfl, rfl⟩
    · exact Or.inr (Or.inl h)
    · cases hnext with
      | attaches => cases h; exact Or.inr (Or.inr ⟨rfl, rfl⟩)
      | removes => cases h
      | opens => cases h
    · cases h

/-- The protocol is at this stage: its queues, the entry of the key, and what it has put out are
as the stage says. -/
structure At (calls : List SinkCall) (stage : Stage X c) (p : Protocol X (Logged σ)) : Prop where
  command_rx : p.command_rx = stage.command_rx
  outbound_rx : p.outbound_rx = stage.outbound_rx
  wf : p.channels.Wf
  entry : stage.Entry p.channels
  written : Wrote calls p.io stage.written

theorem lone (stage : Stage X c) : ∀ msg ∈ stage.written, Lone msg := by
  have hclose : ∀ msg ∈ batch_of (X := X) c [close_of c], Lone msg :=
    List.forall_mem_singleton.mpr ⟨rfl, trivial⟩
  cases stage with
  | idle => exact fun _ h => absurd h List.not_mem_nil
  | closing => exact fun _ h => absurd h List.not_mem_nil
  | overtaken => exact fun _ h => absurd h List.not_mem_nil
  | closed => exact hclose
  | asked => exact hclose
  | reopened i cap h =>
    exact List.forall_mem_append.mpr ⟨hclose, List.forall_mem_singleton.mpr ⟨rfl, h⟩⟩

variable {calls : List SinkCall} {stage : Stage X c} {p p' : Protocol X (Logged σ)}

omit [CipherTrait σ] in
theorem At.of_same (h : stage.At calls p) (hcommand : p'.command_rx = p.command_rx)
    (hout : p'.outbound_rx = p.outbound_rx) (hmap : p'.channels = p.channels)
    (hio : Wrote calls p'.io stage.written) : stage.At calls p' :=
  ⟨hcommand.trans h.command_rx, hout.trans h.outbound_rx, hmap ▸ h.wf, hmap ▸ h.entry, hio⟩

theorem removed_gone {m m' : ChannelMap X} {d : DiscoveryKey} (h : MapEffect m (.remove d) m') :
    m'.channels d = none := by
  cases h with
  | absent hd => exact hd
  | removed => exact Function.update_self _ _ _

omit [CipherTrait σ] in
/-- The `Close` of a live channel removes its entry: the id of the channel leads to it. -/
theorem close_removes {kept : List (ChannelMessage X)}
    (heff : Protocol.BatchEffect p (batch_of c [close_of c]) kept p') (hm : p.channels.Wf)
    (hc : Backed p.channels c) (hlive : Live p.channels c) :
    p'.channels.channels c.discovery_key = none := by
  obtain ⟨-, h, hd, hget⟩ := hc.get_local hlive
  cases heff with
  | cons head tail =>
    cases tail with
    | nil =>
      cases head with
      | close_unknown hnone => exact nomatch hget.symm.trans hnone
      | closed hfound _ hmap =>
        obtain rfl := Option.some.inj (hget.symm.trans hfound)
        rw [(hm.fits hd).keyed] at hmap
        exact removed_gone hmap
      | passed hclose => exact absurd rfl (hclose _)

/-- A key without an entry gets one that the remote has not opened, so that opening it accepts
nothing. -/
theorem attached_new {m m' : ChannelMap X} {key : Key} {e : ChannelHandle}
    (hnone : m.channels (discovery_key_of X key) = none)
    (h : MapEffect m (.attach_local key) m')
    (he : m'.channels (discovery_key_of X key) = some e) : e.remote_state = none := by
  cases h with
  | attached_local hkey =>
    subst hkey
    rcases ChannelMap.update_some_iff.mp he with ⟨-, rfl⟩ | ⟨hne, -⟩
    · rw [ChannelMap.entry_of_none hnone]
      rfl
    · exact absurd rfl hne

/-- A command is handled: it attaches the key to the entry that is there, or to a new one. -/
theorem At.command (hkey : discovery_key_of X c.key = c.discovery_key) {cmd : Command}
    (h : stage.At calls p) (hmove : protocol_step p (.command cmd) p') :
    ∃ stage' : Stage X c, Next stage stage' ∧ stage'.At calls p' := by
  obtain ⟨rest, result, hrx, heff⟩ := command_effect h.wf hmove
  have hcommand := hrx.symm.trans h.command_rx
  have hf := heff.frame
  have hchanges := protocol_step_changes h.wf hmove
  cases stage with
  | overtaken =>
    obtain ⟨rfl, rfl⟩ := List.cons.inj hcommand
    obtain ⟨hbacked, hlive⟩ := h.entry
    have hkept := MapChanges.keep (fun h hm => h.backed hm) hchanges h.wf hbacked
    exact ⟨closing, .attaches, hf.command_rx, hf.outbound_rx.trans h.outbound_rx, hkept.1,
      ⟨hkept.2, hchanges.live h.wf (fun hop => nomatch hop) hlive⟩,
      h.written.log (congrArg Logged.calls hf.stream)⟩
  | asked =>
    obtain ⟨rfl, rfl⟩ := List.cons.inj hcommand
    have hnone : p.channels.channels (discovery_key_of X c.key) = none := hkey ▸ h.entry
    have hwf := protocol_step_wf h.wf hmove
    -- the remote has not opened the new entry, so there is nothing to verify
    cases heff with
    | opened hmap hd hl hr hcap =>
      rename_i m e i cap
      have hopen : (open_message (X := X) i c.discovery_key cap).message.Encodable :=
        offers_encodable hcap i c.discovery_key
      refine ⟨reopened i cap hopen, .opens hopen, rfl, h.outbound_rx, hwf,
        ⟨e, hkey ▸ hd, hl ▸ rfl⟩, h.written.enqueued rfl ?_⟩
      rw [← hkey]
    | refused hmap hd hl hr hv =>
      exact nomatch hr.symm.trans (attached_new hnone hmap hd)
    | accepted hmap hd hl hr hv hcap =>
      exact nomatch hr.symm.trans (attached_new hnone hmap hd)
  | idle => cases hcommand
  | closing => cases hcommand
  | closed => cases hcommand
  | reopened => cases hcommand

/-- With no command left, the `Close` is handled: it removes the entry and is put out. A poll
takes batches only after its commands. -/
theorem At.outbound {batch : List (ChannelMessage X)} (h : stage.At calls p)
    (hcommand : p.command_rx = []) (hmove : protocol_step p (.outbound batch) p') :
    ∃ stage' : Stage X c, Next stage stage' ∧ stage'.At calls p' := by
  obtain ⟨rest, kept, q, hrx, heff, rfl⟩ := outbound_effect h.wf hmove
  have hout := hrx.symm.trans h.outbound_rx
  have hf := heff.frame
  cases stage with
  | closing =>
    obtain ⟨rfl, rfl⟩ := List.cons.inj hout
    obtain ⟨rfl, -⟩ := Protocol.BatchEffect.partitions heff
    refine ⟨closed, .removes, hf.command_rx.trans hcommand, hf.outbound_rx,
      protocol_step_wf h.wf hmove, ?_, ?_⟩
    · exact (close_removes heff h.wf h.entry.1 h.entry.2 :)
    refine h.written.enqueued (congrArg Logged.calls hf.stream) ?_
    exact congrArg (· ++ _) (congrArg MessageIo.write_queue heff.io)
  | overtaken => exact nomatch h.command_rx.symm.trans hcommand
  | idle => cases hout
  | closed => cases hout
  | asked => cases hout
  | reopened => cases hout

end Stage

/-! ## Polls -/

/-- Polls have taken the requests from `stage` to where they stand now, and nothing has
arrived. -/
structure Reached (S : σ → Prop) (calls : List SinkCall) (stage : Stage X c)
    (p : Protocol X (Logged σ)) : Prop where
  at_stage : ∃ stage', Relation.ReflTransGen Stage.Next stage stage' ∧ stage'.At calls p
  silent : S p.io.stream.stream
  hash : p.io.handshake_hash.isSome

section Reached

variable {S : σ → Prop} {calls : List SinkCall} {stage : Stage X c} {p p' : Protocol X (Logged σ)}

/-- The connection goes on, and what was put out stays put out. -/
theorem Reached.io (h : Reached S calls stage p) {io : MessageIo X (Logged σ)}
    (hwrote : ∀ msgs, (∀ msg ∈ msgs, Lone msg) → Wrote calls p.io msgs → Wrote calls io msgs)
    (hsilent : S io.stream.stream) (hkeeps : KeepsHandshake p.io.stream io.stream) :
    Reached S calls stage { p with io := io } := by
  obtain ⟨⟨stage', hnext, hat⟩, -, hhash⟩ := h
  exact ⟨⟨stage', hnext, hat.of_same rfl rfl rfl (hwrote _ stage'.lone hat.written)⟩, hsilent,
    hkeeps.hash hhash⟩

/-- A handler takes the requests one stage further and leaves the connection alone. -/
theorem Reached.handled {move : Move X} (h : Reached S calls stage p)
    (hmove : protocol_step p move p') (hio : move ≠ .io)
    (hstage : ∀ stage' : Stage X c, stage'.At calls p →
      ∃ stage'', Stage.Next stage' stage'' ∧ stage''.At calls p') :
    Reached S calls stage p' := by
  obtain ⟨⟨stage', hnext, hat⟩, hsilent, hhash⟩ := h
  have hstream := protocol_step_stream hat.wf hmove hio
  obtain ⟨stage'', hnext', hat'⟩ := hstage stage' hat
  refine ⟨⟨stage'', hnext.tail hnext', hat'⟩, hstream ▸ hsilent, ?_⟩
  rw [MessageIo.handshake_hash, hstream]
  exact hhash

theorem Reached.events (h : Reached S calls stage p) (hcommand : p'.command_rx = p.command_rx)
    (hout : p'.outbound_rx = p.outbound_rx) (hmap : p'.channels = p.channels)
    (hio : p'.io = p.io) : Reached S calls stage p' := by
  obtain ⟨⟨stage', hnext, hat⟩, hsilent, hhash⟩ := h
  exact ⟨⟨stage', hnext, hat.of_same hcommand hout hmap (hio ▸ hat.written)⟩, hio ▸ hsilent,
    hio ▸ hhash⟩

theorem reached_poll_inbound_read (hcipher : LawfulCipher σ) (hS : Silent S) (fuel : ℕ) :
    Keeps (Reached S calls stage)
      (Protocol.poll_inbound_read fuel : ProtocolMethod X (Logged σ) Unit) := by
  refine Protocol.keeps_poll_inbound_read (D := fun _ _ => False) (fun p => ⟨?_, ?_⟩)
    (fun _ _ hfalse => hfalse.elim) fuel
  · exact fun io hio _ => Reached.io (p := { p with io := io }) hio
      (fun _ _ h => h.same rfl rfl) (hS.poll_next _ hio.silent) (hcipher.poll_next _)
  · exact fun io bs hio hbs => absurd hbs (hS.no_message _ bs hio.silent)

theorem reached_poll_commands (hkey : discovery_key_of X c.key = c.discovery_key) :
    Triple (Reached S calls stage) (Protocol.poll_commands : ProtocolMethod X (Logged σ) Unit)
      (fun _ p => Reached S calls stage p ∧ p.command_rx = []) (Reached S calls stage) := by
  refine Protocol.triple_poll_commands fun p cmd rest hp hq => keeps_of_leaves fun q p' hq' hl => ?_
  rw [hq'] at hl
  have hmove : protocol_step p (.command cmd) p' := .command hq hl
  exact hp.handled hmove (fun h => nomatch h) fun _ hat => hat.command hkey hmove

/-- A call of `poll_outbound`, over a log: it may write what was put out, and changes no
stage. -/
theorem reached_poll_outbound (hX : X.Lawful) (halloc : X.AllocatesOrPanics)
    (hcipher : LawfulCipher σ) (hS : Silent S) :
    Keeps (fun p => Reached S calls stage p ∧ p.command_rx = [])
      (Protocol.on_io MessageIo.poll_outbound : ProtocolMethod X (Logged σ) (Poll Unit)) := by
  refine Protocol.keeps_on_io fun p => keeps_of_leaves fun io io' ⟨hio, hcommand⟩ hl => ?_
  obtain ⟨new, r, io₁, hdrives, hrun, -, hcalls⟩ := MessageIo.poll_outbound_logged io
  have hsilent : S io₁.stream.stream := hdrives.keeps (P := fun stream => S stream.stream)
    (fun _ => hS.poll_ready _) (fun _ buf => hS.start_send _ buf) (fun _ => hS.poll_flush _)
    hio.silent
  have hafter : (∀ pan, r ≠ .error (.panic pan)) → Reached S calls stage { p with io := io₁ } :=
    fun hr => Reached.io (p := { p with io := io }) hio
      (fun _ hlone h => h.drives hX halloc hlone hdrives hcalls hr) hsilent
      ((logged_lawful hcipher).drives hdrives)
  rcases hl with ⟨a, ha⟩ | ⟨e, he⟩
  · rw [hrun] at ha
    cases r with
    | ok answer =>
      injection ha with _ hio₁
      exact hio₁ ▸ ⟨hafter fun _ h => (nomatch h), hcommand⟩
    | error f => cases ha
  · rw [hrun] at he
    cases r with
    | ok answer => cases he
    | error f =>
      injection he with hf hio₁
      subst hf
      exact hio₁ ▸ ⟨hafter fun _ h => (nomatch h), hcommand⟩

/-- The queue is written out and refilled. No command is left, so that the `Close` finds the
entry as the command left it. -/
theorem reached_poll_outbound_write (hX : X.Lawful) (halloc : X.AllocatesOrPanics)
    (hcipher : LawfulCipher σ) (hS : Silent S) :
    Triple (fun p => Reached S calls stage p ∧ p.command_rx = [])
      (Protocol.poll_outbound_write : ProtocolMethod X (Logged σ) Unit)
      (fun _ => Reached S calls stage) (Reached S calls stage) := by
  refine (Protocol.triple_poll_outbound_write (reached_poll_outbound hX halloc hcipher hS)
    fun p batch rest hp hq => keeps_of_leaves fun q p' hq' hl => ?_).conseq (fun _ hp => hp)
      (fun _ _ h => h.1.1) fun _ h => h.1
  rw [hq'] at hl
  obtain ⟨hp, hcommand⟩ := hp
  have hmove : protocol_step p (.outbound batch) p' := .outbound hq hl
  refine ⟨hp.handled hmove (fun h => nomatch h) fun _ hat => hat.outbound hcommand hmove, ?_⟩
  obtain ⟨_, -, hat⟩ := hp.at_stage
  obtain ⟨rest, kept, q, -, heff, rfl⟩ := outbound_effect hat.wf hmove
  exact heff.frame.command_rx.trans hcommand

theorem reached_poll_next (hX : X.Lawful) (halloc : X.AllocatesOrPanics)
    (hcipher : LawfulCipher σ) (hS : Silent S)
    (hkey : discovery_key_of X c.key = c.discovery_key) (fuel : ℕ) :
    Keeps (Reached S calls stage)
      (Protocol.poll_next fuel : ProtocolMethod X (Logged σ) (Poll Event)) :=
  Protocol.keeps_poll_next (keeps_poll_handshake fuel fun _ hp => hp.hash)
    (fun _ _ hp _ _ => hp.events rfl rfl rfl rfl) (fun _ _ _ hp _ => hp.events rfl rfl rfl rfl)
    (reached_poll_inbound_read hcipher hS fuel) (reached_poll_commands hkey)
    (reached_poll_outbound_write hX halloc hcipher hS)

theorem Waits.reached (hX : X.Lawful) (halloc : X.AllocatesOrPanics) (hcipher : LawfulCipher σ)
    (hS : Silent S) (hkey : discovery_key_of X c.key = c.discovery_key)
    {s s' : Session X (Logged σ)} (h : Waits (Undisturbed S) s s')
    (hs : Reached S calls stage s.protocol) : Reached S calls stage s'.protocol := by
  induction h with
  | refl => exact hs
  | poll _ h ih =>
    have hpoll : ∀ fuel, Keeps (Reached S calls stage) (Protocol.poll_next (X := X) fuel) :=
      reached_poll_next hX halloc hcipher hS hkey
    cases h with
    | poll h => exact (hpoll _).leaves ih (Or.inl ⟨_, h⟩)
    | failed h => exact (hpoll _).leaves ih (Or.inr ⟨_, h⟩)
  | net _ h hK ih =>
    cases h with
    | net hkeeps => exact ih.io (fun _ _ h => h.same hK.2 rfl) hK.1 hkeeps

/-- The `Close` is put into the outbound queue, which is how the requests begin. -/
theorem Reached.enqueue (h : Reached S calls (Stage.idle : Stage X c) p) :
    Reached S calls (Stage.closing : Stage X c)
      { p with outbound_rx := p.outbound_rx ++ [batch_of c [close_of c]] } := by
  obtain ⟨⟨stage', hnext, hat⟩, hsilent, hhash⟩ := h
  rcases Stage.follows hnext with rfl | hnext | ⟨h, -⟩
  · exact ⟨⟨_, .refl, hat.command_rx, congrArg (· ++ _) hat.outbound_rx, hat.wf, hat.entry,
      hat.written⟩, hsilent, hhash⟩
  · cases hnext
  · cases h

/-- Setting the flag of a channel changes nothing that the requests depend on. -/
theorem Reached.store_closed {s : Session X (Logged σ)} (h : Reached S calls stage s.protocol)
    (closed : ℕ) :
    Reached S calls stage
      (s.with_shared (s.protocol.channels.shared.store_true closed)).protocol := by
  obtain ⟨⟨stage', hnext, hat⟩, hsilent, hhash⟩ := h
  refine ⟨⟨stage', hnext, hat.command_rx, hat.outbound_rx, ?_, ?_, hat.written⟩, hsilent, hhash⟩
  · exact hat.wf.with_shared (Arena.next_update _ _ _) rfl
  · have hentry := hat.entry
    have hbacked : Backed s.protocol.channels c → Backed (s.with_shared
        (s.protocol.channels.shared.store_true closed)).protocol.channels c :=
      fun hbacked => hbacked.with_shared (Arena.next_update _ _ _) rfl read_store_true
    cases stage' with
    | idle => exact ⟨hbacked hentry.1, hentry.2⟩
    | closing => exact ⟨hbacked hentry.1, hentry.2⟩
    | overtaken => exact ⟨hbacked hentry.1, hentry.2⟩
    | closed => exact hentry
    | asked => exact hentry
    | reopened => exact hentry

theorem Reached.of_closing (h : Reached S calls (Stage.closing : Stage X c) p) :
    (Stage.closing : Stage X c).At calls p ∨ (Stage.closed : Stage X c).At calls p := by
  obtain ⟨stage', hnext, hat⟩ := h.at_stage
  rcases Stage.follows hnext with rfl | hnext | ⟨h, -⟩
  · exact Or.inl hat
  · cases hnext
    exact Or.inr hat
  · cases h

/-- While the command waits, so does the `Close`: a poll that has not handled the command has
taken no batch. -/
theorem Reached.overtaken_waiting (h : Reached S calls (Stage.overtaken : Stage X c) p)
    (hcommand : p.command_rx ≠ []) : p.outbound_rx = [batch_of c [close_of c]] := by
  obtain ⟨stage', hnext, hat⟩ := h.at_stage
  rcases Stage.follows hnext with rfl | hnext | ⟨-, rfl⟩
  · exact hat.outbound_rx
  · cases hnext
    exact hat.outbound_rx
  · exact absurd hat.command_rx hcommand

/-- An overtaken `Close` ends with the entry gone: it removes what the command has just attached
to. -/
theorem Reached.overtaken_drained (h : Reached S calls (Stage.overtaken : Stage X c) p)
    (hdrained : p.command_rx = [] ∧ p.outbound_rx = []) :
    p.channels.channels c.discovery_key = none := by
  obtain ⟨stage', hnext, hat⟩ := h.at_stage
  rcases Stage.follows hnext with rfl | hnext | ⟨-, rfl⟩
  · exact nomatch hat.command_rx.symm.trans hdrained.1
  · cases hnext
    exact nomatch hat.outbound_rx.symm.trans hdrained.2
  · exact hat.entry

theorem Reached.asked_outbound (h : Reached S calls (Stage.asked : Stage X c) p) :
    p.outbound_rx = [] := by
  obtain ⟨stage', hnext, hat⟩ := h.at_stage
  rcases Stage.follows hnext with rfl | hnext | ⟨h, -⟩
  · exact hat.outbound_rx
  · cases hnext
    exact hat.outbound_rx
  · cases h

/-- Asked for after the `Close` was handled, the key has a new entry in the end, and the `Close`
was put out before the `Open`. -/
theorem Reached.asked_drained (h : Reached S calls (Stage.asked : Stage X c) p)
    (hcommand : p.command_rx = []) : ReopenTakesEffect c calls p := by
  obtain ⟨stage', hnext, hat⟩ := h.at_stage
  rcases Stage.follows hnext with rfl | hnext | ⟨h, -⟩
  · exact nomatch hat.command_rx.symm.trans hcommand
  · cases hnext
    exact ⟨hat.entry, _, _, hat.written⟩
  · cases h

end Reached

/-! ## A connection in memory -/

open compact_encoding

theorem memory_silent : Silent fun stream : Memory => stream.incoming = [] where
  no_message stream bs h := by
    rcases stream.poll_next_cases with ⟨hash, frame, incoming, -, hincoming, -⟩ | hnext
    · cases hincoming.symm.trans h
    · rw [hnext]
      rintro ⟨⟩
  poll_next stream h := by
    rcases stream.poll_next_cases with ⟨hash, frame, incoming, -, hincoming, -⟩ | hnext
    · cases hincoming.symm.trans h
    · rw [hnext]
      exact h
  poll_ready _ h := h
  start_send _ _ h := h
  poll_flush _ h := h

/-- The protocol of the established session with both requests waiting, on a sink that
is not ready. -/
def reopening : Protocol deps Memory :=
  { established.protocol with
    io := { established.protocol.io with
      stream := ⟨false, some (to_vec (sample 0)), [], [], [false, false]⟩ }
    channels := { established.protocol.channels with shared := ⟨⟨[true]⟩, ⟨[⟨[], true⟩]⟩⟩ }
    command_rx := [.Open first_channel.key]
    outbound_rx := [batch_of first_channel [close_of first_channel]]
    handshake_emitted := true }

/-- The channel it gets: the key is attached with another id, to the old entry. The `Close` that
follows removes it. -/
def second_channel : Channel := { first_channel with
  inbound_rx := some 1, direct_inbound_tx := 1, local_id := 2 }

/-- The entry of the key now. -/
def second_handle (inbound_tx : ℕ) : ChannelHandle :=
  { first_handle (some first_remote) (some inbound_tx) with local_state := some ⟨sample 1, 2⟩ }

/-- After the `Open`. -/
def reattached : Protocol deps Memory :=
  { reopening with
    channels :=
      { channels := Function.update (Function.update reopening.channels.channels
          first_channel.discovery_key (some (second_handle 0)))
          first_channel.discovery_key (some (second_handle 1))
        local_id := ⟨[none, some first_channel.discovery_key, some first_channel.discovery_key],
          by decide⟩
        remote_id := reopening.channels.remote_id
        shared := ⟨⟨[true]⟩, ⟨[⟨[], true⟩, ⟨[], true⟩]⟩⟩ }
    io := { reopening.io with write_queue := reopening.io.write_queue ++
      [open_message 2 first_channel.discovery_key (some (sample_capability false (sample 1)))] }
    command_rx := []
    queued_events := [.Channel second_channel] }

/-- And after the `Close`. -/
def reclosed : Protocol deps Memory :=
  { reattached with
    channels :=
      { channels := Function.update reattached.channels.channels first_channel.discovery_key none
        local_id := ⟨[none, some first_channel.discovery_key, none], by decide⟩
        remote_id := ⟨[none, none], by decide⟩
        shared := reattached.channels.shared }
    io := ⟨Memory.connected false, reattached.io.write_queue ++
      [⟨UInt64.ofNat first_channel.local_id, close_of first_channel⟩]⟩
    outbound_rx := []
    queued_events := [.Channel second_channel, .Close first_channel.discovery_key] }

/-- The poll that empties both queues, part by part. -/
theorem reopening_polled :
    (Protocol.poll_next 2).run reopening = .ok (.ready (.Channel second_channel))
      { reclosed with queued_events := [.Close first_channel.discovery_key] } := by
  have hhandshake : (Protocol.poll_handshake 2).run reopening = .ok false reopening := rfl
  have hemit : Protocol.emit_handshake.run reopening = .ok none reopening := rfl
  have hpop : Protocol.pop_event.run reopening = .ok none reopening := rfl
  have hread : (Protocol.poll_inbound_read 2).run reopening = .ok () reopening := rfl
  have hcommands : Protocol.poll_commands.run reopening = .ok () reattached := rfl
  have hwrite : Protocol.poll_outbound_write.run reattached = .ok () reclosed := rfl
  have hevent : Protocol.pop_event.run reclosed = .ok (some (.Channel second_channel))
      { reclosed with queued_events := [.Close first_channel.discovery_key] } := rfl
  simp [Protocol.poll_next, Protocol.poll_main, hhandshake, hemit, hpop, hread, hcommands, hwrite,
    hevent]

/-- The session after so many polls, by evaluation. -/
def after_polls (fuel n : ℕ) (s : Session X σ) : Session X σ :=
  ((poll_times fuel n s).getD ([], s)).2

theorem waits_after_polls {K : σ → σ → Prop} {fuel n : ℕ} {s : Session X σ}
    (h : (poll_times fuel n s).isSome = true) : Waits K s (after_polls fuel n s) := by
  obtain ⟨⟨tr, s'⟩, hpolls⟩ := Option.isSome_iff_exists.mp h
  have hafter : after_polls fuel n s = s' := by rw [after_polls, hpolls]; rfl
  obtain ⟨run, hall⟩ := poll_times_run hpolls
  rw [hafter]
  clear h hpolls hafter
  induction run with
  | nil => exact .refl
  | snoc run h ih =>
    obtain ⟨hbefore, hlast⟩ := List.forall_mem_append.mp hall
    obtain ⟨result, rfl⟩ := hlast _ (List.mem_singleton.mpr rfl)
    exact (ih hbefore).poll h

/-- The established session with the `Close` of its channel in the outbound queue. -/
def closing_logged : Session deps (Logged Memory) :=
  { established_logged with
    protocol := { established_logged.protocol with
      outbound_rx := [batch_of first_channel [close_of first_channel]] }
    closing := [first_channel]
    senders := [first_channel] }

/-- `Channel::close` returns, and the key is asked for: the last two steps before the final
polls. -/
def asks_again (t : Session deps (Logged Memory)) : Session deps (Logged Memory) :=
  let s := ({ t with closing := [] } : Session deps (Logged Memory)).with_shared
    (t.protocol.channels.shared.store_true first_channel.closed)
  { s with protocol := { s.protocol with
    command_rx := s.protocol.command_rx ++ [.Open first_channel.key] } }

theorem asks_again_steps {t : Session deps (Logged Memory)} (hclosing : t.closing = [first_channel])
    (hroom : t.protocol.command_rx.length < CHANNEL_CAP) :
    ∃ s₃, Step t (.store_closed first_channel) s₃ ∧
      Step s₃ (.queue_command (.Open first_channel.key)) (asks_again t) ∧
      s₃.protocol.outbound_rx = t.protocol.outbound_rx :=
  ⟨_, .store_closed (l := []) hclosing, .queue_command _ hroom, rfl⟩

/-! ## The theorem -/

omit [CipherTrait σ] in
/-- The entry of a channel that is not closed is there, and it is the channel's own. -/
theorem live_of_open {s : Session X σ} (hs : Inv s) (hheld : c ∈ s.held)
    (hopen : s.is_closed c = false) : Live s.protocol.channels c := by
  refine (hs.backed c (Or.inl hheld)).entry ?_
  rw [Session.is_closed] at hopen
  cases hread : s.protocol.channels.shared.flags.read c.closed with
  | none => rw [hread] at hopen; exact nomatch hopen
  | some b => rw [hread] at hopen; exact congrArg some hopen

/-- From every reachable session with both queues empty: a channel is closed, and when that
is done its key is opened again; the session is polled all the while, and nothing arrives.
When the polls have emptied both queues, the new `Open` has taken effect if and only if the
`Close` had left the outbound queue when the command was queued. It does not matter that the
command is handled later: for as long as it waits, the outbound queue stays as it is, so that
the poll that handles the command finds the same. -/
theorem reopen_takes_effect_iff {S : σ → Prop} (hX : X.Lawful) (halloc : X.AllocatesOrPanics)
    (hcipher : LawfulCipher σ) (hS : Silent S) {stream : Logged σ}
    {tr : List (Happening X (Logged σ))} {s s₁ t₁ s₂ t₂ s₃ t₃ s₄ s₅ : Session X (Logged σ)}
    (run : Run Step (Session.new stream) tr s) (hheld : c ∈ s.held)
    (hopen : s.is_closed c = false) (hcommand : s.protocol.command_rx = [])
    (hout : s.protocol.outbound_rx = []) (hsilent : S s.protocol.io.stream.stream)
    (close : Step s (.close c) s₁) (wait₁ : Waits (Undisturbed S) s₁ t₁)
    (enqueue : Step t₁ (.enqueue ⟨c, batch_of c [close_of c], true⟩) s₂)
    (wait₂ : Waits (Undisturbed S) s₂ t₂) (store : Step t₂ (.store_closed c) s₃)
    (wait₃ : Waits (Undisturbed S) s₃ t₃) (command : Step t₃ (.queue_command (.Open c.key)) s₄)
    (wait₄ : Waits (Undisturbed S) s₄ s₅)
    (hdrained : s₅.protocol.command_rx = [] ∧ s₅.protocol.outbound_rx = []) :
    (ReopenTakesEffect c s.protocol.io.stream.calls s₅.protocol ↔
      t₃.protocol.outbound_rx = []) ∧
    ∀ t, Waits (Undisturbed S) s₄ t → t.protocol.command_rx ≠ [] →
      t.protocol.outbound_rx = t₃.protocol.outbound_rx := by
  have hs := reachable_inv run
  have hknows : s.Knows c := Or.inl hheld
  have hbacked := hs.backed c hknows
  generalize hcalls : s.protocol.io.stream.calls = calls
  have hwaits : ∀ {stage : Stage X c} {s s' : Session X (Logged σ)}, Waits (Undisturbed S) s s' →
      Reached S calls stage s.protocol → Reached S calls stage s'.protocol :=
    fun h => h.reached hX halloc hcipher hS hbacked.key_of
  have hlive := live_of_open hs hheld hopen
  have hhash := reachable_hash run hknows
  have hidle : Reached S calls (Stage.idle : Stage X c) t₁.protocol := by
    refine hwaits wait₁ ?_
    cases close
    exact ⟨⟨_, .refl, hcommand, hout, hs.wf, ⟨hbacked, hlive⟩, hcalls ▸ wrote_nil _⟩, hsilent,
      hhash⟩
  have hclosing : Reached S calls (Stage.closing : Stage X c) t₃.protocol := by
    refine hwaits wait₃ ?_
    have h : Reached S calls (Stage.closing : Stage X c) s₂.protocol := by
      cases enqueue
      exact hidle.enqueue
    cases store
    exact (hwaits wait₂ h).store_closed c.closed
  rcases hclosing.of_closing with hat | hat
  · -- the `Close` still waits, and is overtaken
    have hreached : Reached S calls (Stage.overtaken : Stage X c) s₄.protocol := by
      cases command
      exact ⟨⟨_, .refl, congrArg (· ++ _) hat.command_rx, hat.outbound_rx, hat.wf, hat.entry,
        hat.written⟩, hclosing.silent, hclosing.hash⟩
    refine ⟨iff_of_false ?_ ?_, fun t wait ht => ?_⟩
    · rintro ⟨⟨h, hd, -⟩, -⟩
      exact nomatch hd.symm.trans ((hwaits wait₄ hreached).overtaken_drained hdrained)
    · exact fun h => nomatch h.symm.trans hat.outbound_rx
    · exact ((hwaits wait hreached).overtaken_waiting ht).trans hat.outbound_rx.symm
  · -- the `Close` was handled before
    have hreached : Reached S calls (Stage.asked : Stage X c) s₄.protocol := by
      cases command
      exact ⟨⟨_, .refl, congrArg (· ++ _) hat.command_rx, hat.outbound_rx, hat.wf, hat.entry,
        hat.written⟩, hclosing.silent, hclosing.hash⟩
    refine ⟨iff_of_true ((hwaits wait₄ hreached).asked_drained hdrained.1) hat.outbound_rx,
      fun t wait _ => ?_⟩
    exact ((hwaits wait hreached).asked_outbound).trans hat.outbound_rx.symm

/-- The channel is closed, two polls handle that, and its key is opened again. -/
theorem reopen_takes_effect_iff_polled :
    ∃ s₁ t₂ s₃ s₅, Step established_logged (.close first_channel) s₁ ∧
      Step s₁ (.enqueue ⟨first_channel, batch_of first_channel [close_of first_channel], true⟩)
        closing_logged ∧
      Waits (Undisturbed fun stream : Memory => stream.incoming = []) closing_logged t₂ ∧
      Step t₂ (.store_closed first_channel) s₃ ∧
      Step s₃ (.queue_command (.Open first_channel.key)) (asks_again t₂) ∧
      Waits (Undisturbed fun stream : Memory => stream.incoming = []) (asks_again t₂) s₅ ∧
      s₃.protocol.outbound_rx = [] ∧ ReopenTakesEffect first_channel [] s₅.protocol := by
  obtain ⟨tr, run⟩ := established_logged_reachable
  obtain ⟨t₂, ht₂⟩ : ∃ t, t = after_polls 1 2 closing_logged := ⟨_, rfl⟩
  obtain ⟨s₅, hs₅⟩ : ∃ s, s = after_polls 1 2 (asks_again t₂) := ⟨_, rfl⟩
  have hpolls : (poll_times 1 2 closing_logged).isSome = true ∧
      (poll_times 1 2 (asks_again (after_polls 1 2 closing_logged))).isSome = true := by
    decide +kernel
  have hclosing : t₂.closing = [first_channel] := by
    rw [ht₂]
    decide +kernel
  have hqueues : t₂.protocol.command_rx.isEmpty = true ∧
      t₂.protocol.outbound_rx.isEmpty = true := by
    rw [ht₂]
    decide +kernel
  have hdrained : s₅.protocol.command_rx.isEmpty = true ∧
      s₅.protocol.outbound_rx.isEmpty = true := by
    rw [hs₅, ht₂]
    decide +kernel
  simp only [List.isEmpty_iff] at hqueues hdrained
  have close : Step established_logged (.close first_channel) _ :=
    .close (List.mem_singleton.mpr rfl) rfl
  have enqueue : Step { established_logged with
        sending := [⟨first_channel, batch_of first_channel [close_of first_channel], true⟩] }
      (.enqueue ⟨first_channel, batch_of first_channel [close_of first_channel], true⟩)
      closing_logged := .enqueue (l := []) rfl (by decide)
  have wait₂ : Waits (Undisturbed fun stream : Memory => stream.incoming = []) closing_logged t₂ :=
    ht₂ ▸ waits_after_polls hpolls.1
  have wait₄ :
      Waits (Undisturbed fun stream : Memory => stream.incoming = []) (asks_again t₂) s₅ := by
    rw [hs₅]
    exact waits_after_polls (ht₂ ▸ hpolls.2)
  obtain ⟨s₃, store, command, hsame⟩ := asks_again_steps hclosing
    (by rw [hqueues.1]; decide)
  have hleft := hsame.trans hqueues.2
  exact ⟨_, t₂, s₃, s₅, close, enqueue, wait₂, store, command, wait₄, hleft,
    (reopen_takes_effect_iff deps_lawful deps_allocates memory_lawful memory_silent run
      (List.mem_singleton.mpr rfl) rfl rfl rfl rfl close .refl enqueue wait₂ store .refl command
      wait₄ hdrained).1.mpr hleft⟩

/-- What the requests end with when they are made back to back: no entry, and the new `Open`
written before the `Close`. -/
theorem reopen_lost :
    ∃ tr s₁ s₂ s₃ s₄ s₅,
      Run Step (Session.new (Memory.connected false) : Session deps Memory) tr established ∧
      Step established (.close first_channel) s₁ ∧
      Step s₁ (.enqueue ⟨first_channel, batch_of first_channel [close_of first_channel], true⟩) s₂ ∧
      Step s₂ (.store_closed first_channel) s₃ ∧
      Step s₃ (.queue_command (.Open first_channel.key)) s₄ ∧
      Waits (fun _ stream : Memory => stream.incoming = []) s₄ s₅ ∧
      s₅.protocol.command_rx = [] ∧ s₅.protocol.outbound_rx = [] ∧
      s₅.protocol.channels.channels first_channel.discovery_key = none ∧
      ∃ l cap, s₅.protocol.io.write_queue = l ++ [open_message 2 first_channel.discovery_key cap,
        ⟨UInt64.ofNat first_channel.local_id, close_of first_channel⟩] := by
  obtain ⟨tr, run, -⟩ := established_reachable
  -- the sink is not ready, and the first poll returns the handshake event
  have hfirst : (Protocol.poll_next 1).run { reopening with handshake_emitted := false } =
      .ok (.ready (.Handshake (sample 1))) reopening := rfl
  have hnet : KeepsHandshake (Memory.connected false) reopening.io.stream :=
    .refl (Memory.connected false)
  exact ⟨tr, _, _, _, _, _, run, .close (List.mem_singleton.mpr rfl) rfl,
    .enqueue (l := []) rfl (by decide), .store_closed (l := []) rfl,
    .queue_command _ (by decide),
    .poll (.poll (.net .refl (.net hnet) rfl) (.poll hfirst)) (.poll reopening_polled),
    rfl, rfl, rfl,
    established.protocol.io.write_queue, some (sample_capability false (sample 1)), rfl⟩

end hypercore_protocol.session
