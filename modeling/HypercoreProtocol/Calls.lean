/-
Runs of polls that are computed.

A `Call` is something an application does with its session, or a frame that arrives.
`Session.call` is the step that a call is, for every connection that frames can be put
into (`Hears`). A list of calls is followed by `execute`, so that whatever is computed is a
run (`calls_run`) and a run with a given outcome is found by evaluation.
-/
import HypercoreProtocol.Polled
import HypercoreProtocol.Memory
import HypercoreProtocol.CompactEncoding

set_option autoImplicit false

namespace hypercore_protocol.session

open Rust Method Wire Runs schema message channels mqueue protocol compact_encoding

variable {X : Deps} {σ : Type} [CipherTrait σ] {s s' : Session X σ}

/-- A connection to which a frame can be brought. It keeps the handshake, so that bringing one is
a step of the network. -/
class Hears (σ : Type) [CipherTrait σ] where
  hear : σ → Bytes → σ
  keeps : ∀ stream frame, KeepsHandshake stream (hear stream frame)

instance : Hears Memory where
  hear stream frame := { stream with incoming := stream.incoming ++ [frame] }
  keeps _ _ := ⟨fun _ h => h, fun _ h => h⟩

instance [Hears σ] : Hears (Logged σ) where
  hear stream frame := { stream with stream := Hears.hear stream.stream frame }
  keeps stream frame := Hears.keeps stream.stream frame

/-! ## Polls -/

/-- A poll, if it returns, with the session after it. A poll that panics or runs out of fuel
gives none. -/
def Session.poll_once (s : Session X σ) (fuel : ℕ) : Option (PollAction X × Session X σ) :=
  match (Protocol.poll_next fuel).run s.protocol with
  | .ok result p => some (.poll (.ok result), s.polled p (given result))
  | .error (.err e) p => some (.poll (.error e), s.polled p [])
  | .error _ _ => none

theorem poll_once_step {fuel : ℕ} {a : PollAction X} (h : s.poll_once fuel = some (a, s')) :
    PollStep s a s' ∧ ∃ result, a = .poll result := by
  rw [Session.poll_once] at h
  split at h
  · rename_i result p hrun
    obtain ⟨rfl, rfl⟩ := Prod.mk.inj (Option.some.inj h)
    exact ⟨.poll hrun, _, rfl⟩
  · rename_i e p hrun
    obtain ⟨rfl, rfl⟩ := Prod.mk.inj (Option.some.inj h)
    exact ⟨.failed hrun, _, rfl⟩
  · cases h

/-- The transitions of so many polls, each with the same fuel, and the session after them. -/
def poll_times (fuel n : ℕ) (s : Session X σ) :
    Option (List (Transition (Session X σ) (PollAction X)) × Session X σ) :=
  execute Session.poll_once s (List.replicate n fuel)

theorem poll_times_run {fuel n : ℕ} {tr : List (Transition (Session X σ) (PollAction X))}
    (h : poll_times fuel n s = some (tr, s')) :
    Run PollStep s tr s' ∧ ∀ t ∈ tr, ∃ result, t.act = .poll result :=
  execute_run h fun _ _ _ _ h => poll_once_step h

/-! ## Calls -/

/-- What is done with a session, as data. A list of these is a program for an application and its
network. -/
inductive Call (X : Deps) where
  | command (c : Command)
  /-- A poll that reads at most so many frames. -/
  | poll (fuel : ℕ)
  | send (c : Channel) (messages : List (Message X))
  | close (c : Channel)
  /-- The first batch that waits enters the outbound queue. -/
  | enqueue
  /-- The first `close` that has queued its message stores the flag. -/
  | store_closed
  | receive (c : Channel)
  | local_send (c : Channel) (msg : Message X)
  | drop_receiver (c : Channel)
  /-- A frame arrives. -/
  | hear (frame : Bytes)

/-- The action that a call is, and the session after it, if it can be made. The conditions of
`PollStep` are decided here, so examples compute. -/
def Session.call [Hears σ] (s : Session X σ) : Call X → Option (PollAction X × Session X σ)
  | .command c =>
    if s.protocol.command_rx.length < CHANNEL_CAP then
      some (.app (.queue_command c),
        { s with protocol := { s.protocol with command_rx := s.protocol.command_rx ++ [c] } })
    else none
  | .poll fuel => s.poll_once fuel
  | .send c messages =>
    if c ∈ s.held ∧ s.is_closed c = false then
      some (.app (.send c messages),
        { s with sending := s.sending ++ [⟨c, batch_of c messages, false⟩] })
    else none
  | .close c =>
    if c ∈ s.held ∧ s.is_closed c = false then
      some (.app (.close c),
        { s with sending := s.sending ++ [⟨c, batch_of c [close_of c], true⟩] })
    else none
  | .enqueue =>
    match s.sending with
    | [] => none
    | x :: sending =>
      if s.protocol.outbound_rx.length < CHANNEL_CAP then
        some (.app (.enqueue x), { s with
          sending := sending
          closing := if x.closing then s.closing ++ [x.channel] else s.closing
          senders := s.senders ++ [x.channel]
          protocol := { s.protocol with outbound_rx := s.protocol.outbound_rx ++ [x.batch] } })
      else none
  | .store_closed =>
    match s.closing with
    | [] => none
    | c :: closing =>
      some (.app (.store_closed c), ({ s with closing := closing } : Session X σ).with_shared
        (s.protocol.channels.shared.store_true c.closed))
  | .receive c => do
    let n ← c.inbound_rx
    match s.protocol.channels.shared.inboxes.read n with
    | some ⟨msg :: rest, alive⟩ =>
      if c ∈ s.held then
        some (.app (.receive c msg), s.with_shared { s.protocol.channels.shared with
          inboxes := s.protocol.channels.shared.inboxes.update n fun _ => ⟨rest, alive⟩ })
      else none
    | _ => none
  | .local_send c msg =>
    if c ∈ s.held then
      some (.app (.local_send c msg),
        s.with_shared (s.protocol.channels.shared.push c.direct_inbound_tx msg))
    else none
  | .drop_receiver c => do
    let n ← c.inbound_rx
    if c ∈ s.held then
      some (.app (.drop_receiver c), s.with_shared { s.protocol.channels.shared with
        inboxes := s.protocol.channels.shared.inboxes.update n fun b => ⟨b.queue, false⟩ })
    else none
  | .hear frame =>
    some (.net, { s with protocol := { s.protocol with io := { s.protocol.io with
      stream := Hears.hear s.protocol.io.stream frame } } })

theorem call_step [Hears σ] {call : Call X} {a : PollAction X}
    (h : s.call call = some (a, s')) : PollStep s a s' := by
  -- calls with a condition
  have hcond : ∀ {c : Prop} [Decidable c] {r : PollAction X × Session X σ},
      (if c then some r else none) = some (a, s') → c ∧ r = (a, s') := by
    intro c _ r h
    rw [Option.ite_none_right_eq_some] at h
    exact ⟨h.1, Option.some.inj h.2⟩
  cases call with
  | command c =>
    obtain ⟨hroom, heq⟩ := hcond h
    obtain ⟨rfl, rfl⟩ := Prod.mk.inj heq
    exact .app (.queue_command c hroom) (fun _ h => nomatch h)
  | poll fuel => exact (poll_once_step h).1
  | send c messages =>
    obtain ⟨⟨hc, hopen⟩, heq⟩ := hcond h
    obtain ⟨rfl, rfl⟩ := Prod.mk.inj heq
    exact .app (.send messages hc hopen) (fun _ h => nomatch h)
  | close c =>
    obtain ⟨⟨hc, hopen⟩, heq⟩ := hcond h
    obtain ⟨rfl, rfl⟩ := Prod.mk.inj heq
    exact .app (.close hc hopen) (fun _ h => nomatch h)
  | enqueue =>
    simp only [Session.call] at h
    split at h
    · cases h
    · rename_i x sending hsending
      obtain ⟨hroom, heq⟩ := hcond h
      obtain ⟨rfl, rfl⟩ := Prod.mk.inj heq
      exact .app (.enqueue (l := []) hsending hroom) (fun _ h => nomatch h)
  | store_closed =>
    simp only [Session.call] at h
    split at h
    · cases h
    · rename_i c closing hclosing
      obtain ⟨rfl, rfl⟩ := Prod.mk.inj (Option.some.inj h)
      exact .app (.store_closed (l := []) hclosing) (fun _ h => nomatch h)
  | receive c =>
    simp only [Session.call, Option.bind_eq_bind, Option.bind_eq_some_iff] at h
    obtain ⟨n, hn, h⟩ := h
    split at h
    · rename_i msg rest alive hread
      obtain ⟨hc, heq⟩ := hcond h
      obtain ⟨rfl, rfl⟩ := Prod.mk.inj heq
      exact .app (.receive hc hn hread) (fun _ h => nomatch h)
    · cases h
  | local_send c msg =>
    obtain ⟨hc, heq⟩ := hcond h
    obtain ⟨rfl, rfl⟩ := Prod.mk.inj heq
    exact .app (.local_send msg hc) (fun _ h => nomatch h)
  | drop_receiver c =>
    simp only [Session.call, Option.bind_eq_bind, Option.bind_eq_some_iff] at h
    obtain ⟨n, hn, h⟩ := h
    obtain ⟨hc, heq⟩ := hcond h
    obtain ⟨rfl, rfl⟩ := Prod.mk.inj heq
    exact .app (.drop_receiver hc hn) (fun _ h => nomatch h)
  | hear frame =>
    obtain ⟨rfl, rfl⟩ := Prod.mk.inj (Option.some.inj h)
    exact .net (Hears.keeps _ frame)

/-- The transitions of the calls, one after the other, and the session after them. There are none
if one cannot be made. -/
def calls [Hears σ] (s : Session X σ) (l : List (Call X)) :
    Option (List (Transition (Session X σ) (PollAction X)) × Session X σ) :=
  execute Session.call s l

theorem calls_run [Hears σ] {l : List (Call X)}
    {tr : List (Transition (Session X σ) (PollAction X))} (h : calls s l = some (tr, s')) :
    Run PollStep s tr s' :=
  (execute_run (C := fun _ => True) h fun _ _ _ _ h => ⟨call_step h, trivial⟩).1

/-- The frame with these messages, as the encoder makes it. It is empty if they cannot be
encoded. -/
def frame_of (L : List (ChannelMessage deps)) : Bytes :=
  match to_encoded_bytes L with
  | .ok buf => buf
  | .error _ => []

end hypercore_protocol.session
