/-
`src/channels.rs`: channels, their handles and the channel map.

A `Channel` is what the application holds, a `ChannelHandle` what the protocol
keeps for it. The two share an atomic flag and the queue of inbound messages;
these live in the arenas of `Shared`, and both sides hold their numbers. The map
is indexed by discovery key: the source's index is the hex form of the key, and
two keys have the same hex form only if they are the same.

Every method of the map is a method on the map with its shared cells. A removed
handle is dropped, and dropping it sets its flag.
-/
import HypercoreProtocol.Handshake
import HypercoreProtocol.Message
import HypercoreProtocol.Lib.Arena

set_option autoImplicit false
-- the source has a field `channels` in its module `channels`
set_option linter.dupNamespace false

namespace hypercore_protocol.channels

open Rust Wire message

/-- `fn error`: the errors of the channel map are all of the kind `Other` and differ in their
text. -/
def error (message : String) : IoError := ⟨.Other, message⟩

/-! ## Shared cells -/

/-- The queue between the handle of a channel and its receivers. A send into it fails exactly if
no receiver is left, so besides the messages only that is kept. -/
structure Inbox (X : Deps) where
  queue : List (Message X)
  /-- Some `Receiver` of the queue still exists. -/
  receiver_alive : Bool

/-- **What handles and channels share.** An `Arc<AtomicBool>` and the two ends of a queue are
each a cell that is named by its number, so that a channel given to the application and the
handle in the map see the same flag and the same queue. -/
structure Shared (X : Deps) where
  flags : Arena Bool
  inboxes : Arena (Inbox X)

namespace Shared

variable {X : Deps}

/-- `Arc::new(AtomicBool::new(false))`: a new cell, which no flag of another handle is. -/
def new_flag (self : Shared X) : Shared X := { self with flags := self.flags.alloc false }

/-- `store(true)` on a flag. There is no way back: nothing in the source stores `false`. -/
def store_true (self : Shared X) (flag : ℕ) : Shared X :=
  { self with flags := self.flags.update flag fun _ => true }

/-- `async_channel::unbounded`: a new queue, empty and with its one receiver alive. -/
def new_inbox (self : Shared X) : Shared X :=
  { self with inboxes := self.inboxes.alloc ⟨[], true⟩ }

/-- Append a message to an inbound queue. The queue is unbounded, so that there is always
room. -/
def push (self : Shared X) (inbox : ℕ) (message : Message X) : Shared X :=
  { self with
    inboxes := self.inboxes.update inbox fun b => { b with queue := b.queue ++ [message] } }

end Shared

/-! ## Channels and their handles -/

/-- A protocol channel. The sender `outbound_tx` of the source is the one of its
protocol and is not kept here. -/
structure Channel where
  inbound_rx : Option ℕ
  direct_inbound_tx : ℕ
  key : Key
  discovery_key : DiscoveryKey
  local_id : ℕ
  closed : ℕ
deriving DecidableEq

/-- The side of a channel that was opened here: our id for it, and the key, which never goes over
the wire but is needed to check the capability of the remote. -/
structure LocalState where
  key : Key
  local_id : ℕ
deriving DecidableEq

/-- The side that the remote has opened: its id for the channel, and the capability that came
with its `Open`, to be checked once the key is known here. -/
structure RemoteState where
  remote_id : ℕ
  remote_capability : Option (Vec UInt8)
deriving DecidableEq

/-- The handle for a channel that lives with the main protocol. Either side may be attached
first, and there is a queue only after both are and the channel was accepted. -/
structure ChannelHandle where
  discovery_key : DiscoveryKey
  local_state : Option LocalState
  remote_state : Option RemoteState
  inbound_tx : Option ℕ
  closed : ℕ
deriving DecidableEq

/-- **The map of open channels**, and the tables of their local and remote ids. The source keys
the map by the hexadecimal text of the discovery key, which is injective. The shared cells are
part of its state, since its methods make and change them. -/
structure ChannelMap (X : Deps) where
  channels : DiscoveryKey → Option ChannelHandle
  local_id : Vec (Option DiscoveryKey)
  remote_id : Vec (Option DiscoveryKey)
  shared : Shared X

/-- Size in bytes of a slot of an id table, an `Option<String>`: pointer, length and capacity. It
decides how long a table can get before `Vec` panics. -/
def SLOT_SIZE : ℕ := 24

variable {X : Deps} {α : Type}

/-- A method of the channel map: it changes the map, and fails with an `io::Error` or by a
panic. -/
abbrev MapMethod (X : Deps) (α : Type) := Method IoError (ChannelMap X) α

namespace ChannelHandle

/-- A handle with nothing attached. Its flag is a new cell, so that a channel that is opened
again does not see the flag of the one before it. -/
def new (discovery_key : DiscoveryKey) : MapMethod X ChannelHandle := do
  let self ← get
  let closed := self.shared.flags.next
  set { self with shared := self.shared.new_flag }
  return ⟨discovery_key, none, none, none, closed⟩

def local_id (self : ChannelHandle) : Option ℕ := self.local_state.map LocalState.local_id

def remote_id (self : ChannelHandle) : Option ℕ := self.remote_state.map RemoteState.remote_id

def attach_local (self : ChannelHandle) (local_id : ℕ) (key : Key) : ChannelHandle :=
  { self with local_state := some ⟨key, local_id⟩ }

def attach_remote (self : ChannelHandle) (remote_id : ℕ)
    (remote_capability : Option (Vec UInt8)) : ChannelHandle :=
  { self with remote_state := some ⟨remote_id, remote_capability⟩ }

def new_local (local_id : ℕ) (discovery_key : DiscoveryKey) (key : Key) :
    MapMethod X ChannelHandle := do
  let this ← new discovery_key
  return this.attach_local local_id key

def new_remote (remote_id : ℕ) (discovery_key : DiscoveryKey)
    (remote_capability : Option (Vec UInt8)) : MapMethod X ChannelHandle := do
  let this ← new discovery_key
  return this.attach_remote remote_id remote_capability

/-- `ChannelHandle::is_connected`: attached from both sides. It says nothing about the
capability, which is checked between this and `open`. -/
def is_connected (self : ChannelHandle) : Bool :=
  self.local_state.isSome && self.remote_state.isSome

/-- `ChannelHandle::prepare_to_verify`: the key and the capability that is checked with it. The
two `unwrap`s behind the test cannot panic, which is a lemma and not an assumption. -/
def prepare_to_verify (self : ChannelHandle) : MapMethod X (Key × Option (Vec UInt8)) := do
  if !self.is_connected then
    throw (.err (error "Channel is not opened from both local and remote"))
  let local_state ← Method.unwrap self.local_state
  let remote_state ← Method.unwrap self.remote_state
  return (local_state.key, remote_state.remote_capability)

end ChannelHandle

namespace ChannelMap

def new : ChannelMap X where
  channels _ := none
  -- a first empty slot, so that ids start at 1
  local_id := .singleton none
  remote_id := .empty
  shared := ⟨.empty, .empty⟩

/-- Put a handle into the map, in the place of the one that may be there. -/
def insert (self : ChannelMap X) (discovery_key : DiscoveryKey) (handle : ChannelHandle) :
    ChannelMap X :=
  { self with channels := Function.update self.channels discovery_key (some handle) }

/-- The first free id, from 1 on; a new slot when there is none. So an id is used again as soon
as its channel has been removed. -/
def alloc_local : MapMethod X ℕ := do
  let self ← get
  let empty_id := ((self.local_id.val.drop 1).findIdx? Option.isNone).map (· + 1)
  match empty_id with
  | some empty_id => return empty_id
  | none => do
    let local_id ← Method.lift (self.local_id.push SLOT_SIZE none)
    set { self with local_id := local_id }
    return local_id.len - 1

/-- Make sure that slot `id` exists and is empty. The remote chooses `id`, and the table is made
that long: this is where it can make a `Vec` panic. -/
def alloc_remote (id : ℕ) : MapMethod X Unit := do
  let self ← get
  if self.remote_id.len > id then do
    let remote_id ← Method.lift (self.remote_id.index_set id none)
    set { self with remote_id := remote_id }
  else do
    let n ← Method.lift (usize_add id 1)
    let remote_id ← Method.lift (self.remote_id.resize SLOT_SIZE n none)
    set { self with remote_id := remote_id }

/-- `ChannelMap::attach_local`. An id is allocated first, and then the entry is made or the one
that is there is attached. -/
def attach_local (key : Key) : MapMethod X ChannelHandle := do
  let discovery_key ← Method.lift (discovery_key X key.val)
  let local_id ← alloc_local
  match (← get).channels discovery_key with
  | some channel => modify (·.insert discovery_key (channel.attach_local local_id key))
  | none => do
    let channel ← ChannelHandle.new_local local_id discovery_key key
    modify (·.insert discovery_key channel)
  let table ← Method.lift ((← get).local_id.index_set local_id (some discovery_key))
  modify ({ · with local_id := table })
  Method.unwrap ((← get).channels discovery_key)

/-- `ChannelMap::attach_remote`, the same with an id that comes from the remote. Another id that
the entry had before keeps its slot. -/
def attach_remote (discovery_key : DiscoveryKey) (remote_id : ℕ)
    (remote_capability : Option (Vec UInt8)) : MapMethod X ChannelHandle := do
  alloc_remote remote_id
  match (← get).channels discovery_key with
  | some channel =>
    modify (·.insert discovery_key (channel.attach_remote remote_id remote_capability))
  | none => do
    let channel ← ChannelHandle.new_remote remote_id discovery_key remote_capability
    modify (·.insert discovery_key channel)
  let table ← Method.lift ((← get).remote_id.index_set remote_id (some discovery_key))
  modify ({ · with remote_id := table })
  Method.unwrap ((← get).channels discovery_key)

/-- The handle in slot `id` of a table. A slot may name a key that has no entry any more, and
then it leads nowhere. -/
def resolve (self : ChannelMap X) (table : Vec (Option DiscoveryKey)) (id : ℕ) :
    Option ChannelHandle :=
  (table.slot id).bind self.channels

/-- `ChannelMap::get_remote`: a slot that is empty, or out of the table, leads nowhere, so that
the remote may use any number here. -/
def get_remote (self : ChannelMap X) (remote_id : ℕ) : Option ChannelHandle :=
  self.resolve self.remote_id remote_id

def get_local (self : ChannelMap X) (local_id : ℕ) : Option ChannelHandle :=
  self.resolve self.local_id local_id

def has_channel (self : ChannelMap X) (discovery_key : DiscoveryKey) : Bool :=
  (self.channels discovery_key).isSome

/-- `Drop for ChannelHandle` sets the flag, and every channel that was made from the handle is
closed from then on. -/
def drop_handle (handle : ChannelHandle) (self : ChannelMap X) : ChannelMap X :=
  { self with shared := self.shared.store_true handle.closed }

/-- `ChannelMap::remove`. Only the slots of the ids that the entry has now are cleared; `Drop for
ChannelHandle` sets the flag. -/
def remove (discovery_key : DiscoveryKey) : MapMethod X Unit := do
  match (← get).channels discovery_key with
  | some channel => do
    match channel.local_id with
    | some local_id => do
      let table ← Method.lift ((← get).local_id.index_set local_id none)
      modify ({ · with local_id := table })
    | none => pure ()
    match channel.remote_id with
    | some remote_id => do
      let table ← Method.lift ((← get).remote_id.index_set remote_id none)
      modify ({ · with remote_id := table })
    | none => pure ()
    modify fun self =>
      { self with channels := Function.update self.channels discovery_key none }
    modify (drop_handle channel)
  | none => pure ()

def prepare_to_verify (local_id : ℕ) : MapMethod X (Key × Option (Vec UInt8)) := do
  match (← get).get_local local_id with
  | some channel_handle => channel_handle.prepare_to_verify
  | none => throw (.err (error "Channel not found"))

end ChannelMap

/-- Open a handle: make its inbound queue, and the channel that reads from it. The
handle comes back changed. -/
def ChannelHandle.open (self : ChannelHandle) : MapMethod X (Channel × ChannelHandle) := do
  let local_state ← match self.local_state with
    | some local_state => pure local_state
    | none => throw (.panic (.expect "May not open channel that is not locally attached"))
  let map ← get
  let inbox := map.shared.inboxes.next
  set { map with shared := map.shared.new_inbox }
  let channel : Channel :=
    ⟨some inbox, inbox, local_state.key, self.discovery_key, local_state.local_id, self.closed⟩
  return (channel, { self with inbound_tx := some inbox })

namespace ChannelMap

/-- `ChannelMap::accept`: the entry gets a new queue, and the channel that is returned its other
end. An entry that is accepted twice gives up its first queue. -/
def accept (local_id : ℕ) : MapMethod X Channel := do
  let self ← get
  match self.local_id.slot local_id with
  | some discovery_key => do
    match self.channels discovery_key with
    | some channel_handle => do
      if !channel_handle.is_connected then
        throw (.err (error "Channel is not opened from remote"))
      let (channel, channel_handle) ← channel_handle.open
      modify (·.insert discovery_key channel_handle)
      return channel
    | none => throw (.err (error "Channel not found"))
  | none => throw (.err (error "Channel not found"))

/-- `try_send` on an inbound queue: it only fails when no receiver is left. The answer is whether
it was taken. -/
def try_send (inbox : ℕ) (message : Message X) : MapMethod X Bool := do
  let self ← get
  if (self.shared.inboxes.read inbox).any Inbox.receiver_alive then do
    set { self with shared := self.shared.push inbox message }
    return true
  else return false

end ChannelMap

namespace ChannelHandle

/-- `ChannelHandle::try_send_inbound`: before the channel is accepted there is no queue, and a
message for it is an error, as it is when nobody can receive it. -/
def try_send_inbound (self : ChannelHandle) (message : Message X) : MapMethod X Unit := do
  match self.inbound_tx with
  | some inbound_tx => do
    if ← ChannelMap.try_send inbound_tx message then return ()
    else throw (.err (error "Sending to channel failed: sending into a closed channel"))
  | none => throw (.err (error "Channel is not open"))

def try_send_inbound_tolerate_closed (self : ChannelHandle) (message : Message X) :
    MapMethod X Unit := do
  match self.inbound_tx with
  | some inbound_tx => do
    let _ ← ChannelMap.try_send inbound_tx message
    return ()
  | none => return ()

end ChannelHandle

namespace ChannelMap

/-- `ChannelMap::forward_inbound_message`, by the id of the remote. A message for an id without
an entry is dropped without an error. -/
def forward_inbound_message (remote_id : ℕ) (message : Message X) : MapMethod X Unit := do
  match (← get).get_remote remote_id with
  | some channel_handle => channel_handle.try_send_inbound message
  | none => return ()

def forward_inbound_message_tolerate_closed (remote_id : ℕ) (message : Message X) :
    MapMethod X Unit := do
  match (← get).get_remote remote_id with
  | some channel_handle => channel_handle.try_send_inbound_tolerate_closed message
  | none => return ()

end ChannelMap

end hypercore_protocol.channels
