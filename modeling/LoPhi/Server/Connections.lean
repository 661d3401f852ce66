import LoPhi.Lib.Machine
import LoPhi.Server.ThreadItems
import LoPhi.Server.WaitingClients

/-! # Clients and VMs

The threads of the disk introspection server: `hypervisor_connection` for each VM and
`lophi_connection` for each client. They meet in the two lists. A step here is one call that
holds the mutex of a list, or one reading of what others write without it: `get_waiting_client`
and `remove_waiting_client` read the head before they take the mutex, and the descriptors of a
waiting client and of an item are read outside it. Between two steps of a thread the others go on,
except that `lophi_cleanup_mutex` keeps the cleanups of two clients, and that of a client and the
end of a VM, apart. -/

namespace LoPhi.Server.Connections
open LoPhi.Server.ThreadItems (Item setForwardFd setDiskData vmId)
open LoPhi.Server.WaitingClients (Entry lastNamed removeEntries)

/-- Where the thread of a VM is: before its meta data and behind them, within `get_waiting_client`
with the head, with the client that this returned, with its descriptor and with that set, before and
within `remove_waiting_client`, in its loop, with `lophi_cleanup_mutex` before and within
`create_waiting_client`, or behind the end of the connection. -/
inductive VmPhase where
  | connected
  | announced (filename : List UInt8)
  | searching (filename : List UInt8) (head : Option Nat)
  | found (waiting : Nat)
  | handing (waiting : Nat) (forwardFd : Int)
  | handed (waiting : Nat)
  | dequeueing (removeSocketFd : Int)
  | removing (removeSocketFd : Int) (head : Option Nat)
  | relaying
  | ending
  | requeueing (filename : List UInt8) (sockFd : Int)
  | ended
  deriving DecidableEq

/-- Where the thread of a client is: in its loop, within an `n` command or its cleanup once
`get_vm_id` has returned, behind `update_forward_fd` there, before and within
`remove_waiting_client`, or behind the cleanup. -/
inductive ClientPhase where
  | reading
  | named
  | unforwarding
  | unqueueing
  | dequeueing (removeSocketFd : Int)
  | removing (removeSocketFd : Int) (head : Option Nat)
  | left
  deriving DecidableEq

/-- The thread has `lophi_cleanup_mutex`. -/
def VmPhase.holdsMutex : VmPhase → Bool
  | .ending => true
  | .requeueing _ _ => true
  | _ => false

/-- The thread has `lophi_cleanup_mutex`. -/
def ClientPhase.holdsMutex : ClientPhase → Bool
  | .unforwarding => true
  | .unqueueing => true
  | .dequeueing _ => true
  | .removing _ _ => true
  | _ => false

/-- A thread that may have `lophi_cleanup_mutex`. -/
inductive Holder where
  | vm (a : Nat)
  | client (fd : Int)
  deriving DecidableEq

/-- The variables of `lophi_connection`, and whether the client has subscribed: to a VM that was
there, or by waiting for one. -/
structure Client where
  vmId : Int
  filename : List UInt8
  waitingClient : Option Nat
  phase : ClientPhase
  subscribed : Bool
  deriving DecidableEq

/-- The two lists, `cur_thread_id` (taken not to overflow), the threads of the VMs by the
address of their item and those of the clients by their descriptor, and the thread that has
`lophi_cleanup_mutex`. -/
structure State where
  items : List Item
  curThreadId : Int
  waiting : List Entry
  vms : Nat → Option VmPhase
  clients : Int → Option Client
  cleanup : Option Holder

namespace State

def initial : State := ⟨[], 0, [], fun _ => none, fun _ => none, none⟩

def setVm (s : State) (a : Nat) (phase : VmPhase) : State :=
  { s with vms := Function.update s.vms a (some phase) }

def setClient (s : State) (fd : Int) (c : Client) : State :=
  { s with clients := Function.update s.clients fd (some c) }

/-- `update_forward_fd`. -/
def updateForwardFd (s : State) (threadId forwardFd : Int) : State :=
  { s with items := setForwardFd threadId forwardFd s.items }

/-- `create_waiting_client`. -/
def createWaitingClient (s : State) (b : Nat) (filename : List UInt8) (fd : Int) : State :=
  { s with waiting := s.waiting ++ [⟨b, filename, fd⟩] }

/-- `waiting_head`. -/
def waitingHead (s : State) : Option Nat := (WaitingClients.addresses s.waiting).head?

/-- The rest of `get_waiting_client`, which has read `head`. A node that was the head and is not
any more is freed. -/
def getWaitingClient (s : State) (filename : List UInt8) (head : Option Nat) :
    Option (Option Nat) :=
  match head with
  | none => some none
  | some _ =>
    if head = s.waitingHead then some (lastNamed filename none s.waiting) else none

/-- The rest of `remove_waiting_client`, which has read `head`. -/
def removeWaitingClient (s : State) (removeSocketFd : Int) (head : Option Nat) : Option State :=
  match head with
  | none => some s
  | some _ =>
    if head = s.waitingHead then
      match removeEntries removeSocketFd s.waiting with
      | none => none
      | some waiting => some { s with waiting := waiting }
    else none

/-- `malloc` may return the address for a waiting client. -/
def isFree (s : State) (b : Nat) : Bool := !(WaitingClients.addresses s.waiting).contains b

/-- There is a VM with the id. -/
def hasVm (s : State) (threadId : Int) : Bool := s.items.any fun i => i.threadId = threadId

/-- `waiting->forward_socket_fd`, which is anything once the node is freed. -/
def readFd (s : State) (p : Nat) (junk : Int) : Int :=
  match s.waiting.find? fun e => e.address = p with
  | some e => e.forwardSocketFd
  | none => junk

end State

/-! ## `hypervisor_connection` -/

/-- What the thread does next: `advance` is the next step of a hand-over or of the end of the
connection. -/
inductive VmAction where
  | announce (filename : List UInt8)
  | advance (junk : Int)
  | sendFailed
  | disconnect
  | requeue (b : Nat)
  | remove

/-- The next step of a thread, with its item. Without meta data there is no filename to read at
the end of the connection, and nothing is defined. -/
def advance (s : State) (a : Nat) (i : Item) (junk : Int) : VmPhase → Option State
  | .announced filename => some (s.setVm a (.searching filename s.waitingHead))
  | .searching filename head =>
    match s.getWaitingClient filename head with
    | none => none
    | some none => some (s.setVm a .relaying)
    | some (some p) => some (s.setVm a (.found p))
  | .found p => some (s.setVm a (.handing p (s.readFd p junk)))
  | .handing p forwardFd =>
    some ((s.updateForwardFd i.threadId forwardFd).setVm a (.handed p))
  | .handed p => some (s.setVm a (.dequeueing (s.readFd p junk)))
  | .dequeueing removeSocketFd => some (s.setVm a (.removing removeSocketFd s.waitingHead))
  | .removing removeSocketFd head =>
    match s.removeWaitingClient removeSocketFd head with
    | none => none
    | some s => some (s.setVm a .relaying)
  | .ending =>
    match i.diskData with
    | none => none
    | some filename => some (s.setVm a (.requeueing filename i.forwardSocketFd))
  | _ => some s

/-- The end of a connection: `lophi_cleanup_mutex`, and whether there is a client. -/
def disconnect (s : State) (a : Nat) (i : Item) : State :=
  if s.cleanup = none then
    if 0 ≤ i.forwardSocketFd then { s with cleanup := some (.vm a) }.setVm a .ending
    else s.setVm a .ended
  else s

/-- The client waits again. -/
def requeue (s : State) (a b : Nat) (filename : List UInt8) (sockFd : Int) : State :=
  if s.isFree b then
    { s.createWaitingClient b filename sockFd with cleanup := none }.setVm a .ended
  else s

/-- One step of the thread of a VM, with its item. -/
def vmAct (s : State) (a : Nat) (i : Item) (phase : VmPhase) : VmAction → Option State
  | .announce filename =>
    match phase with
    | .connected =>
      some ({ s with items := setDiskData a filename s.items }.setVm a (.announced filename))
    | _ => some s
  | .advance junk => advance s a i junk phase
  | .sendFailed =>
    match phase with
    | .relaying => some (s.updateForwardFd i.threadId (-1))
    | _ => some s
  | .disconnect =>
    match phase with
    | .connected => some (disconnect s a i)
    | .relaying => some (disconnect s a i)
    | _ => some s
  | .requeue b =>
    match phase with
    | .requeueing filename sockFd => some (requeue s a b filename sockFd)
    | _ => some s
  | .remove =>
    match phase with
    | .ended =>
      some { s with
        items := s.items.filter fun i => i.address ≠ a
        vms := Function.update s.vms a none }
    | _ => some s

/-! ## `lophi_connection` -/

/-- What the thread does next: `cleanUp` is the next step of its cleanup. -/
inductive ClientAction where
  | subscribeId (parsed : Option Int)
  | lookUp (filename : List UInt8)
  | subscribeName (b : Nat)
  | leave
  | cleanUp (junk : Int)
  | close

/-- An `i` command, where `sscanf` may not find a number. -/
def subscribeId (s : State) (fd : Int) (c : Client) (parsed : Option Int) : State :=
  let vmId := parsed.getD c.vmId
  if vmId ≠ -1 then
    (s.updateForwardFd vmId fd).setClient fd
      { c with vmId := vmId, subscribed := c.subscribed || s.hasVm vmId }
  else s.setClient fd { c with vmId := vmId }

/-- The second part of an `n` command. -/
def subscribeName (s : State) (fd : Int) (c : Client) (b : Nat) : State :=
  if c.vmId ≠ -1 then
    (s.updateForwardFd c.vmId fd).setClient fd
      { c with phase := .reading, subscribed := c.subscribed || s.hasVm c.vmId }
  else if s.isFree b then
    (s.createWaitingClient b c.filename fd).setClient fd
      { c with waitingClient := some b, phase := .reading, subscribed := true }
  else s

/-- The socket has closed: `lophi_cleanup_mutex` and, if there is something to clean up,
`get_vm_id`. -/
def leave (s : State) (fd : Int) (c : Client) : State :=
  if s.cleanup = none then
    match c.waitingClient with
    | none => s.setClient fd { c with phase := .left }
    | some _ =>
      { s with cleanup := some (.client fd) }.setClient fd
        { c with vmId := vmId c.filename s.items, phase := .unforwarding }
  else s

/-- The next step of the cleanup. -/
def cleanUp (s : State) (fd : Int) (c : Client) (junk : Int) : Option State :=
  match c.phase with
  | .unforwarding =>
    some ((if c.vmId ≠ -1 then s.updateForwardFd c.vmId (-1) else s).setClient fd
      { c with phase := .unqueueing })
  | .unqueueing =>
    match c.waitingClient with
    | none => some s
    | some p => some (s.setClient fd { c with phase := .dequeueing (s.readFd p junk) })
  | .dequeueing removeSocketFd =>
    some (s.setClient fd { c with phase := .removing removeSocketFd s.waitingHead })
  | .removing removeSocketFd head =>
    match s.removeWaitingClient removeSocketFd head with
    | none => none
    | some s => some ({ s with cleanup := none }.setClient fd { c with phase := .left })
  | _ => some s

/-- One step of the thread of a client. -/
def clientAct (s : State) (fd : Int) (c : Client) : ClientAction → Option State
  | .subscribeId parsed =>
    match c.phase with
    | .reading => some (subscribeId s fd c parsed)
    | _ => some s
  | .lookUp filename =>
    match c.phase with
    | .reading =>
      some (s.setClient fd
        { c with filename := filename, vmId := vmId filename s.items, phase := .named })
    | _ => some s
  | .subscribeName b =>
    match c.phase with
    | .named => some (subscribeName s fd c b)
    | _ => some s
  | .leave =>
    match c.phase with
    | .reading => some (leave s fd c)
    | _ => some s
  | .cleanUp junk => cleanUp s fd c junk
  | .close =>
    match c.phase with
    | .left => some { s with clients := Function.update s.clients fd none }
    | _ => some s

/-! ## The server -/

inductive Event where
  | connect (a : Nat)
  | accept (fd : Int)
  | vm (a : Nat) (action : VmAction)
  | client (fd : Int) (action : ClientAction)

/-- One step. One that is not possible changes nothing. -/
def act (s : State) : Event → Option State
  | .connect a =>
    if (ThreadItems.addresses s.items).contains a then some s
    else
      some ({ s with
        items := s.items ++ [Item.mk a s.curThreadId none (-1)]
        curThreadId := s.curThreadId + 1 }.setVm a .connected)
  | .accept fd =>
    if 0 ≤ fd ∧ s.clients fd = none then
      some (s.setClient fd (Client.mk (-1) [] none .reading false))
    else some s
  | .vm a action =>
    match s.vms a, s.items.find? fun i => i.address = a with
    | some phase, some i => vmAct s a i phase action
    | _, _ => some s
  | .client fd action =>
    match s.clients fd with
    | some c => clientAct s fd c action
    | none => some s

def step (s : Option State) (e : Event) : Option State × Unit := (s.bind fun s => act s e, ())

end LoPhi.Server.Connections
