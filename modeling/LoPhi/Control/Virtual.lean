import LoPhi.Lib.Effect
import LoPhi.Lib.Machine

/-! # The control sensor of a virtual machine

Every operation of `ControlSensorVirtual` opens a libvirt connection, looks the
machine up, does its work and closes the connection. With `REQUIRE_MUTEX` set,
`_connect` takes `libvirt_mutex` before it opens the connection, and
`_disconnect` gives it back after it has closed it.

What libvirt does is a parameter: which of the calls raise, and what the calls
that return hand back. The calls of an operation have names, so an operation
and the outcomes of its calls determine its run. A program between `_connect`
and `_disconnect` does not touch the mutex: it has a value, or it raises. Log
lines and waiting are left out. -/

namespace LoPhi.Control.Virtual
open LoPhi.Lib.Effect

/-! ## libvirt -/

/-- A libvirt call of an operation. An operation opens at most two connections, which
are told apart by a number, and the key presses it sends are counted. -/
inductive Call where
  | openConnection (n : Nat)
  | lookupByName (n : Nat)
  | close (n : Nat)
  | sendKey (i : Nat)
  | create
  | destroy
  | shutdown
  | reset
  | reboot
  | state
  | createXML
  | suspend
  | resume
  | snapshotLookupByName
  | snapshotCreateXML
  | revertToSnapshot
  | save
  | restoreFlags
  | restore
  | newStream
  | screenshot
  | saveToFile
  | finish
  | xmlDesc
  deriving DecidableEq, Repr

/-- An element `currentMemory`: its unit, and the number in it if there is one. -/
structure MemoryElement where
  unit : String
  number : Option Int

/-- An element `disk`: its device, and the files of its sources. -/
structure DiskElement where
  device : String
  sources : List String

/-- An element `graphics`: its type, and its port if that is a number. -/
structure GraphicsElement where
  type : String
  port : Option Int

/-- What is read of the description of a machine. An interface is the list of the devices of
its targets. -/
structure DomainXml where
  currentMemory : List MemoryElement
  disks : List DiskElement
  interfaces : List (List String)
  graphics : List GraphicsElement

/-- What the libvirt calls of one operation do. -/
structure Libvirt where
  raises : Call → Bool
  /-- What `state` returns. -/
  state : Nat
  /-- What `XMLDesc` returns, `none` if it cannot be parsed. -/
  xml : Option DomainXml

/-- How an operation can end other than by returning: an exception, or waiting for the
mutex for ever. -/
inductive Exc where
  | raised
  | blocked
  deriving DecidableEq, Repr

/-- A program between `_connect` and `_disconnect`: its value, or `none` if it raises. -/
abbrev Result := Option

def call (v : Libvirt) (c : Call) : Result Unit := if v.raises c then none else some ()

/-- `try: … except: …`. -/
def tryExcept {α : Type} (body handler : Result α) : Result α := body <|> handler

/-! ## Connections -/

inductive MachineType where
  | physical
  | xen
  | kvm
  deriving DecidableEq, Repr

structure ControlSensorVirtual where
  requireMutex : Bool
  machineType : MachineType

/-- A program on `libvirt_mutex`; the state says whether it is held. -/
abbrev Locking := Prog Exc Bool

def acquire : Locking Unit := fun held => if held then (.error .blocked, held) else (.ok (), true)

def release : Locking Unit := fun _ => (.ok (), false)

section Operations
variable (s : ControlSensorVirtual) (v : Libvirt)

/-- The machine is found. -/
def found (n : Nat) : Bool := !v.raises (.lookupByName n)

/-- `_connect`. -/
def connect (n : Nat) : Locking Bool := do
  if s.requireMutex then acquire
  orRaise .raised (call v (.openConnection n))
  orRaise .raised (tryExcept (do call v (.lookupByName n); return true) (return false))

/-- `_disconnect`. -/
def disconnect (n : Nat) : Locking Unit := do
  orRaise .raised (call v (.close n))
  if s.requireMutex then release

/-- The shape of the operations: connect, work on the machine if it is found, disconnect. -/
def withDomain {α : Type} (n : Nat) (body : Bool → Result α) : Locking α := do
  let dom ← connect s v n
  let rtn ← orRaise .raised (body dom)
  disconnect s v n
  return rtn

/-- The work of the operations that make one call on a machine that is found. -/
def onDomain (c : Call) (dom : Bool) : Result Unit := if dom then call v c else some ()

/-! ## Keys and power -/

/-- A line of key presses: a special key, a pause, or so many keys. -/
inductive KeyLine where
  | special
  | sleep
  | keys (count : Nat)

/-- How many keys a line sends. -/
def KeyLine.count : KeyLine → Nat
  | .special => 1
  | .sleep => 0
  | .keys count => count

/-- The loop over the keys of a line, the first of them number `i`. -/
def sendKeys : (count i : Nat) → Result Unit
  | 0, _ => some ()
  | count + 1, i => do
    call v (.sendKey i)
    sendKeys count (i + 1)

/-- The loop over the lines. -/
def sendLines : List KeyLine → Nat → Result Unit
  | [], _ => some ()
  | line :: lines, i => do
    sendKeys v line.count i
    sendLines lines (i + line.count)

def keypressSend (keypresses : List KeyLine) : Locking Unit :=
  withDomain s v 0 fun dom => if dom then sendLines v keypresses 0 else some ()

def powerOn : Locking Bool :=
  withDomain s v 0 fun dom =>
    if dom then do
      tryExcept (call v .create) (some ())
      return true
    else return false

/-- The `try` is around the whole session, and its handler does not disconnect. -/
def powerOff : Locking Unit := fun held =>
  match withDomain s v 0 (onDomain v .destroy) held with
  | (.error .raised, held) => (.ok (), held)
  | r => r

def powerShutdown : Locking Unit := withDomain s v 0 (onDomain v .shutdown)

def powerReset : Locking Unit := withDomain s v 0 (onDomain v .reset)

def powerReboot : Locking Unit := withDomain s v 0 (onDomain v .reboot)

def getState : Locking (Option Nat) :=
  withDomain s v 0 fun dom =>
    if dom then do
      call v .state
      return some v.state
    else return none

/-- `POWER_STATUS`. -/
inductive PowerStatus where
  | on
  | off
  | unknown
  deriving DecidableEq, Repr

/-- The switch of `power_status` over the numbers libvirt has for the states: running 1,
blocked 2, paused 3, shutting down 4, shut off 5. -/
def statusOf : Option Nat → PowerStatus
  | some 1 | some 2 | some 3 => .on
  | some 4 | some 5 => .off
  | _ => .unknown

def powerStatus : Locking PowerStatus := do
  let state ← getState s v
  return statusOf state

/-! ## Machines and snapshots -/

def machineCreate (paused : Bool) : Locking Unit :=
  withDomain s v 0 fun dom =>
    if dom then some ()
    else if paused then
      if s.machineType = .kvm then call v .createXML
      else do
        call v .createXML
        call v .suspend
    else call v .createXML

def machinePause : Locking Unit := withDomain s v 0 (onDomain v .suspend)

def machineResume : Locking Unit := withDomain s v 0 (onDomain v .resume)

/-- `self.SNAPSHOT_NAME` and `self.SNAPSHOT_XML`. Only `VirtualMachine` has these attributes, not
the class of its sensor, so reading them raises. -/
def snapshotName : Result Unit := none

def snapshotXml : Result Unit := none

/-- `False` for Xen, nothing otherwise. The handler reads an attribute as well. -/
def machineSnapshot : Locking (Option Bool) :=
  if s.machineType = .xen then return some false
  else do
    withDomain s v 0 fun dom =>
      if dom && s.machineType = .kvm then
        tryExcept
          (do
            snapshotName
            call v .snapshotLookupByName)
          (do
            snapshotXml
            call v .snapshotCreateXML)
      else some ()
    return none

/-- Neither `machine_reset`, for Xen, nor `detach_usb` is a method of the class, so the
operation raises before it connects. -/
def machineSnapshotRestore : Locking Bool := do
  raise .raised
  withDomain s v 0 fun dom =>
    if dom && s.machineType = .kvm then
      tryExcept
        (do
          snapshotName
          call v .snapshotLookupByName
          call v .revertToSnapshot
          return true)
        (return false)
    else return false

/-- A Xen machine must run to be saved: it is resumed over a connection of its own. -/
def machineSave : Locking Unit := do
  if s.machineType = .xen then machineResume s v
  withDomain s v 1 (onDomain v .save)

def machineRestore (paused : Bool) : Locking Unit :=
  withDomain s v 0 fun _ =>
    if s.machineType = .kvm then
      if paused then call v .restoreFlags else call v .restore
    else if paused then some ()
    else call v .restore

/-! ## Readings -/

/-- Whether the name of the picture is returned, or `False`. -/
def screenshot : Locking Bool :=
  withDomain s v 0 fun dom =>
    if dom then
      tryExcept
        (do
          call v .newStream
          call v .screenshot
          call v .saveToFile
          call v .finish
          return true)
        (return false)
    else return true

/-- `xml.parseString(DOM.XMLDesc(0))`. -/
def readXml : Result DomainXml := do
  call v .xmlDesc
  v.xml

/-- The loop of the operations that look for elements of a kind: the value of the last one
counts, and each of them must have one. -/
def lastSelected {ε α : Type} (selected : ε → Bool) (value : ε → Option α) :
    List ε → Option α → Result (Option α)
  | [], rtn => some rtn
  | e :: es, rtn =>
    if selected e then do
      let a ← value e
      lastSelected selected value es (some a)
    else lastSelected selected value es rtn

def memoryGetSize : Locking (Option Int) :=
  withDomain s v 0 fun dom =>
    if dom then do
      let xml ← readXml v
      lastSelected (fun m => m.unit = "KiB") (fun m => m.number.map (· * 1024))
        xml.currentMemory none
    else return none

def diskGetFilename : Locking (Option String) :=
  withDomain s v 0 fun dom =>
    if dom then do
      let xml ← readXml v
      lastSelected (fun d => d.device = "disk") (fun d => d.sources.head?) xml.disks none
    else return none

/-- `_get_vnc_port`, with which `mouse_click` begins. -/
def getVncPort : Locking (Option Int) :=
  withDomain s v 0 fun dom =>
    if dom then do
      let xml ← readXml v
      lastSelected (fun g => g.type = "vnc") (fun g => g.port) xml.graphics none
    else return none

def networkGetInterface : Locking (Option String) :=
  withDomain s v 0 fun dom =>
    if dom then
      tryExcept
        (do
          let xml ← readXml v
          let targets ← xml.interfaces.head?
          let dev ← targets.head?
          return some dev)
        (return none)
    else return none

def hasLophiSnapshot : Locking Bool :=
  withDomain s v 0 fun dom =>
    if dom then
      tryExcept
        (do
          snapshotName
          call v .snapshotLookupByName
          return true)
        (return false)
    else return false

end Operations

/-! ## Sequences of operations -/

inductive Operation where
  | keypressSend (keypresses : List KeyLine)
  | powerOn
  | powerOff
  | powerShutdown
  | powerReset
  | powerReboot
  | getState
  | powerStatus
  | machineCreate (paused : Bool)
  | machinePause
  | machineResume
  | machineSnapshot
  | machineSnapshotRestore
  | machineSave
  | machineRestore (paused : Bool)
  | screenshot
  | memoryGetSize
  | diskGetFilename
  | getVncPort
  | networkGetInterface
  | hasLophiSnapshot

/-- The program of an operation, whatever it returns. -/
def Operation.program (s : ControlSensorVirtual) (v : Libvirt) : Operation → Locking Unit
  | .keypressSend keypresses => Virtual.keypressSend s v keypresses
  | .powerOn => discard (Virtual.powerOn s v)
  | .powerOff => Virtual.powerOff s v
  | .powerShutdown => Virtual.powerShutdown s v
  | .powerReset => Virtual.powerReset s v
  | .powerReboot => Virtual.powerReboot s v
  | .getState => discard (Virtual.getState s v)
  | .powerStatus => discard (Virtual.powerStatus s v)
  | .machineCreate paused => Virtual.machineCreate s v paused
  | .machinePause => Virtual.machinePause s v
  | .machineResume => Virtual.machineResume s v
  | .machineSnapshot => discard (Virtual.machineSnapshot s v)
  | .machineSnapshotRestore => discard (Virtual.machineSnapshotRestore s v)
  | .machineSave => Virtual.machineSave s v
  | .machineRestore paused => Virtual.machineRestore s v paused
  | .screenshot => discard (Virtual.screenshot s v)
  | .memoryGetSize => discard (Virtual.memoryGetSize s v)
  | .diskGetFilename => discard (Virtual.diskGetFilename s v)
  | .getVncPort => discard (Virtual.getVncPort s v)
  | .networkGetInterface => discard (Virtual.networkGetInterface s v)
  | .hasLophiSnapshot => discard (Virtual.hasLophiSnapshot s v)

/-- An operation on a sensor, and what its libvirt calls do. -/
structure Use where
  sensor : ControlSensorVirtual
  operation : Operation
  libvirt : Libvirt

/-- One operation after the other on the same mutex. -/
def step (held : Bool) (u : Use) : Bool × Except Exc Unit :=
  let (result, held) := u.operation.program u.sensor u.libvirt held
  (held, result)

end LoPhi.Control.Virtual
