import LoPhi.Lib.Machine
import LoPhi.Lib.Struct

/-! # The disk hooks in the hypervisor

`lophi-hooks-disk.c`. Every access of the guest to the watched block device is handed to a
thread of its own, which writes it to a UNIX socket while it has `socket_thread_mutex`. The
events are the calls of `lophi_disk_access` and what the threads do from one call of `write`
to the next, in any order. A call of `lophi_disk_access` is one event although it takes no lock:
accesses come one after another. A `write` and the test of `LOPHI_COUNTER` that follows it are one
event although other threads may count in between: that commutes with the `write`, so it is as
if they had counted before. -/

namespace LoPhi.Hypervisor
open LoPhi.Lib.Struct

/-- `BDRV_SECTOR_SIZE`. -/
def sectorSize : Nat := 512

/-- `LOPHI_RECONNECT_COUNT`. -/
def reconnectCount : Int32 := 10

/-- `enum disk_operation`. -/
inductive DiskOperation where
  | read
  | write
  | invalid
  deriving DecidableEq, Repr

def DiskOperation.code : DiskOperation → Nat
  | .read => 0
  | .write => 1
  | .invalid => 2

/-- `struct LOPHIThreadObj`: an access with its content, whose size is an `int`. -/
structure Access where
  content : List UInt8
  sector : Int64
  numSectors : Nat
  op : DiskOperation
  whole : content.length = numSectors * sectorSize
  fits : numSectors * sectorSize < 2 ^ 31
  deriving DecidableEq

/-- `DiskIntrospectionHeader`. -/
def header (a : Access) : List UInt8 :=
  leBytes 8 a.sector.toUInt64.toNat ++ leBytes 4 a.numSectors ++ leBytes 4 a.op.code ++
    leBytes 4 (a.numSectors * sectorSize)

/-- The header and `size` bytes. -/
def packet (a : Access) : List UInt8 := header a ++ a.content

/-- What `lophi_drv_open` has stored: `LOPHI_FILENAME`, and the `LOPHI_BLOCK_DEVICE` it was
opened for. -/
structure Drive where
  filename : List UInt8
  device : Nat

/-- `DiskIntrospectionMetaStruct`: `strncpy` cuts the name or fills up with zeros. -/
def metaStruct (filename : List UInt8) : List UInt8 :=
  (filename ++ List.replicate (1024 - filename.length) 0).take 1024 ++ leBytes 4 sectorSize

/-- `LOPHI_SOCK_FD`: -1, a socket that is not connected, or a connection with the bytes that
were written on it. -/
inductive Fd where
  | closed
  | unconnected
  | connected (stream : List UInt8)
  deriving DecidableEq

/-- The thread that has the mutex: before its `write` in `lophi_init_meta`, before a `write`
in its loop, or returned without an unlock. -/
inductive Holder where
  | announcing (a : Access)
  | writing (a : Access) (written : Nat)
  | gone
  deriving DecidableEq

/-- The globals, the connections that were closed, the threads that have not run yet, those
that have counted themselves and wait for the mutex, and the one that has it. -/
structure State where
  commInit : Bool
  sockOpen : Bool
  counter : Int32
  fd : Fd
  abandoned : List (List UInt8)
  spawned : List Access
  waiting : List Access
  holder : Option Holder
  deriving DecidableEq

/-- Before `bdrv_init`. -/
def State.initial : State := ⟨false, false, 0, .closed, [], [], [], none⟩

/-- How far `socket` and `connect` get. -/
inductive Connect where
  | noSocket
  | refused
  | accepted
  deriving DecidableEq, Repr

/-! ## The hooks -/

/-- `write`: what it returns, and the descriptor after it. Without a connection it fails, and
on one it takes up to `result` bytes or fails. -/
def Fd.write (bytes : List UInt8) (result : Option Nat) : Fd → Int × Fd
  | .connected stream =>
    match result with
    | some n => ((bytes.take n).length, .connected (stream ++ bytes.take n))
    | none => (-1, .connected stream)
  | .closed => (-1, .closed)
  | .unconnected => (-1, .unconnected)

/-- `lophi_initialize`. -/
def lophiInitialize (connect : Connect) (s : State) : State :=
  let abandoned := match s.fd with
    | .connected stream => s.abandoned ++ [stream]
    | _ => s.abandoned
  match connect with
  | .noSocket => { s with fd := .closed, abandoned := abandoned }
  | .refused => { s with fd := .unconnected, abandoned := abandoned }
  | .accepted => { s with fd := .connected [], abandoned := abandoned, sockOpen := true }

/-- The error branches: now and then they open a new connection. -/
def reconnect (connect : Connect) (s : State) : State :=
  lophiInitialize connect { s with sockOpen := false, commInit := false }

/-- `lophi_init_meta`. -/
def lophiInitMeta (drive : Drive) (result : Option Nat) (connect : Connect) (s : State) :
    Bool × State :=
  let (bytes_written, fd) := s.fd.write (metaStruct drive.filename) result
  let s := { s with fd := fd }
  if bytes_written < 0 then
    if s.counter % reconnectCount = 0 then (false, reconnect connect s) else (true, s)
  else (true, { s with commInit := true })

/-- A turn of the loop of `lophi_thread`, and what follows the loop if it was the last. -/
def lophiWrite (a : Access) (written : Nat) (result : Option Nat) (connect : Connect)
    (s : State) : State :=
  let (w, fd) := s.fd.write ((packet a).drop written) result
  let s := { s with fd := fd }
  let bytes_written : Int := written + w
  if 0 < w ∧ bytes_written < (packet a).length then
    { s with holder := some (.writing a bytes_written.toNat) }
  else
    let s := if bytes_written < 0 ∧ s.counter % reconnectCount = 0 then reconnect connect s else s
    { s with holder := none }

/-- `lophi_disk_access`. -/
def lophiDiskAccess (drive : Drive) (a : Access) (bs : Nat) (connect : Connect) (s : State) :
    State :=
  if s.sockOpen = false ∧ s.counter % reconnectCount = 0 then lophiInitialize connect s
  else if bs ≠ drive.device then s
  else { s with spawned := s.spawned ++ [a] }

/-- What happens next: a call of `lophi_disk_access`, a thread that starts, one that gets the
mutex, or the next `write` of the one that has it. -/
inductive Event where
  | access (a : Access) (bs : Nat) (connect : Connect)
  | start (i : Nat)
  | lock (i : Nat)
  | write (result : Option Nat) (connect : Connect)
  deriving DecidableEq

/-- One event, and the access whose thread gets the mutex with it. An event that is not
possible changes nothing. -/
def step (drive : Drive) (s : State) : Event → State × Option Access
  | .access a bs connect => (lophiDiskAccess drive a bs connect s, none)
  | .start i =>
    match s.spawned[i]? with
    | some a =>
      ({ s with
          counter := s.counter + 1
          spawned := s.spawned.eraseIdx i
          waiting := s.waiting ++ [a] }, none)
    | none => (s, none)
  | .lock i =>
    match s.holder, s.waiting[i]? with
    | none, some a =>
      ({ s with
          waiting := s.waiting.eraseIdx i
          holder := some (if s.commInit then .writing a 0 else .announcing a) }, some a)
    | _, _ => (s, none)
  | .write result connect =>
    match s.holder with
    | some (.announcing a) =>
      match lophiInitMeta drive result connect s with
      | (true, s) => ({ s with holder := some (.writing a 0) }, none)
      | (false, s) => ({ s with holder := some .gone }, none)
    | some (.writing a written) => (lophiWrite a written result connect s, none)
    | _ => (s, none)

/-- The bytes on every connection, the last one being open. -/
def State.streams (s : State) : List (List UInt8) :=
  match s.fd with
  | .connected stream => s.abandoned ++ [stream]
  | _ => s.abandoned

/-- A write of one sector of zeros. -/
def zeroed (sector : Int64) : Access where
  content := List.replicate 512 0
  sector := sector
  numSectors := 1
  op := .write
  whole := List.length_replicate
  fits := by decide

/-- A disk called `d`. -/
def driveD : Drive := ⟨[100], 0⟩

/-! ## What a `write` can do -/

theorem length_header (a : Access) : (header a).length = 20 := by
  simp only [header, List.length_append, leBytes_length]

theorem packet_ne_nil (a : Access) : packet a ≠ [] := by
  apply List.ne_nil_of_length_pos
  rw [packet, List.length_append, length_header]
  omega

/-- What is sent of a packet, after a `write` has taken more of it. -/
theorem packet_advance {a : Access} {sent rest got left : List UInt8}
    (hsent : packet a = sent ++ rest) (hbytes : (packet a).drop sent.length = got ++ left) :
    packet a = sent ++ got ++ left := by
  rw [hsent, List.drop_left] at hbytes
  rw [hsent, hbytes, List.append_assoc]

/-- A `write` puts the first of the bytes on the connection, or it fails and changes
nothing. -/
theorem Fd.write_cases (fd : Fd) (bytes : List UInt8) (result : Option Nat) :
    (∃ stream got left, fd = .connected stream ∧ bytes = got ++ left ∧
      fd.write bytes result = ((got.length : Int), .connected (stream ++ got))) ∨
    fd.write bytes result = (-1, fd) := by
  cases fd with
  | closed => exact Or.inr rfl
  | unconnected => exact Or.inr rfl
  | connected stream =>
    cases result with
    | none => exact Or.inr rfl
    | some n =>
      exact Or.inl ⟨stream, bytes.take n, bytes.drop n, rfl, (List.take_append_drop n bytes).symm,
        rfl⟩

/-- `lophi_initialize` closes the connection, and another one is open or none is. -/
theorem lophiInitialize_spec (connect : Connect) (s : State) :
    (lophiInitialize connect s).abandoned = s.streams ∧
    (lophiInitialize connect s).commInit = s.commInit ∧
    ((lophiInitialize connect s).fd = .connected [] ∧
        (lophiInitialize connect s).sockOpen = true ∨
      (∀ stream, (lophiInitialize connect s).fd ≠ .connected stream) ∧
        (lophiInitialize connect s).sockOpen = s.sockOpen) := by
  unfold lophiInitialize State.streams
  cases connect with
  | noSocket => exact ⟨rfl, rfl, Or.inr ⟨fun _ h => (by cases h), rfl⟩⟩
  | refused => exact ⟨rfl, rfl, Or.inr ⟨fun _ h => (by cases h), rfl⟩⟩
  | accepted => exact ⟨rfl, rfl, Or.inl ⟨rfl, rfl⟩⟩

/-- It leaves the mutex alone. -/
theorem lophiInitialize_holder (connect : Connect) (s : State) :
    lophiInitialize connect s = { lophiInitialize connect s with holder := s.holder } := by
  cases connect with
  | _ => rfl

section Threads
variable (drive : Drive) (s : State) (i : Nat)

/-- A thread starts, if there is one. -/
theorem step_start :
    (∃ a, s.spawned[i]? = some a ∧ step drive s (.start i) =
      ({ s with
          counter := s.counter + 1
          spawned := s.spawned.eraseIdx i
          waiting := s.waiting ++ [a] }, none)) ∨
    step drive s (.start i) = (s, none) := by
  cases hspawned : s.spawned[i]? with
  | none => exact Or.inr (by simp only [step, hspawned])
  | some a => exact Or.inl ⟨a, rfl, by simp only [step, hspawned]⟩

/-- A thread gets the mutex, if one waits and no other has it. -/
theorem step_lock :
    (∃ a, s.holder = none ∧ s.waiting[i]? = some a ∧ step drive s (.lock i) =
      ({ s with
          waiting := s.waiting.eraseIdx i
          holder := some (if s.commInit then .writing a 0 else .announcing a) }, some a)) ∨
    step drive s (.lock i) = (s, none) := by
  cases hholder : s.holder with
  | some _ => exact Or.inr (by simp only [step, hholder])
  | none =>
    cases hwaiting : s.waiting[i]? with
    | none => exact Or.inr (by simp only [step, hholder, hwaiting])
    | some a => exact Or.inl ⟨a, rfl, rfl, by simp only [step, hholder, hwaiting]⟩

/-- Without a thread that can write, a `write` is not possible. -/
theorem step_write_idle {s : State} (h : s.holder = none ∨ s.holder = some .gone)
    (result : Option Nat) (connect : Connect) :
    step drive s (.write result connect) = (s, none) := by
  obtain h | h := h
  · rw [step, h]
  · rw [step, h]

end Threads

/-- What `write` returns to the thread that has the mutex. -/
def returned (drive : Drive) (s : State) : Event → Option Int
  | .write result _ =>
    match s.holder with
    | some (.announcing _) => some (s.fd.write (metaStruct drive.filename) result).1
    | some (.writing a written) => some (s.fd.write ((packet a).drop written) result).1
    | _ => none
  | _ => none

section Write
variable (drive : Drive) {s : State} {a : Access} {written : Nat} {got : List UInt8} {fd : Fd}
  (result : Option Nat) (connect : Connect)

/-- A `write` gives nobody the mutex. -/
theorem step_write_none : (step drive s (.write result connect)).2 = none := by
  unfold step
  simp only
  split
  · split
    · rfl
    · rfl
  · rfl
  · rfl

theorem lophiInitMeta_got
    (h : s.fd.write (metaStruct drive.filename) result = ((got.length : Int), fd)) :
    lophiInitMeta drive result connect s = (true, { s with fd := fd, commInit := true }) := by
  unfold lophiInitMeta
  rw [h]
  exact if_neg (Int.not_lt.mpr (Int.natCast_nonneg got.length))

theorem lophiInitMeta_fails (h : s.fd.write (metaStruct drive.filename) result = (-1, s.fd)) :
    s.counter % reconnectCount = 0 ∧
      lophiInitMeta drive result connect s = (false, reconnect connect s) ∨
    s.counter % reconnectCount ≠ 0 ∧ lophiInitMeta drive result connect s = (true, s) := by
  unfold lophiInitMeta
  rw [h]
  by_cases hcounter : s.counter % reconnectCount = 0
  · exact Or.inl ⟨hcounter, if_pos hcounter⟩
  · exact Or.inr ⟨hcounter, if_neg hcounter⟩

/-- The `write` of the meta struct. -/
theorem step_announcing (h : s.holder = some (.announcing a)) :
    (∃ stream got left, s.fd = .connected stream ∧ metaStruct drive.filename = got ++ left ∧
      returned drive s (.write result connect) = some (got.length : Int) ∧
      (step drive s (.write result connect)).1 =
        { s with
            fd := .connected (stream ++ got)
            commInit := true
            holder := some (.writing a 0) }) ∨
    returned drive s (.write result connect) = some (-1) ∧
      (s.counter % reconnectCount = 0 ∧ (step drive s (.write result connect)).1 =
          { reconnect connect s with holder := some .gone } ∨
        s.counter % reconnectCount ≠ 0 ∧
          (step drive s (.write result connect)).1 = { s with holder := some (.writing a 0) }) := by
  unfold step returned
  simp only [h]
  obtain ⟨stream, got, left, hfd, hbytes, hwrite⟩ | hwrite :=
    s.fd.write_cases (metaStruct drive.filename) result
  · refine Or.inl ⟨stream, got, left, hfd, hbytes, congrArg (some ·.1) hwrite, ?_⟩
    rw [lophiInitMeta_got drive result connect hwrite]
  · refine Or.inr ⟨congrArg (some ·.1) hwrite, ?_⟩
    obtain ⟨hcounter, hmeta⟩ | ⟨hcounter, hmeta⟩ :=
      lophiInitMeta_fails drive result connect hwrite
    · rw [hmeta]
      exact Or.inl ⟨hcounter, rfl⟩
    · rw [hmeta]
      exact Or.inr ⟨hcounter, rfl⟩

theorem lophiWrite_got {left : List UInt8} (hbytes : (packet a).drop written = got ++ left)
    (hgot : got ≠ []) (h : s.fd.write ((packet a).drop written) result = ((got.length : Int), fd)) :
    lophiWrite a written result connect s =
      { s with
          fd := fd
          holder := if left = [] then none else some (.writing a (written + got.length)) } := by
  have hpos := List.length_pos_of_ne_nil hgot
  have hlen : (packet a).length - written = got.length + left.length := by
    rw [← List.length_drop, hbytes, List.length_append]
  unfold lophiWrite
  rw [h]
  by_cases hleft : left = []
  · rw [if_pos hleft]
    rw [hleft, List.length_nil] at hlen
    simp only
    rw [if_neg (by omega), if_neg (by omega)]
  · have hmore := List.length_pos_of_ne_nil hleft
    rw [if_neg hleft]
    exact if_pos ⟨by omega, by omega⟩

theorem lophiWrite_fails {w : Int} (hw : w ≤ 0)
    (h : s.fd.write ((packet a).drop written) result = (w, s.fd)) :
    (written + w < 0 ∧ lophiWrite a written result connect s =
        { reconnect connect s with holder := none }) ∨
      lophiWrite a written result connect s = { s with holder := none } := by
  unfold lophiWrite
  rw [h]
  simp only
  rw [if_neg (by omega)]
  by_cases hreconnect : (written : Int) + w < 0 ∧ s.counter % reconnectCount = 0
  · rw [if_pos hreconnect]
    exact Or.inl ⟨hreconnect.1, rfl⟩
  · rw [if_neg hreconnect]
    exact Or.inr rfl

/-- A `write` in the loop of `lophi_thread`. -/
theorem step_writing (h : s.holder = some (.writing a written)) :
    (∃ stream got left, s.fd = .connected stream ∧ (packet a).drop written = got ++ left ∧
      got ≠ [] ∧ returned drive s (.write result connect) = some (got.length : Int) ∧
      (step drive s (.write result connect)).1 =
        { s with
            fd := .connected (stream ++ got)
            holder := if left = [] then none else some (.writing a (written + got.length)) }) ∨
    ∃ w, returned drive s (.write result connect) = some w ∧ w ≤ 0 ∧
      (written = 0 ∧ (step drive s (.write result connect)).1 =
          { reconnect connect s with holder := none } ∨
        (step drive s (.write result connect)).1 = { s with holder := none }) := by
  unfold step returned
  simp only [h]
  obtain ⟨stream, got, left, hfd, hbytes, hwrite⟩ | hwrite :=
    s.fd.write_cases ((packet a).drop written) result
  · by_cases hgot : got = []
    · rw [hgot, List.append_nil, ← hfd] at hwrite
      refine Or.inr ⟨0, congrArg (some ·.1) hwrite, Int.le_refl 0, ?_⟩
      obtain ⟨hneg, -⟩ | hrun := lophiWrite_fails result connect (Int.le_refl 0) hwrite
      · omega
      · exact Or.inr hrun
    · exact Or.inl ⟨stream, got, left, hfd, hbytes, hgot, congrArg (some ·.1) hwrite,
        lophiWrite_got result connect hbytes hgot hwrite⟩
  · refine Or.inr ⟨-1, congrArg (some ·.1) hwrite, by decide, ?_⟩
    obtain ⟨hneg, hrun⟩ | hrun := lophiWrite_fails result connect (by decide) hwrite
    · exact Or.inl ⟨by omega, hrun⟩
    · exact Or.inr hrun

end Write

end LoPhi.Hypervisor
