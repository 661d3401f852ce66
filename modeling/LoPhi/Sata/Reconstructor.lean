import LoPhi.Sata.Frame

/-! # The SATA reconstructor

`SATAReconstructor` puts frames reordered by Native Command Queuing back into
disk accesses. Every method is a function of the object before the call; it
gives the object after the call and what the call returned or raised. A raise
keeps the assignments made before it, as in the source.

Of a stored frame only what is read again is kept: the register header, the
DMA Setup header, the payload. The log lines read state but change none, and
are left out except where evaluating their arguments can raise. The queues
`host_queue` and `device_queue` are never used, and nothing in the sources
calls `handle_non_ncq_register_DTH`. -/

namespace LoPhi.Sata.Reconstructor
open LoPhi.Lib.Python LoPhi.Sata.Frame

/-! ## The object -/

/-- The values of `STATE`. -/
inductive State where
  | deviceIdle
  | waitForRegisterAck
  | waitForDmaDataDevice
  | waitForDmaDataHost
  | waitForNonNcqData
  deriving DecidableEq, Repr

/-- What `regular_disk_sensor_packet` refers to: nothing, an object whose
field assignments raised (its `data` is still `None`), or a packet. -/
inductive RegularPacket (β : Type) where
  | none
  | unset
  | packet (p : DiskSensorPacket β)
  deriving DecidableEq, Repr

structure SATAReconstructor (β : Type) where
  sectorSize : Nat
  regularRegisterStack : List RegisterHtoD
  regularDiskSensorPacket : RegularPacket β
  ncqRegisterStack : List RegisterHtoD
  /-- Outstanding DMA Setups, the top of the stack first. -/
  ncqDmaStack : List DmaSetup
  /-- Register frames of the outstanding NCQ transactions, by tag. -/
  ncqTransactionsOutstanding : List (Option RegisterHtoD)
  /-- The packets that aggregate their data, by tag. -/
  ncqDataOutstanding : List (Option (DiskSensorPacket β))
  /-- The `sata_data` of the data frames of the current burst. -/
  ncqDataPackets : List (List β)
  ncqDataLen : Nat
  lastPacketSeqno : Option Nat
  state : State
  numErrors : Nat
  totalFrames : Nat
  deriving DecidableEq, Repr

/-- What a call returns or raises. -/
abbrev Outcome (β : Type) := Except PyError (Option (List (DiskSensorPacket β)))

/-- The object after a call, and the call's outcome. -/
abbrev Call (β : Type) := SATAReconstructor β × Outcome β

variable {β : Type}

/-- `SATAReconstructor(sector_size)`. -/
def init (sectorSize : Nat) : SATAReconstructor β where
  sectorSize := sectorSize
  regularRegisterStack := []
  regularDiskSensorPacket := .none
  ncqRegisterStack := []
  ncqDmaStack := []
  ncqTransactionsOutstanding := List.replicate 32 none
  ncqDataOutstanding := List.replicate 32 none
  ncqDataPackets := []
  ncqDataLen := 0
  lastPacketSeqno := none
  state := .deviceIdle
  numErrors := 0
  totalFrames := 0

/-! ## Resets -/

/-- `_reset_state`. -/
def resetState (s : SATAReconstructor β) : SATAReconstructor β :=
  { s with
    lastPacketSeqno := none
    ncqDmaStack := []
    ncqTransactionsOutstanding := List.replicate 32 none
    ncqDataOutstanding := List.replicate 32 none
    ncqDataPackets := []
    ncqDataLen := 0
    state := .deviceIdle }

/-- `_reset_ncq`. -/
def resetNcq (s : SATAReconstructor β) : SATAReconstructor β :=
  { s with
    ncqRegisterStack := []
    ncqTransactionsOutstanding := List.replicate 32 none
    ncqDataOutstanding := List.replicate 32 none
    ncqDmaStack := []
    ncqDataPackets := []
    ncqDataLen := 0 }

/-! ## Handlers -/

/-- `handle_set_device_bits`. -/
def handleSetDeviceBits (s : SATAReconstructor β) (b : SetDeviceBits) : Call β :=
  if b.statusLo &&& 1 = 1 then (resetNcq s, .ok none)
  else if b.interrupt = 1 ∧ b.proto = 0xffffffff then (resetNcq s, .ok none)
  -- completed commands are only logged: their data may still be on its way
  else (s, .ok none)

/-- `handle_register_HTD`. -/
def handleRegisterHTD (s : SATAReconstructor β) (direction : Nat) (r : RegisterHtoD) : Call β :=
  if r.C = 0 then (s, .ok none)
  else if r.command = readFPDMAQueued ∨ r.command = writeFPDMAQueued then
    let operation := if r.command = writeFPDMAQueued then directionWrite else directionRead
    if r.tag < s.ncqTransactionsOutstanding.length then
      let s := { s with
        ncqTransactionsOutstanding := s.ncqTransactionsOutstanding.set r.tag (some r) }
      match newDiskSensorPacket r.lba r.features operation (r.features * s.sectorSize) with
      | .error e => (s, .error e)
      | .ok p =>
        if r.tag < s.ncqDataOutstanding.length then
          ({ s with ncqDataOutstanding := s.ncqDataOutstanding.set r.tag (some p) }, .ok none)
        else (s, .error .indexOutOfRange)
    else (s, .error .indexOutOfRange)
  else if r.command = ncqQueueManagement then (s, .ok none)
  else
    let s := { s with regularRegisterStack := r :: s.regularRegisterStack }
    match newDiskSensorPacket r.lba r.count direction (r.count * s.sectorSize) with
    | .error e => ({ s with regularDiskSensorPacket := .unset }, .error e)
    | .ok p =>
      ({ s with regularDiskSensorPacket := .packet p, state := .waitForNonNcqData }, .ok none)

/-- `handle_ncq_register_DTH`. -/
def handleNcqRegisterDTH (s : SATAReconstructor β) (r : RegisterDtoH) : Call β :=
  if r.status &&& 1 = 1 then (resetNcq s, .ok none) else (s, .ok none)

/-- `handle_pio_setup`. -/
def handlePioSetup (s : SATAReconstructor β) : Call β :=
  ({ s with state := .waitForNonNcqData }, .ok none)

/-- `handle_dma_setup`. -/
def handleDmaSetup (s : SATAReconstructor β) (d : DmaSetup) : Call β :=
  ({ s with
    ncqDmaStack := d :: s.ncqDmaStack
    state := if d.directionBit = hostToDevice then .waitForDmaDataHost
      else .waitForDmaDataDevice }, .ok none)

/-- `handle_ncq_data_packet`. -/
def handleNcqDataPacket (s : SATAReconstructor β) (sataData : List β) : Call β :=
  match s.ncqDmaStack with
  | [] => (s, .ok none)
  | dma :: rest =>
    let tag := dma.dmaBufIdentifierLow
    match s.ncqTransactionsOutstanding[tag]? with
    | none => (s, .error .indexOutOfRange)
    | some none => (s, .ok none)
    | some (some _) =>
      let s := { s with
        ncqDataPackets := s.ncqDataPackets ++ [sataData]
        ncqDataLen := s.ncqDataLen + (payload sataData).length }
      if dma.transferCount ≤ s.ncqDataLen then
        match s.ncqDataOutstanding[tag]? with
        | none => (s, .error .indexOutOfRange)
        | some none => (s, .error .attributeError)
        | some (some p) =>
          let p := { p with data := p.data ++ (s.ncqDataPackets.map payload).flatten }
          let s := { s with
            ncqDataOutstanding := s.ncqDataOutstanding.set tag (some p)
            ncqDataLen := 0
            ncqDataPackets := []
            ncqDmaStack := rest
            state := .deviceIdle }
          -- flushed as soon as the register frame's byte count is reached
          if p.size ≤ p.data.length then
            ({ s with
              ncqTransactionsOutstanding := s.ncqTransactionsOutstanding.set tag none
              ncqDataOutstanding := s.ncqDataOutstanding.set tag none }, .ok (some [p]))
          else (s, .ok none)
      else (s, .ok none)

/-- `handle_non_ncq_data_packet`. The first log line measures the packet's
data, so it is what raises when there is no packet. -/
def handleNonNcqDataPacket (s : SATAReconstructor β) (direction : Nat) (sataData : List β) :
    Call β :=
  match s.regularRegisterStack with
  | [] => (s, .ok none)
  | _ :: _ =>
    match s.regularDiskSensorPacket with
    | .none => (s, .error .attributeError)
    | .unset => (s, .error .typeError)
    | .packet p =>
      let p := { p with data := p.data ++ payload sataData }
      if p.size ≤ p.data.length then
        ({ s with regularDiskSensorPacket := .none, state := .deviceIdle },
          .ok (some [{ p with direction := some direction }]))
      else ({ s with regularDiskSensorPacket := .packet p }, .ok none)

/-- `_handle_unexpected_packet`. -/
def handleUnexpectedPacket (s : SATAReconstructor β) (c : Content β) : Call β :=
  let s := { s with numErrors := s.numErrors + 1, state := .deviceIdle }
  match c.fis with
  | .registerHtoD r => handleRegisterHTD s c.direction r
  | .dmaSetup d => handleDmaSetup s d
  | _ => (s, .ok none)

/-- The wrong frame while waiting for DMA data: the burst is dropped, the DMA
Setup popped and the frame handled as an unexpected one. -/
def abandonBurst (s : SATAReconstructor β) (c : Content β) : Call β :=
  let s := { s with ncqDataLen := 0, ncqDataPackets := [] }
  match s.ncqDmaStack with
  | [] => (s, .error .popFromEmptyList)
  | _ :: rest => handleUnexpectedPacket { s with ncqDmaStack := rest } c

/-! ## process_packet -/

/-- The switch over `STATE` in `process_packet`. -/
def processInState (s : SATAReconstructor β) (c : Content β) : Call β :=
  match s.state with
  | .deviceIdle =>
    match c.fis with
    | .registerHtoD r =>
      if c.direction = hostToDevice then handleRegisterHTD s c.direction r else (s, .ok none)
    | .dmaSetup d => if c.direction = deviceToHost then handleDmaSetup s d else (s, .ok none)
    | _ => (s, .ok none)
  | .waitForRegisterAck =>
    match c.fis with
    | .registerDtoH r =>
      if c.direction = deviceToHost then handleNcqRegisterDTH s r else handleUnexpectedPacket s c
    | _ => handleUnexpectedPacket s c
  | .waitForDmaDataDevice =>
    if c.direction = deviceToHost ∧ c.fis = .data then handleNcqDataPacket s c.sataData
    else abandonBurst s c
  | .waitForDmaDataHost =>
    if c.direction = hostToDevice ∧ c.fis = .data then handleNcqDataPacket s c.sataData
    else abandonBurst s c
  | .waitForNonNcqData =>
    if c.fis = .data then handleNonNcqDataPacket s c.direction c.sataData
    else handleUnexpectedPacket s c

/-- The part of `process_packet` after the sequence check. -/
def dispatch (s : SATAReconstructor β) (c : Content β) : Call β :=
  match c.fis with
  | .dmaActivate _ => (s, .ok none)
  | .bistActivate => (s, .ok none)
  | .setDeviceBits b => handleSetDeviceBits s b
  | .registerHtoD r =>
    if c.direction = hostToDevice then handleRegisterHTD s c.direction r else processInState s c
  | .registerDtoH r =>
    if c.direction = deviceToHost then handleNcqRegisterDTH s r else processInState s c
  | .pioSetup _ => handlePioSetup s
  | .dmaSetup _ => processInState s c
  | .data => processInState s c

/-- The last sequence number a gap is measured from. `if self.last_packet_seqno`
is also false for the number zero. -/
def expectedAfter (s : SATAReconstructor β) : Option Nat :=
  s.lastPacketSeqno.filter (· ≠ 0)

/-- `process_packet` finds a frame missing before this one. -/
def gapBefore (s : SATAReconstructor β) (seqn : Nat) : Bool :=
  match expectedAfter s with
  | some last => seqn ≠ (last + 1) % 65536
  | none => false

/-- The check for dropped packets. -/
def checkSequence (s : SATAReconstructor β) (seqn : Nat) : SATAReconstructor β :=
  if gapBefore s seqn then resetState s else { s with lastPacketSeqno := some seqn }

/-- The object when a frame is dispatched: the frame counted, the sequence
number checked. -/
def arrive (s : SATAReconstructor β) (f : PhysicalPacket β) : SATAReconstructor β :=
  checkSequence { s with totalFrames := s.totalFrames + 1 } f.lophiSeqn

/-- `process_packet`. -/
def processPacket (s : SATAReconstructor β) (f : PhysicalPacket β) : Call β :=
  dispatch (arrive s f) f.toContent

end LoPhi.Sata.Reconstructor
