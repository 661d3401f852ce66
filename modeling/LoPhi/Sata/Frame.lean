import LoPhi.Lib.Struct

/-! # SATA frames and disk sensor packets

What `SATAInterpreter.extract_sata_data` produces and `SATAReconstructor`
consumes: one record per frame information structure (FIS) with the keys its
header dictionary has, and the packet that reports one disk access. A header
of any other type has no `type` entry at all, so it is not a frame here.

The reconstructor only copies, slices and counts the bytes of a payload, so
the type of a byte is a parameter. -/

namespace LoPhi.Sata.Frame
open LoPhi.Lib.Python LoPhi.Lib.Struct

/-! ## Headers -/

/-- `SATAReconstructor.HOST_TO_DEVICE`. -/
def hostToDevice : Nat := 0

/-- `SATAReconstructor.DEVICE_TO_HOST`. -/
def deviceToHost : Nat := 1

/-- `NCQCommandType.ReadFPDMAQueued`. -/
def readFPDMAQueued : Nat := 0x60

/-- `NCQCommandType.WriteFPDMAQueued`. -/
def writeFPDMAQueued : Nat := 0x61

/-- `NCQCommandType.NCQQueueManagement`. -/
def ncqQueueManagement : Nat := 0x63

/-- `G.SATA_OP.DIRECTION.READ`. -/
def directionRead : Nat := 0x00

/-- `G.SATA_OP.DIRECTION.WRITE`. -/
def directionWrite : Nat := 0x01

/-- Register FIS, host to device (0x27). -/
structure RegisterHtoD where
  features : Nat := 0
  command : Nat := 0
  C : Nat := 0
  pmPort : Nat := 0
  fisType : Nat := 0x27
  device : Nat := 0
  lba : Nat := 0
  control : Nat := 0
  icc : Nat := 0
  count : Nat := 0
  tag : Nat := 0
  reserved : Nat := 0
  deriving DecidableEq, Repr

/-- Register FIS, device to host (0x34). -/
structure RegisterDtoH where
  error : Nat := 0
  status : Nat := 0
  interrupt : Nat := 0
  pmPort : Nat := 0
  fisType : Nat := 0x34
  device : Nat := 0
  lba : Nat := 0
  count : Nat := 0
  reserved0 : Nat := 0
  reserved1 : Nat := 0
  reserved2 : Nat := 0
  deriving DecidableEq, Repr

/-- DMA Setup FIS (0x41). -/
structure DmaSetup where
  autoActivate : Nat := 0
  interrupt : Nat := 0
  directionBit : Nat := 0
  pmPort : Nat := 0
  fisType : Nat := 0x41
  dmaBufIdentifierLow : Nat := 0
  dmaBufIdentifierHigh : Nat := 0
  dmaBufOffset : Nat := 0
  transferCount : Nat := 0
  reserved0 : Nat := 0
  reserved1 : Nat := 0
  deriving DecidableEq, Repr

/-- PIO Setup FIS (0x5f). -/
structure PioSetup where
  error : Nat := 0
  status : Nat := 0
  directionBit : Nat := 0
  pmPort : Nat := 0
  fisType : Nat := 0x5f
  device : Nat := 0
  lba : Nat := 0
  count : Nat := 0
  transferCount : Nat := 0
  deriving DecidableEq, Repr

/-- DMA Activate FIS (0x39). -/
structure DmaActivate where
  pmPort : Nat := 0
  reserved : Nat := 0
  deriving DecidableEq, Repr

/-- Set Device Bits FIS (0xa1). -/
structure SetDeviceBits where
  error : Nat := 0
  statusHi : Nat := 0
  statusLo : Nat := 0
  notification : Nat := 0
  interrupt : Nat := 0
  pmPort : Nat := 0
  proto : Nat := 0
  deriving DecidableEq, Repr

/-- A header by its `type` entry (`FrameType`). -/
inductive Fis where
  | registerHtoD (r : RegisterHtoD)
  | registerDtoH (r : RegisterDtoH)
  | dmaActivate (a : DmaActivate)
  | dmaSetup (d : DmaSetup)
  | data
  | bistActivate
  | pioSetup (p : PioSetup)
  | setDeviceBits (b : SetDeviceBits)
  deriving DecidableEq, Repr

/-- A header and its payload without the sensor's sequence number: all that
decides how a frame is handled. -/
structure Content (β : Type) where
  direction : Nat
  fis : Fis
  sataData : List β := []
  deriving DecidableEq, Repr

/-- `PhysicalPacket`: the decoded header with the sensor's sequence number,
and the payload. -/
structure PhysicalPacket (β : Type) extends Content β where
  lophiSeqn : Nat
  deriving DecidableEq, Repr

/-! ## Disk sensor packets -/

/-- `DiskSensorPacket`. `direction` is no field of its `STRUCT`: the non-NCQ
path adds that attribute when it completes a packet. -/
structure DiskSensorPacket (β : Type) where
  sector : Nat
  numSectors : Nat
  diskOperation : Nat
  size : Nat
  data : List β
  direction : Option Nat := none
  deriving DecidableEq, Repr

/-- The four values fit the formats `Q`, `I`, `I`, `I` of
`DiskSensorPacket.STRUCT`, so that assigning them does not raise. -/
def Packs (sector numSectors diskOperation size : Nat) : Prop :=
  sector < 2 ^ 64 ∧ numSectors < 2 ^ 32 ∧ diskOperation < 2 ^ 32 ∧ size < 2 ^ 32

instance (a b c d : Nat) : Decidable (Packs a b c d) :=
  inferInstanceAs (Decidable (_ ∧ _ ∧ _ ∧ _))

/-- A new `DiskSensorPacket` with its four fields assigned and empty data.
Each assignment packs the field at once and raises if the value does not fit. -/
def newDiskSensorPacket {β : Type} (sector numSectors diskOperation size : Nat) :
    Except PyError (DiskSensorPacket β) :=
  if Packs sector numSectors diskOperation size then
    .ok { sector, numSectors, diskOperation, size, data := [] }
  else .error .structError

/-- The bytes of a data frame without its four checksum bytes, `sata_data[:-4]`. -/
def payload {β : Type} (sataData : List β) : List β := dropEnd 4 sataData

/-! ## Packets of the sensor -/

/-- `G.SENSOR_DISK.OP.SATA_FRAME`. -/
def sataFrame : Nat := 0x80

/-- `LOPHIPacket`: of its header only the operation is read. A packet without data
has `data` unset, which is read like data that is too short. -/
structure LOPHIPacket where
  opCode : Nat
  data : List UInt8 := []
  deriving DecidableEq, Repr

/-- `SATAFrame`: the LO-PHI word, then the frame. -/
structure SATAFrame where
  seqnNum : Nat
  direction : Nat
  data : List UInt8
  deriving DecidableEq, Repr

/-- The raw bytes of a `SATAFrame`, what `DiskEngine.run` hands on. -/
def SATAFrame.repr (f : SATAFrame) : List UInt8 :=
  beBytes 2 f.seqnNum ++ beBytes 2 f.direction ++ f.data

/-- `SATAFrame(data)`. Data too short for the LO-PHI word leaves every field
unset. -/
def SATAFrame.parse (data : List UInt8) : Option SATAFrame :=
  if data.length < 4 then none
  else some ⟨beNat (data.take 2), beNat ((data.drop 2).take 2), data.drop 4⟩

/-- The sequence number of a packet that carries a SATA frame. -/
def LOPHIPacket.seqnNum (p : LOPHIPacket) : Option Nat :=
  (SATAFrame.parse p.data).map SATAFrame.seqnNum

end LoPhi.Sata.Frame
