import Mathlib.Algebra.Order.Ring.Nat
import Mathlib.Data.List.Sort

/-! # The geometry of an NTFS volume

Files lie in runs of blocks, a block in sectors, and the records of the `$MFT` file
one after the other in the runs of that file. What a file system says about its
files comes from outside (`pytsk3`). -/

namespace LoPhi.Ntfs.Volume

/-- The sizes `SEV_NTFS_Sparse` works with. `VOLUME_OFFSET` is in sectors. The last field
is the assertion of `_block_to_sectors`. -/
structure Geometry where
  sectorSize : Nat
  blockSize : Nat
  volumeOffset : Nat
  blockCount : Nat
  sector_pos : 0 < sectorSize
  sector_le_block : sectorSize ≤ blockSize

/-- A data run: its length and its address, both in blocks. -/
structure Run where
  length : Nat
  addr : Nat
  deriving DecidableEq, Repr

/-- An attribute of a file. `isData` is whether its type is `TSK_FS_ATTR_TYPE_NTFS_DATA`. -/
structure Attribute where
  isData : Bool
  runs : List Run
  deriving DecidableEq, Repr

/-- What `open_meta` gives: the attributes, the name if there is one, the flags of the
record, and what `read_random` of all of it gives. -/
structure File where
  attributes : List Attribute
  name : Option String := none
  flags : Nat := 0
  content : Option (List UInt8) := none
  deriving DecidableEq, Repr

/-- All runs of a file. -/
def File.runs (f : File) : List Run := f.attributes.flatMap Attribute.runs

/-- An entry of a directory: its name, its record if it has one, and, for a directory,
what is in it. -/
inductive DirEntry where
  | mk (name : String) (record : Option Nat) (isDir : Bool) (children : List DirEntry)

/-- A file system object of `pytsk3`. Opening a file or a directory may raise `IOError`. -/
structure FileSystem where
  lastInum : Nat
  rootInum : Nat
  openMeta : Nat → Option File
  openDir : Nat → Option (List DirEntry)

/-- `MFT_ENTRY_SIZE`. -/
def mftEntrySize : Nat := 1024

section Sectors
variable (g : Geometry)

/-- The first sector of a block. -/
def blockStart (block : Nat) : Nat :=
  (g.volumeOffset * g.sectorSize + block * g.blockSize) / g.sectorSize

/-- `_block_to_sectors`. -/
def blockToSectors (block : Nat) : List Nat :=
  List.range' (blockStart g block) (g.blockSize / g.sectorSize)

/-- `_sector_to_block`. The division rounds down, also for a sector before the volume. -/
def sectorToBlock (sector : Nat) : Int :=
  ((sector : Int) - g.volumeOffset) * g.sectorSize / g.blockSize

/-- The sectors of a run, block by block. -/
def runSectors (run : Run) : List Nat :=
  (List.range run.length).flatMap fun i => blockToSectors g (run.addr + i)

/-- `_mft_dataruns`: the runs of the `$MFT` file by address. Python's sort is stable, and
so is this one. -/
def mftDataruns (fs : FileSystem) : Option (List Run) :=
  (fs.openMeta 0).map fun mft =>
    ((mft.attributes.filter Attribute.isData).flatMap Attribute.runs).insertionSort
      fun a b => a.addr ≤ b.addr

/-- The loop of `_mft_record_to_sectors`: the first sector of the record `bytesLeft` bytes
into the runs. `sectors[0]` is the first sector of the block. -/
def recordStart : List Run → Nat → Option Nat
  | [], _ => none
  | run :: runs, bytesLeft =>
    if bytesLeft < run.length * g.blockSize then
      some (blockStart g (run.addr + bytesLeft / g.blockSize) +
        bytesLeft % g.blockSize / g.sectorSize)
    else recordStart runs (bytesLeft - run.length * g.blockSize)

/-- What `_mft_record_to_sectors` returns. -/
def recordSectors (runs : List Run) (recordNo : Nat) : List Nat :=
  match recordStart g runs (recordNo * 1024) with
  | none => []
  | some sectorStart => List.range' sectorStart (1024 / g.sectorSize)

/-- `sector_end` of a run in `_get_records_from_sectors`: the sector after its last. -/
def runEnd (run : Run) : Nat :=
  blockStart g run.addr + run.length * g.blockSize / g.sectorSize

/-- The loop over the given sectors: the records of one run that are not in the list yet. -/
def addRecords (inodeStart : Nat) (run : Run) : List Nat → List Nat → List Nat
  | [], inodes => inodes
  | sector :: sectors, inodes =>
    if blockStart g run.addr ≤ sector ∧ sector ≤ runEnd g run then
      let recordNum := inodeStart + (sector - blockStart g run.addr) * g.sectorSize / mftEntrySize
      addRecords inodeStart run sectors
        (if recordNum ∈ inodes then inodes else inodes ++ [recordNum])
    else addRecords inodeStart run sectors inodes

/-- The loop over the runs of `_get_records_from_sectors`. -/
def recordsFrom (sectors : List Nat) : List Run → Nat → List Nat → List Nat
  | [], _, inodes => inodes
  | run :: runs, inodeStart, inodes =>
    recordsFrom sectors runs
      (inodeStart + (runEnd g run - blockStart g run.addr) * g.sectorSize / mftEntrySize)
      (addRecords g inodeStart run sectors inodes)

/-- `_get_records_from_sectors`. -/
def getRecordsFromSectors (runs : List Run) (sectors : List Nat) : List Nat :=
  recordsFrom g sectors runs 0 []

end Sectors

/-- With blocks of whole sectors, a block starts where the blocks before it end. -/
theorem blockStart_of_dvd {g : Geometry} (hdvd : g.sectorSize ∣ g.blockSize) (block : Nat) :
    blockStart g block = g.volumeOffset + block * (g.blockSize / g.sectorSize) := by
  unfold blockStart
  rw [Nat.add_comm, Nat.add_mul_div_right _ _ g.sector_pos, Nat.mul_div_assoc _ hdvd,
    Nat.add_comm]

/-! ## Two volumes -/

/-- A volume that begins at sector 63, with blocks of eight sectors. -/
def smallVolume : Geometry where
  sectorSize := 512
  blockSize := 4096
  volumeOffset := 63
  blockCount := 64
  sector_pos := by decide
  sector_le_block := by decide

/-- Blocks of two sectors, from the beginning of the disk. -/
def tinyVolume : Geometry where
  sectorSize := 512
  blockSize := 1024
  volumeOffset := 0
  blockCount := 16
  sector_pos := by decide
  sector_le_block := by decide

end LoPhi.Ntfs.Volume
