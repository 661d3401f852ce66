import LoPhi.Lib.Effect
import LoPhi.Ntfs.Volume

/-! # The engine of an NTFS volume

`SEV_NTFS_Sparse` keeps a working image of the volume, the file system `pytsk3` finds
on it, and what it knows about sectors and files. A write to the disk goes through
`get_access`: if it touches records of the `$MFT` it is applied to the image, the file
system is opened again, and the records are loaded again. What a write makes of the
paths when it is reported (`_diff_metadata`, `_get_path`) rests on a record parser that
is not part of the program, and comes from outside here. -/

namespace LoPhi.Ntfs.Engine
open LoPhi.Lib.Effect LoPhi.Ntfs.Volume

/-- The exceptions: `IOError` of `pytsk3`, and a subscript out of range. -/
inductive NtfsError where
  | ioError
  | indexError
  deriving DecidableEq, Repr

/-- The entries of `error_log`. -/
inductive LogEntry where
  | datarunOutOfBounds (inode : Nat) (run : Run)
  | datarunCollision (filename1 : String) (inode1 : Nat) (filename2 : String) (inode2 : Nat)
      (blockAddr : Nat)
  deriving DecidableEq, Repr

/-- `SEV_NTFS_Sparse`. The dictionaries are `fs_sector_to_inode`, `fs_inode_to_path` and
`fs_inode_to_sector_resident`. `loads` is a history: the records that were loaded, the
latest first, with the runs they had. -/
structure SevNtfsSparse where
  img : Nat → UInt8
  fileSystem : FileSystem
  sectorToInode : Nat → Option Nat := fun _ => none
  inodeToPath : Nat → Option String := fun _ => none
  sectorResident : Nat → Option Nat := fun _ => none
  rootInum : Nat := 0
  lastInum : Nat := 0
  mftRaw : Option (List UInt8) := none
  oldMftRaw : Option (List UInt8) := none
  errorLog : List LogEntry := []
  loads : List (Nat × List Run) := []

/-- An access of direction `WRITE`. -/
structure Write where
  sector : Nat
  sectorCount : Nat
  data : List UInt8
  deriving DecidableEq, Repr

/-- What comes from outside: `pytsk3.FS_Info` of an image, the order in which a dictionary
with given keys is iterated, and the paths after a write was reported. -/
structure Outside where
  fsInfo : (Nat → UInt8) → Option FileSystem
  order : List Nat → List Nat
  renamed : Write → SevNtfsSparse → Nat → Option String

/-- The creation or deletion of a file, as `get_access` reports it. -/
inductive OpType where
  | fileCreated
  | fileDeleted
  deriving DecidableEq, Repr

structure FsOperation where
  sector : Nat
  opType : OpType
  inode : Nat
  filename : String
  deriving DecidableEq, Repr

/-- A method of the engine. -/
abbrev Method := Prog NtfsError SevNtfsSparse

/-! ## Paths -/

/-- `os.path.join`. -/
def join (parent name : String) : String :=
  if name.startsWith "/" then name
  else if parent = "" ∨ parent.endsWith "/" then parent ++ name
  else parent ++ "/" ++ name

mutual

/-- `_parse_paths` of one entry. -/
def parseEntry (parentPath : String) (paths : Nat → Option String) :
    DirEntry → Nat → Option String
  | .mk name record isDir children =>
    if name = "." ∨ name = ".." then paths
    else
      match record with
      | none => paths
      | some inode =>
        let paths := fun k => if k = inode then some (join parentPath name) else paths k
        if isDir then parseEntries (join parentPath name) paths children else paths

def parseEntries (parentPath : String) (paths : Nat → Option String) :
    List DirEntry → Nat → Option String
  | [] => paths
  | entry :: entries => parseEntries parentPath (parseEntry parentPath paths entry) entries

end

/-- Opens the root directory and collects the paths below it. -/
def parsePaths : Method Unit := do
  let e ← get
  let rootDir ← orRaise .ioError (e.fileSystem.openDir e.rootInum)
  modify fun e =>
    let paths := fun k => if k = e.rootInum then some "/" else e.inodeToPath k
    { e with inodeToPath := parseEntries "/" paths rootDir }

/-! ## Runs -/

section Methods
variable (g : Geometry)

/-- The check of `_add_run` and `_remove_run`. -/
def outOfBounds (run : Run) : Prop :=
  g.blockCount < run.length ∨ g.blockCount < run.addr + run.length

instance (run : Run) : Decidable (outOfBounds g run) :=
  inferInstanceAs (Decidable (_ ∨ _))

/-- `f1_name != "" and f1_name[1] != '$' and f2_name != "" and f2_name[1] != '$'`. -/
def plainNames (f1Name f2Name : String) : Except NtfsError Bool :=
  if f1Name = "" then .ok false
  else
    match f1Name.toList[1]? with
    | none => .error .indexError
    | some '$' => .ok false
    | some _ =>
      if f2Name = "" then .ok false
      else
        match f2Name.toList[1]? with
        | none => .error .indexError
        | some c => .ok (c ≠ '$')

/-- The body of the loops of `_add_run`. -/
def addSector (inode block sector : Nat) : Method Unit := fun e =>
  let own : SevNtfsSparse :=
    { e with sectorToInode := fun s => if s = sector then some inode else e.sectorToInode s }
  match e.sectorToInode sector with
  | none => (.ok (), own)
  | some inode2 =>
    let f1Name := (e.inodeToPath inode).getD ""
    let f2Name := (e.inodeToPath inode2).getD ""
    if inode = inode2 then (.ok (), own)
    else
      match plainNames f1Name f2Name with
      | .error err => (.error err, e)
      | .ok false => (.ok (), own)
      | .ok true =>
        (.ok (), { e with
          errorLog := e.errorLog ++ [.datarunCollision f1Name inode f2Name inode2 block] })

/-- `_add_run`. -/
def addRun (inode : Nat) (run : Run) : Method Unit :=
  if outOfBounds g run then
    modify fun e => { e with errorLog := e.errorLog ++ [.datarunOutOfBounds inode run] }
  else
    (List.range run.length).forM fun i =>
      (blockToSectors g (run.addr + i)).forM (addSector inode (run.addr + i))

/-- `_remove_run`. -/
def removeRun (inode : Nat) (run : Run) : Method Unit :=
  if outOfBounds g run then
    modify fun e => { e with errorLog := e.errorLog ++ [.datarunOutOfBounds inode run] }
  else
    modify fun e => { e with
      sectorToInode := fun s => if s ∈ runSectors g run then none else e.sectorToInode s }

/-! ## Records -/

/-- `_mft_record_to_sectors`, with its effect on the resident attributes. -/
def mftRecordToSectors (recordNo : Nat) : Method (List Nat) := fun e =>
  match mftDataruns e.fileSystem with
  | none => (.error .ioError, e)
  | some runs =>
    match recordStart g runs (recordNo * 1024) with
    | none => (.ok [], e)
    | some sectorStart =>
      (.ok (List.range' sectorStart (1024 / g.sectorSize)),
        if e.sectorToInode sectorStart = some 0 then
          { e with sectorResident := fun s =>
              if s = sectorStart + 1024 / g.sectorSize then some recordNo
              else if s = sectorStart then some recordNo
              else e.sectorResident s }
        else e)

/-- `_clean_file_entry`. -/
def cleanFileEntry (inode : Nat) : Method Unit := do
  let e ← get
  let f ← orRaise .ioError (e.fileSystem.openMeta inode)
  f.runs.forM (removeRun g inode)

/-- The loops of `_load_file_entry` over the runs of the record. Sparse runs have the
address 0, which only the run of `$Boot` really has. -/
def loadRuns (inode : Nat) (f : File) : Method Unit := do
  modify fun e => { e with loads := (inode, f.runs) :: e.loads }
  f.runs.forM fun run =>
    if run.addr ≠ 0 ∨ f.name = some "$Boot" then addRun g inode run else pure ()

/-- `_load_file_entry`. -/
def loadFileEntry (inode : Nat) : Method Unit := do
  let _ ← mftRecordToSectors g inode
  let e ← get
  let f ← orRaise .ioError (e.fileSystem.openMeta inode)
  loadRuns g inode f

/-- `_reload_file_entry`. -/
def reloadFileEntry (inode : Nat) : Method Unit := do
  cleanFileEntry g inode
  loadFileEntry g inode

/-- `_load_file_system`. -/
def loadFileSystem : Method Unit := do
  parsePaths
  let e ← get
  (List.range (e.fileSystem.lastInum + 1)).forM (loadFileEntry g)

/-! ## Writes -/

variable (o : Outside)

/-- `IMG.write`. -/
def writeImage (img : Nat → UInt8) (off : Nat) (data : List UInt8) (x : Nat) : UInt8 :=
  if off ≤ x then data.getD (x - off) (img x) else img x

/-- The file system is opened again on the image, and the `$MFT` is copied. -/
def reopenFileSystem : Method Unit := do
  let e ← get
  let fs ← orRaise .ioError (o.fsInfo e.img)
  modify fun e => { e with fileSystem := fs }
  let mftFile ← orRaise .ioError (fs.openMeta 0)
  let raw ← orRaise .ioError mftFile.content
  modify fun e => { e with mftRaw := some raw }

/-- `_update_file_system`, and the copies of the `$MFT` around it. -/
def updateFileSystem (w : Write) : Method Unit := do
  modify fun e => { e with
    oldMftRaw := e.mftRaw
    img := writeImage e.img (w.sector * g.sectorSize) w.data }
  reopenFileSystem o

/-- `updated_mft_entries`: the records and how they were before the write, if they were. -/
abbrev Entries := List (Nat × Option File)

/-- `updated_mft_entries[inode] = f`. -/
def setEntry (entries : Entries) (inode : Nat) (f : Option File) : Entries :=
  if entries.any (·.1 = inode) then
    entries.map fun entry => if entry.1 = inode then (inode, f) else entry
  else entries ++ [(inode, f)]

/-- The records of a write that can be opened. The others are logged and left out. -/
def openEntries (fs : FileSystem) (inodes : List Nat) : Entries :=
  inodes.filterMap fun inode => (fs.openMeta inode).map fun f => (inode, some f)

/-- The loop over the records that are new in the file system, `n` of them. -/
def loadNew : Nat → Entries → Method Entries
  | 0, entries => pure entries
  | n + 1, entries => do
    modify fun e => { e with lastInum := e.lastInum + 1 }
    let e ← get
    loadFileEntry g e.lastInum
    loadNew n (setEntry entries e.lastInum none)

/-- The report of a creation or deletion. -/
def report (opType : OpType) (recordNo : Nat) : Method (List FsOperation) := do
  let sectors ← mftRecordToSectors g recordNo
  let e ← get
  let sector ← orRaise .indexError sectors.head?
  pure [⟨sector, opType, recordNo, (e.inodeToPath recordNo).getD "unknown"⟩]

/-- `TSK_FS_META_FLAG_ALLOC` and `TSK_FS_META_FLAG_UNALLOC`. -/
def flagAlloc : Nat := 1

def flagUnalloc : Nat := 2

/-- The comparison of the flags before and after the write. -/
def reportChange (oldF newF : File) (recordNo : Nat) : Method (List FsOperation) :=
  if oldF.flags &&& flagAlloc = 0 ∧ newF.flags &&& flagAlloc ≠ 0 then
    report g .fileCreated recordNo
  else if oldF.flags &&& flagUnalloc = 0 ∧ newF.flags &&& flagUnalloc ≠ 0 then
    report g .fileDeleted recordNo
  else pure []

/-- The loop over `updated_mft_entries`. It ends at the first record that was not there
before the write. -/
def reloadEntries (entries : Entries) : List Nat → Method (List FsOperation)
  | [] => pure []
  | recordNo :: rest => do
    reloadFileEntry g recordNo
    let e ← get
    let newF ← orRaise .ioError (e.fileSystem.openMeta recordNo)
    match entries.lookup recordNo with
    | some (some oldF) =>
      let operations ← reportChange g oldF newF recordNo
      let more ← reloadEntries entries rest
      pure (operations ++ more)
    | _ => pure []

/-- The records a write touches that can be opened, in the current file system. -/
def touchedEntries (w : Write) : Method Entries := do
  let e ← get
  let runs ← orRaise .ioError (mftDataruns e.fileSystem)
  pure (openEntries e.fileSystem
    (getRecordsFromSectors g runs (List.range' w.sector w.sectorCount)))

/-- The directories are walked again when there are new records. -/
def parseNewPaths : Method Unit := do
  let e ← get
  if e.lastInum < e.fileSystem.lastInum then parsePaths else pure ()

/-- The part of `get_access` after the file system was opened again: the new records are
loaded, and those the write touched are loaded again. -/
def refresh (w : Write) (entries : Entries) : Method (List FsOperation) := do
  parseNewPaths
  let e ← get
  let entries ← loadNew g (e.fileSystem.lastInum - e.lastInum) entries
  modify fun e => { e with lastInum := e.fileSystem.lastInum }
  let e ← get
  let runs ← orRaise .ioError (mftDataruns e.fileSystem)
  let newInodes := getRecordsFromSectors g runs (List.range' w.sector w.sectorCount)
  let entries := newInodes.foldl (fun entries inode =>
    if entries.any (·.1 = inode) then entries else setEntry entries inode none) entries
  reloadEntries g entries (o.order (entries.map Prod.fst))

/-- A write that touches no record is not applied to the image. -/
def updateIfTouched (w : Write) (entries : Entries) : Method Unit :=
  if entries = [] then pure () else updateFileSystem g o w

/-- What `get_access` does to its shadow structures for a write. -/
def applyWrite (w : Write) : Method (List FsOperation) := do
  let entries ← touchedEntries g w
  modify fun e => { e with lastInum := e.fileSystem.lastInum }
  updateIfTouched g o w entries
  refresh g o w entries

/-- `get_access` of direction `WRITE`: the engine after it, whether or not it raised. -/
def getAccess (w : Write) (e : SevNtfsSparse) : SevNtfsSparse :=
  let e := (applyWrite g o w e).2
  { e with inodeToPath := o.renamed w e }

/-- The engine after `__init__` on an image, if its file system can be opened. An exception
while the records are loaded ends the program; the state it would leave is included. -/
def start (img : Nat → UInt8) : Option SevNtfsSparse :=
  (o.fsInfo img).map fun fs =>
    (loadFileSystem g
      { img := img, fileSystem := fs, rootInum := fs.rootInum, lastInum := fs.lastInum }).2

/-- The engine after a sequence of writes. -/
def writes (e : SevNtfsSparse) : List Write → SevNtfsSparse
  | [] => e
  | w :: ws => writes (getAccess g o w e) ws

end Methods

end LoPhi.Ntfs.Engine
