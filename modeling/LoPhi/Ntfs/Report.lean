import LoPhi.Ntfs.Events
import LoPhi.Ntfs.Paths

/-! # What `get_access` reports

Every access gives a list of operations. Those of a write begin with the files that were created
or deleted; then there is one operation for each sector, with the bytes of that sector. Where a
sector is the `$MFT`'s, the metadata of the records of the write is compared with what it was, and
that finds their paths in the new and in the old `$MFT`. -/

namespace LoPhi.Ntfs.Report
open LoPhi.Lib.Effect LoPhi.Ntfs.Volume LoPhi.Ntfs.Engine LoPhi.Ntfs.Events LoPhi.Ntfs.Paths

/-! ## Operations -/

/-- `op_type`: `[FILE CREATED]`, `[FILE DELETED]`, `[MFT WRITE]` and so on. -/
inductive OperationType where
  | fileCreated
  | fileDeleted
  | mftWrite
  | mbrWrite
  | contentWrite
  | unknownWrite
  | mbrRead
  | mftRead
  | contentRead
  | unknownRead
  deriving DecidableEq, Repr

/-- What `inode` has: the number of a record, or a text where no record is known. -/
inductive InodeField where
  | record (inode : Nat)
  | label (text : String)
  deriving DecidableEq, Repr

/-- A value of the metadata: a number, or a path where one was found. -/
inductive MetaValue where
  | number (n : Nat)
  | filename (path : Option String)
  deriving DecidableEq, Repr

/-- A key of the metadata that has changed. -/
structure MetaChange where
  key : String
  new : MetaValue
  old : MetaValue
  deriving DecidableEq, Repr

/-- What `_diff_metadata` returns. For a record that was not there before, the metadata is also in
the dictionary itself (`topLevel`). -/
structure MetaDiff where
  inode : Nat
  filename : Option String
  metaData : List (String × MetaValue)
  changes : List MetaChange := []
  topLevel : List (String × MetaValue) := []
  deriving DecidableEq, Repr

/-- `_fs_operation`. -/
structure Operation where
  sector : Nat
  isWrite : Bool
  opType : OperationType
  inode : InodeField
  filename : String
  rawData : List UInt8
  semanticData : List MetaDiff := []
  deriving DecidableEq, Repr

/-- The exceptions of the engine, and those of the path resolution. -/
inductive AccessError where
  | engine (e : NtfsError)
  | path (e : PathError)
  deriving DecidableEq, Repr

abbrev AccessMethod := Prog AccessError SevNtfsSparse

/-- A method of the engine. -/
def ofMethod {α : Type} (m : Method α) : AccessMethod α := fun e =>
  ((m e).1.mapError .engine, (m e).2)

/-- A method that works on the paths only. -/
def onPaths {α : Type} (m : Prog PathError PathMap α) : AccessMethod α := fun e =>
  ((m e.inodeToPath).1.mapError .path, { e with inodeToPath := (m e.inodeToPath).2 })

/-- What comes from outside: the record parser, how deep calls can be nested, and the values
`info.meta` has for a file. -/
structure Interpreter where
  parseRecord : List UInt8 → MftRecord
  limit : Nat
  info : File → String → Nat

/-- An access to the disk. Everything that is not a write is a read. -/
structure Access where
  isWrite : Bool
  sector : Nat
  sectorCount : Nat
  data : List UInt8
  deriving DecidableEq, Repr

section Methods
variable (g : Geometry) (o : Outside) (py : Interpreter)

/-! ## Metadata -/

/-- `TSK_FS_META_FLAG_USED`, `_UNUSED`, `_COMP` and `_ORPHAN`. -/
def flagUsed : Nat := 4

def flagUnused : Nat := 8

def flagComp : Nat := 16

def flagOrphan : Nat := 32

/-- The fields of `info.meta` that are copied as they are. -/
def metaFields : List String :=
  ["size", "uid", "gid", "mtime", "mtime_nano", "atime", "atime_nano", "ctime", "ctime_nano",
    "crtime", "crtime_nano", "content_len", "seq"]

/-- `semantic_data_new` and `semantic_data_old`. -/
def semanticData (filename : Option String) (f : File) : List (String × MetaValue) :=
  [("filename", .filename filename),
    ("flags", .number f.flags),
    ("flag_alloc", .number (f.flags &&& flagAlloc)),
    ("flag_comp", .number ((f.flags &&& flagComp) >>> 4)),
    ("flag_orphan", .number ((f.flags &&& flagOrphan) >>> 5)),
    ("flag_unalloc", .number ((f.flags &&& flagUnalloc) >>> 1)),
    ("flag_unused", .number ((f.flags &&& flagUnused) >>> 3)),
    ("flag_used", .number ((f.flags &&& flagUsed) >>> 2))] ++
  metaFields.map fun field => (field, .number (py.info f field))

/-- The keys with different values. An old path that was not found does not count. -/
def changedKeys (newData oldData : List (String × MetaValue)) : List MetaChange :=
  newData.filterMap fun item =>
    match oldData.lookup item.1 with
    | none => none
    | some old =>
      if item.2 ≠ old ∧ old ≠ .filename none then some ⟨item.1, item.2, old⟩ else none

/-- `_get_path` in one of the two copies of the `$MFT`. -/
def pathIn (raw : SevNtfsSparse → Option (List UInt8)) (inode : Nat) :
    AccessMethod (Option String) := fun e =>
  onPaths (getPath (sparsePlace py.parseRecord (raw e)) py.limit inode) e

/-- `_diff_metadata`. -/
def diffMetadata (oldFile : Option File) (newFile : File) (inode : Nat) :
    AccessMethod MetaDiff := do
  let mftFilename ← pathIn py SevNtfsSparse.mftRaw inode
  let newData := semanticData py mftFilename newFile
  match oldFile with
  | some oldF => do
    let oldMftFilename ← pathIn py SevNtfsSparse.oldMftRaw inode
    let oldData := semanticData py oldMftFilename oldF
    pure { inode := inode, filename := mftFilename, metaData := newData,
           changes := changedKeys newData oldData }
  | none => pure { inode := inode, filename := mftFilename, metaData := newData,
                   topLevel := newData }

/-! ## One operation for each sector -/

/-- `data[i*self.SECTOR_SIZE:(i+1)*self.SECTOR_SIZE]`. -/
def sectorData (data : List UInt8) (i : Nat) : List UInt8 :=
  (data.drop (i * g.sectorSize)).take g.sectorSize

/-- The file name with the one of the record that lies in the sector, if both are known. -/
def residentName (e : SevNtfsSparse) (sector : Nat) (filename between : String) : String :=
  match (e.sectorResident sector).bind e.inodeToPath with
  | some resFilename => filename ++ between ++ resFilename
  | none => filename

/-- The difference of one record of `updated_mft_entries`. -/
def diffEntry (entries : Entries) (recordNo : Nat) : AccessMethod MetaDiff := do
  let e ← get
  let newF ← orRaise (.engine .ioError) (e.fileSystem.openMeta recordNo)
  diffMetadata py ((entries.lookup recordNo).getD none) newF recordNo

/-- The name of a file: its path, or else what the file system says. -/
def writtenName (inode : Nat) : AccessMethod String := do
  let e ← get
  match e.inodeToPath inode with
  | some path => pure path
  | none => do
    let f ← orRaise (.engine .ioError) (e.fileSystem.openMeta inode)
    pure (f.name.getD "unknown")

/-- A written sector of a known record. -/
def knownWrite (entries : Entries) (a : Access) (i inode : Nat) : AccessMethod Operation := do
  let filename ← writtenName inode
  if inode = 0 then do
    let diffs ← collect (diffEntry py entries) (o.order (entries.map Prod.fst))
    let e ← get
    pure { sector := a.sector + i, isWrite := true, opType := .mftWrite, inode := .record inode,
           filename := residentName e (a.sector + i) filename " entry for ",
           rawData := sectorData g a.data i, semanticData := diffs }
  else
    pure { sector := a.sector + i, isWrite := true,
           opType := if a.sector + i = 1 ∨ a.sector + i = 0 then .mbrWrite else .contentWrite,
           inode := .record inode, filename := filename, rawData := sectorData g a.data i }

/-- The loop body over the sectors of a write. -/
def writtenSector (entries : Entries) (a : Access) (i : Nat) : AccessMethod Operation := do
  let e ← get
  match e.sectorToInode (a.sector + i) with
  | some inode => knownWrite g o py entries a i inode
  | none =>
    pure { sector := a.sector + i, isWrite := true, opType := .unknownWrite,
           inode := .label "[unknown inode]", filename := "unknown",
           rawData := sectorData g a.data i }

/-- The loop body over the sectors of a read. -/
def readSector (e : SevNtfsSparse) (a : Access) (i : Nat) : Operation :=
  match e.sectorToInode (a.sector + i) with
  | none =>
    { sector := a.sector + i, isWrite := false, opType := .unknownRead, inode := .label "unknown",
      filename := "unknown", rawData := sectorData g a.data i }
  | some inode =>
    let filename := (e.inodeToPath inode).getD "unknown"
    if a.sector + i = 1 then
      { sector := a.sector + i, isWrite := false, opType := .mbrRead, inode := .record inode,
        filename := filename, rawData := sectorData g a.data i }
    else if inode = 0 then
      { sector := a.sector + i, isWrite := false, opType := .mftRead, inode := .record inode,
        filename := residentName e (a.sector + i) filename "entry for ",
        rawData := sectorData g a.data i }
    else
      { sector := a.sector + i, isWrite := false, opType := .contentRead, inode := .record inode,
        filename := filename, rawData := sectorData g a.data i }

/-! ## Accesses -/

/-- The report of a created or deleted file as an operation. -/
def ofChange (change : FsOperation) : Operation where
  sector := change.sector
  isWrite := true
  opType :=
    match change.opType with
    | .fileCreated => .fileCreated
    | .fileDeleted => .fileDeleted
  inode := .record change.inode
  filename := change.filename
  rawData := []

def Access.write (a : Access) : Write := ⟨a.sector, a.sectorCount, a.data⟩

/-- `get_access`. -/
def getAccess (a : Access) : AccessMethod (List Operation) :=
  if a.isWrite then do
    let entries ← ofMethod (updatedMftEntries g o a.write)
    let changes ← ofMethod (reloadEntries g entries (o.order (entries.map Prod.fst)))
    let written ← collect (writtenSector g o py entries a) (List.range a.sectorCount)
    pure (changes.map ofChange ++ written)
  else do
    let e ← get
    pure ((List.range a.sectorCount).map (readSector g e a))

end Methods

/-! ## Every sector has its operation -/

variable {g : Geometry} {o : Outside} {py : Interpreter} {a : Access} {e e' : SevNtfsSparse}
variable {operations : List Operation}

/-- The operation is for the sector of the access with this number, with its bytes. -/
def ForSector (g : Geometry) (a : Access) (i : Nat) (operation : Operation) : Prop :=
  operation.sector = a.sector + i ∧ operation.rawData = sectorData g a.data i

theorem knownWrite_forSector {entries : Entries} {i inode : Nat} {operation : Operation}
    (h : knownWrite g o py entries a i inode e = (.ok operation, e')) :
    ForSector g a i operation := by
  obtain ⟨filename, e₁, -, h⟩ := bind_returns h
  by_cases hmft : inode = 0
  · rw [if_pos hmft] at h
    obtain ⟨diffs, e₂, -, h⟩ := bind_returns h
    cases h
    exact ⟨rfl, rfl⟩
  · rw [if_neg hmft] at h
    cases h
    exact ⟨rfl, rfl⟩

theorem writtenSector_forSector {entries : Entries} {i : Nat} {operation : Operation}
    (h : writtenSector g o py entries a i e = (.ok operation, e')) :
    ForSector g a i operation := by
  obtain ⟨e₁, e₂, hget, h⟩ := bind_returns h
  cases hget
  cases howner : e.sectorToInode (a.sector + i) with
  | none =>
    simp only [howner] at h
    cases h
    exact ⟨rfl, rfl⟩
  | some inode =>
    simp only [howner] at h
    exact knownWrite_forSector h

theorem readSector_forSector (g : Geometry) (e : SevNtfsSparse) (a : Access) (i : Nat) :
    ForSector g a i (readSector g e a i) := by
  unfold readSector
  split
  · exact ⟨rfl, rfl⟩
  · dsimp only
    split
    · exact ⟨rfl, rfl⟩
    · split
      · exact ⟨rfl, rfl⟩
      · exact ⟨rfl, rfl⟩

/-- An access is accounted for: its last operations are those of its sectors, in order and with
their bytes; only a write has others, and these are for created and deleted files; and a read leaves
the engine as it is. -/
structure Accounts (g : Geometry) (a : Access) (e : SevNtfsSparse) (operations : List Operation)
    (e' : SevNtfsSparse) : Prop where
  sectors : ∃ changes last, operations = changes ++ last ∧
    last.map Operation.sector = List.range' a.sector a.sectorCount ∧
    last.map Operation.rawData = (List.range a.sectorCount).map (sectorData g a.data) ∧
    ∀ operation ∈ changes, a.isWrite = true ∧ operation.rawData = [] ∧
      (operation.opType = .fileCreated ∨ operation.opType = .fileDeleted)
  read : a.isWrite = false → e' = e

theorem ofChange_opType (change : FsOperation) :
    (ofChange change).opType = .fileCreated ∨ (ofChange change).opType = .fileDeleted := by
  unfold ofChange
  cases change.opType with
  | fileCreated => exact .inl rfl
  | fileDeleted => exact .inr rfl

theorem sectors_of_forSector {count : Nat} {last : List Operation}
    (h : List.Forall₂ (ForSector g a) (List.range count) last) :
    last.map Operation.sector = List.range' a.sector count ∧
      last.map Operation.rawData = (List.range count).map (sectorData g a.data) := by
  have hmaps : ∀ {numbers : List Nat} {last : List Operation},
      List.Forall₂ (ForSector g a) numbers last →
        last.map Operation.sector = numbers.map (a.sector + ·) ∧
          last.map Operation.rawData = numbers.map (sectorData g a.data) := by
    intro numbers last h
    induction h with
    | nil => exact ⟨rfl, rfl⟩
    | cons hhead _ ih =>
      simp only [List.map_cons]
      exact ⟨by rw [hhead.1, ih.1], by rw [hhead.2, ih.2]⟩
  rw [List.range'_eq_map_range]
  exact hmaps h

theorem getAccess_accounts (h : getAccess g o py a e = (.ok operations, e')) :
    Accounts g a e operations e' := by
  unfold getAccess at h
  by_cases hwrite : a.isWrite
  · rw [if_pos hwrite] at h
    obtain ⟨entries, e₁, -, h⟩ := bind_returns h
    obtain ⟨changes, e₂, -, h⟩ := bind_returns h
    obtain ⟨written, e₃, hwritten, h⟩ := bind_returns h
    cases h
    obtain ⟨hsectors, hdata⟩ := sectors_of_forSector
      (collect_returns (P := ForSector g a) (fun i _ _ _ hi => writtenSector_forSector hi) hwritten)
    refine ⟨⟨changes.map ofChange, written, rfl, hsectors, hdata, ?_⟩,
      fun hread => absurd hwrite (by simp [hread])⟩
    intro operation hin
    obtain ⟨change, -, rfl⟩ := List.mem_map.mp hin
    exact ⟨hwrite, rfl, ofChange_opType change⟩
  · rw [if_neg hwrite] at h
    cases h
    obtain ⟨hsectors, hdata⟩ := sectors_of_forSector (g := g) (a := a)
      (List.forall₂_map_right_iff.mpr (List.forall₂_same.mpr fun i _ =>
        readSector_forSector g e a i))
    exact ⟨⟨[], _, rfl, hsectors, hdata, by simp⟩, fun _ => rfl⟩

/-! ## The engine behind the report -/

/-- Only paths change. -/
def OnlyPaths (e e' : SevNtfsSparse) : Prop := e' = { e with inodeToPath := e'.inodeToPath }

theorem composes_onlyPaths : Composes OnlyPaths where
  refl _ := rfl
  trans h h' := by
    unfold OnlyPaths at *
    rw [h', h]

theorem OnlyPaths.fields (h : OnlyPaths e e') :
    e'.mftRaw = e.mftRaw ∧ e'.oldMftRaw = e.oldMftRaw ∧ e'.sectorToInode = e.sectorToInode := by
  unfold OnlyPaths at h
  rw [h]
  exact ⟨rfl, rfl, rfl⟩

theorem writtenSector_onlyPaths (entries : Entries) (i : Nat) :
    Keeps OnlyPaths (writtenSector g o py entries a i) := by
  have hR := composes_onlyPaths
  have hpath : ∀ raw inode, Keeps OnlyPaths (pathIn py raw inode) := fun _ _ _ => rfl
  have hdiff : ∀ oldF newF n, Keeps OnlyPaths (diffMetadata py oldF newF n) := by
    intro oldF newF n
    refine keeps_bind hR (hpath _ _) fun _ => ?_
    cases oldF with
    | none => exact keeps_pure hR _
    | some oldF => exact keeps_bind hR (hpath _ _) fun _ => keeps_pure hR _
  have hname : ∀ inode, Keeps OnlyPaths (writtenName inode) := by
    intro inode
    refine keeps_bind hR (keeps_get hR) fun e => ?_
    split
    · exact keeps_pure hR _
    · exact keeps_bind hR (keeps_orRaise hR _ _) fun _ => keeps_pure hR _
  refine keeps_bind hR (keeps_get hR) fun e => ?_
  split
  · refine keeps_bind hR (hname _) fun filename => ?_
    split
    · refine keeps_bind hR (keeps_collect hR fun n _ => ?_) fun diffs =>
        keeps_bind hR (keeps_get hR) fun _ => keeps_pure hR _
      exact keeps_bind hR (keeps_get hR) fun e =>
        keeps_bind hR (keeps_orRaise hR _ _) fun newF => hdiff _ newF n
    · exact keeps_pure hR _
  · exact keeps_pure hR _

theorem ofMethod_returns {α : Type} {m : Method α} {x : α} (h : ofMethod m e = (.ok x, e')) :
    m e = (.ok x, e') := by
  unfold ofMethod at h
  cases hrun : m e with
  | mk result e₁ =>
    rw [hrun] at h
    cases result with
    | error err => cases h
    | ok y =>
      cases h
      rfl

/-- A write that returns leaves the engine as `applyWrite` does, but for the paths. -/
theorem getAccess_applyWrite (hwrite : a.isWrite = true)
    (h : getAccess g o py a e = (.ok operations, e')) :
    ∃ changes e₁, applyWrite g o a.write e = (.ok changes, e₁) ∧ OnlyPaths e₁ e' := by
  unfold getAccess at h
  rw [if_pos hwrite] at h
  obtain ⟨entries, e₁, hentries, h⟩ := bind_returns h
  obtain ⟨changes, e₂, hchanges, h⟩ := bind_returns h
  obtain ⟨written, e₃, hwritten, h⟩ := bind_returns h
  cases h
  refine ⟨changes, e₂, ?_, ?_⟩
  · rw [applyWrite_loop, bind_ok (ofMethod_returns hentries)]
    exact ofMethod_returns hchanges
  · have hkeeps : OnlyPaths e₂
        (collect (writtenSector g o py entries a) (List.range a.sectorCount) e₂).2 :=
      keeps_collect composes_onlyPaths (fun i _ => writtenSector_onlyPaths entries i) e₂
    rw [hwritten] at hkeeps
    exact hkeeps

end LoPhi.Ntfs.Report
