import LoPhi.Ntfs.Engine

/-! # What loading records changes

Loading and reloading leave the image and the file system alone. The sectors mapped to a
record are those of the runs it had when it was last loaded, as long as no load drops
runs of an earlier one: cleaning removes the sectors of the new runs, not of the old
ones. -/

namespace LoPhi.Ntfs.Refresh
open LoPhi.Lib.Effect LoPhi.Ntfs.Volume LoPhi.Ntfs.Engine

variable {g : Geometry}

/-- The sector lies in one of the runs. -/
def InRuns (g : Geometry) (runs : List Run) (s : Nat) : Prop := ∃ run ∈ runs, s ∈ runSectors g run

/-- Every sector that is mapped to a record lies in the runs the record had when it was
last loaded. -/
def Owned (g : Geometry) (e : SevNtfsSparse) : Prop :=
  ∀ s n, e.sectorToInode s = some n → ∃ runs, e.loads.lookup n = some runs ∧ InRuns g runs s

/-- Every load of a record covers the runs of the load before it. -/
def Covering (g : Geometry) : List (Nat × List Run) → Prop
  | [] => True
  | load :: earlier =>
    (∀ old, earlier.lookup load.1 = some old → ∀ s, InRuns g old s → InRuns g load.2 s) ∧
      Covering g earlier

theorem Covering.earlier {new loads : List (Nat × List Run)} (h : Covering g (new ++ loads)) :
    Covering g loads := by
  induction new with
  | nil => exact h
  | cons load new ih => exact ih h.2

/-- What loading may change. -/
structure Refreshed (g : Geometry) (e e' : SevNtfsSparse) : Prop where
  img : e'.img = e.img
  fileSystem : e'.fileSystem = e.fileSystem
  loads : ∃ new, e'.loads = new ++ e.loads ∧
    ∀ load ∈ new, ∃ f, e.fileSystem.openMeta load.1 = some f ∧ load.2 = f.runs
  owned : Covering g e'.loads → Owned g e → Owned g e'

theorem composes_refreshed : Composes (Refreshed g) where
  refl e := ⟨rfl, rfl, ⟨[], rfl, by simp⟩, fun _ h => h⟩
  trans := by
    intro e e' e'' h h'
    obtain ⟨new, hnew, hruns⟩ := h.loads
    obtain ⟨new', hnew', hruns'⟩ := h'.loads
    refine ⟨h'.img.trans h.img, h'.fileSystem.trans h.fileSystem, ⟨new' ++ new, ?_, ?_⟩, ?_⟩
    · rw [hnew', hnew, List.append_assoc]
    · intro load hload
      cases List.mem_append.mp hload with
      | inl hload =>
        rw [← h.fileSystem]
        exact hruns' load hload
      | inr hload => exact hruns load hload
    · intro hcover hown
      rw [hnew'] at hcover
      exact h'.owned (hnew' ▸ hcover) (h.owned hcover.earlier hown)

/-- A change that leaves the image, the file system and the history alone, and maps no
sector to a new record. -/
theorem Refreshed.of_fewer {e e' : SevNtfsSparse} (himg : e'.img = e.img)
    (hfs : e'.fileSystem = e.fileSystem) (hloads : e'.loads = e.loads)
    (hfewer : ∀ s n, e'.sectorToInode s = some n → e.sectorToInode s = some n) :
    Refreshed g e e' :=
  ⟨himg, hfs, ⟨[], hloads, by simp⟩, fun _ hown s n hs => by
    rw [hloads]
    exact hown s n (hfewer s n hs)⟩

/-! ## Adding and removing runs -/

/-- The sector gets an owner. -/
def own (n s : Nat) (e : SevNtfsSparse) : SevNtfsSparse :=
  { e with sectorToInode := fun s' => if s' = s then some n else e.sectorToInode s' }

/-- The sectors of a run lose theirs. -/
def disown (g : Geometry) (run : Run) (e : SevNtfsSparse) : SevNtfsSparse :=
  { e with sectorToInode := fun s => if s ∈ runSectors g run then none else e.sectorToInode s }

section Rules
variable {R : SevNtfsSparse → SevNtfsSparse → Prop} (hR : Composes R)
  (hlog : ∀ e log, R e { e with errorLog := log }) {n : Nat}
include hlog

theorem keeps_removeRun {run : Run} (hdisown : ∀ e, R e (disown g run e)) :
    Keeps R (removeRun g n run) := by
  unfold removeRun
  split
  · exact keeps_modify fun e => hlog e _
  · exact keeps_modify hdisown

include hR

theorem keeps_addSector {s : Nat} (hown : ∀ e, R e (own n s e)) (block : Nat) :
    Keeps R (addSector n block s) := by
  intro e
  unfold addSector
  dsimp only
  split
  · exact hown e
  · split
    · exact hown e
    · split
      · exact hR.refl e
      · exact hown e
      · exact hlog e _

theorem keeps_addRun {run : Run} (hown : ∀ s ∈ runSectors g run, ∀ e, R e (own n s e)) :
    Keeps R (addRun g n run) := by
  unfold addRun
  split
  · exact keeps_modify fun e => hlog e _
  · refine keeps_forM hR fun i hi => keeps_forM hR fun s hs => ?_
    exact keeps_addSector hR hlog (hown s (List.mem_flatMap.mpr ⟨i, hi, hs⟩)) _

/-- The runs of a file are added one after the other, sparse ones left out. -/
theorem keeps_addRuns {f : File} (hown : ∀ s, InRuns g f.runs s → ∀ e, R e (own n s e)) :
    Keeps R (f.runs.forM fun run =>
      if run.addr ≠ 0 ∨ f.name = some "$Boot" then addRun g n run else pure ()) := by
  refine keeps_forM hR fun run hrun => ?_
  split
  · exact keeps_addRun hR hlog fun s hs => hown s ⟨run, hrun, hs⟩
  · exact keeps_pure hR _

end Rules

/-- What adding runs of the record `n` may change, when these are the runs it was last
loaded with. -/
structure Added (g : Geometry) (n : Nat) (runs : List Run) (e e' : SevNtfsSparse) : Prop where
  img : e'.img = e.img
  fileSystem : e'.fileSystem = e.fileSystem
  loads : e'.loads = e.loads
  owned : e.loads.lookup n = some runs → Owned g e → Owned g e'

section Added
variable {n : Nat} {runs : List Run}

theorem composes_added : Composes (Added g n runs) where
  refl e := ⟨rfl, rfl, rfl, fun _ h => h⟩
  trans := fun h h' => ⟨h'.img.trans h.img, h'.fileSystem.trans h.fileSystem,
    h'.loads.trans h.loads, fun hlast hown =>
      h'.owned (by rw [h.loads]; exact hlast) (h.owned hlast hown)⟩

theorem own_added {s : Nat} (hs : InRuns g runs s) (e : SevNtfsSparse) :
    Added g n runs e (own n s e) := by
  refine ⟨rfl, rfl, rfl, fun hlast howned s' n' hs' => ?_⟩
  dsimp only [own] at hs'
  split at hs'
  · rename_i heq
    cases hs'
    exact ⟨runs, hlast, heq ▸ hs⟩
  · exact howned s' n' hs'

end Added

/-! ## Loading and reloading -/

theorem mftRecordToSectors_refreshed (n : Nat) :
    Keeps (Refreshed g) (mftRecordToSectors g n) := by
  intro e
  unfold mftRecordToSectors
  split
  · exact composes_refreshed.refl e
  · split
    · exact composes_refreshed.refl e
    · dsimp only
      split
      · exact Refreshed.of_fewer rfl rfl rfl fun _ _ h => h
      · exact composes_refreshed.refl e

theorem mftRecordToSectors_owners (n : Nat) (e : SevNtfsSparse) :
    (mftRecordToSectors g n e).2.sectorToInode = e.sectorToInode := by
  unfold mftRecordToSectors
  split
  · rfl
  · split
    · rfl
    · dsimp only
      split <;> rfl

theorem mftRecordToSectors_returns (n : Nat) {e : SevNtfsSparse} {runs : List Run}
    (hruns : mftDataruns e.fileSystem = some runs) :
    (mftRecordToSectors g n e).1 = .ok (recordSectors g runs n) := by
  unfold mftRecordToSectors recordSectors
  rw [hruns]
  dsimp only
  cases recordStart g runs (n * 1024) with
  | none => rfl
  | some first => rfl

theorem removeRun_refreshed (n : Nat) (run : Run) : Keeps (Refreshed g) (removeRun g n run) := by
  refine keeps_removeRun (fun e log => Refreshed.of_fewer rfl rfl rfl fun _ _ h => h) fun e => ?_
  refine Refreshed.of_fewer rfl rfl rfl fun s n' h => ?_
  dsimp only [disown] at h
  split at h
  · cases h
  · exact h

theorem cleanFileEntry_refreshed (n : Nat) : Keeps (Refreshed g) (cleanFileEntry g n) := by
  refine keeps_bind composes_refreshed (keeps_get composes_refreshed) fun e => ?_
  refine keeps_bind composes_refreshed (keeps_orRaise composes_refreshed _ _) fun f => ?_
  exact keeps_forM composes_refreshed fun run _ => removeRun_refreshed n run

theorem loadRuns_refreshed {e : SevNtfsSparse} {n : Nat} {f : File}
    (hf : e.fileSystem.openMeta n = some f) : Refreshed g e (loadRuns g n f e).2 := by
  -- The history gets its entry first, so the runs are added under it.
  have hlog : ∀ e log, Added g n f.runs e { e with errorLog := log } := fun e log =>
    ⟨rfl, rfl, rfl, fun _ h => h⟩
  have hadded := keeps_addRuns (f := f) composes_added hlog (fun s hs e => own_added hs e)
    { e with loads := (n, f.runs) :: e.loads }
  refine ⟨hadded.img, hadded.fileSystem, ⟨[(n, f.runs)], hadded.loads, ?_⟩, ?_⟩
  · intro load hload
    rw [List.mem_singleton.mp hload]
    exact ⟨f, hf, rfl⟩
  · intro hcover hown
    have hcover' : Covering g ((n, f.runs) :: e.loads) := by
      have hloads : (loadRuns g n f e).2.loads = (n, f.runs) :: e.loads := hadded.loads
      rwa [hloads] at hcover
    refine hadded.owned (by simp) fun s n' hs => ?_
    obtain ⟨old, hold, hin⟩ := hown s n' hs
    by_cases heq : n' = n
    · subst heq
      exact ⟨f.runs, by simp, hcover'.1 old hold s hin⟩
    · refine ⟨old, ?_, hin⟩
      rw [List.lookup_cons, beq_false_of_ne heq]
      exact hold

theorem loadFileEntry_refreshed (n : Nat) : Keeps (Refreshed g) (loadFileEntry g n) := by
  refine keeps_bind composes_refreshed (mftRecordToSectors_refreshed n) fun _ => ?_
  refine keeps_read fun e => orRaise_allowed (composes_refreshed.refl e) fun f hf => ?_
  exact loadRuns_refreshed hf

theorem reloadFileEntry_refreshed (n : Nat) : Keeps (Refreshed g) (reloadFileEntry g n) :=
  keeps_bind composes_refreshed (cleanFileEntry_refreshed n) fun _ => loadFileEntry_refreshed n

theorem parsePaths_changes (e : SevNtfsSparse) :
    ∃ paths, (parsePaths e).2 = { e with inodeToPath := paths } := by
  show ∃ paths, ((orRaise NtfsError.ioError (e.fileSystem.openDir e.rootInum) >>= fun rootDir =>
    modify _ : Method Unit) e).2 = _
  cases e.fileSystem.openDir e.rootInum with
  | none => exact ⟨e.inodeToPath, rfl⟩
  | some rootDir => exact ⟨_, rfl⟩

theorem parsePaths_refreshed : Keeps (Refreshed g) parsePaths := by
  intro e
  obtain ⟨paths, hpaths⟩ := parsePaths_changes e
  rw [hpaths]
  exact Refreshed.of_fewer rfl rfl rfl fun _ _ h => h

theorem loadFileSystem_refreshed : Keeps (Refreshed g) (loadFileSystem g) := by
  refine keeps_bind composes_refreshed parsePaths_refreshed fun _ => ?_
  refine keeps_bind composes_refreshed (keeps_get composes_refreshed) fun e => ?_
  exact keeps_forM composes_refreshed fun n _ => loadFileEntry_refreshed n

/-! ## The refresh of a write -/

theorem loadNew_refreshed (count : Nat) (entries : Entries) :
    Keeps (Refreshed g) (loadNew g count entries) := by
  induction count generalizing entries with
  | zero => exact keeps_pure composes_refreshed _
  | succ count ih =>
    refine keeps_bind composes_refreshed ?_ fun _ => ?_
    · exact keeps_modify fun e => Refreshed.of_fewer rfl rfl rfl fun _ _ h => h
    refine keeps_bind composes_refreshed (keeps_get composes_refreshed) fun e => ?_
    exact keeps_bind composes_refreshed (loadFileEntry_refreshed _) fun _ => ih _

theorem report_refreshed (opType : OpType) (n : Nat) : Keeps (Refreshed g) (report g opType n) := by
  refine keeps_bind composes_refreshed (mftRecordToSectors_refreshed n) fun sectors => ?_
  refine keeps_bind composes_refreshed (keeps_get composes_refreshed) fun e => ?_
  refine keeps_bind composes_refreshed (keeps_orRaise composes_refreshed _ _) fun sector => ?_
  exact keeps_pure composes_refreshed _

theorem reportChange_refreshed (oldF newF : File) (n : Nat) :
    Keeps (Refreshed g) (reportChange g oldF newF n) := by
  unfold reportChange
  split
  · exact report_refreshed _ n
  · split
    · exact report_refreshed _ n
    · exact keeps_pure composes_refreshed _

theorem reloadEntries_refreshed (entries : Entries) (order : List Nat) :
    Keeps (Refreshed g) (reloadEntries g entries order) := by
  induction order with
  | nil => exact keeps_pure composes_refreshed _
  | cons n order ih =>
    refine keeps_bind composes_refreshed (reloadFileEntry_refreshed n) fun _ => ?_
    refine keeps_bind composes_refreshed (keeps_get composes_refreshed) fun e => ?_
    refine keeps_bind composes_refreshed (keeps_orRaise composes_refreshed _ _) fun newF => ?_
    split
    · rename_i oldF _
      refine keeps_bind composes_refreshed (reportChange_refreshed oldF newF n) fun _ => ?_
      exact keeps_bind composes_refreshed ih fun more => keeps_pure composes_refreshed _
    · exact keeps_pure composes_refreshed _

theorem parseNewPaths_refreshed : Keeps (Refreshed g) parseNewPaths := by
  refine keeps_bind composes_refreshed (keeps_get composes_refreshed) fun e => ?_
  split
  · exact parsePaths_refreshed
  · exact keeps_pure composes_refreshed _

theorem refresh_refreshed (o : Outside) (w : Write) (entries : Entries) :
    Keeps (Refreshed g) (refresh g o w entries) := by
  refine keeps_bind composes_refreshed parseNewPaths_refreshed fun _ => ?_
  refine keeps_bind composes_refreshed (keeps_get composes_refreshed) fun e => ?_
  refine keeps_bind composes_refreshed (loadNew_refreshed _ _) fun entries => ?_
  refine keeps_bind composes_refreshed ?_ fun _ => ?_
  · exact keeps_modify fun e => Refreshed.of_fewer rfl rfl rfl fun _ _ h => h
  refine keeps_bind composes_refreshed (keeps_get composes_refreshed) fun e' => ?_
  refine keeps_bind composes_refreshed (keeps_orRaise composes_refreshed _ _) fun runs => ?_
  exact reloadEntries_refreshed _ _

end LoPhi.Ntfs.Refresh
