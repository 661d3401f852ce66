import LoPhi.Ntfs.Reload
import LoPhi.Ntfs.WorkingImage

/-! # The sectors of resident attributes

`_mft_record_to_sectors` notes, on the way, which record lies in which sectors of the
`$MFT`, so that small files, which lie in their record, can be found by sector. It notes
the first sector of the record and the first one of the next record. The second note is
wrong from the moment it is made: one record that is found in the `$MFT` is enough. -/

namespace LoPhi.Ntfs.Resident
open LoPhi.Lib.Effect LoPhi.Ntfs.Volume LoPhi.Ntfs.Engine LoPhi.Ntfs.Refresh
open LoPhi.Ntfs.Reload LoPhi.Ntfs.WorkingImage

variable {g : Geometry}

/-- What happens to the records: one is loaded, or loaded again, or the file system is
opened again and paths change. -/
inductive Step where
  | load (n : Nat)
  | reload (n : Nat)
  | reopen (fs : FileSystem) (paths : Nat → Option String)

/-- The engine after a step, whether or not it raised. -/
def perform (g : Geometry) (e : SevNtfsSparse) : Step → SevNtfsSparse
  | .load n => (loadFileEntry g n e).2
  | .reload n => (reloadFileEntry g n e).2
  | .reopen fs paths => { e with fileSystem := fs, inodeToPath := paths }

def performs (g : Geometry) (e : SevNtfsSparse) (steps : List Step) : SevNtfsSparse :=
  steps.foldl (perform g) e

/-- The step leaves the runs of the `$MFT` as they are. -/
def SameRuns (runs : List Run) : Step → Prop
  | .load _ => True
  | .reload _ => True
  | .reopen fs _ => mftDataruns fs = some runs

/-- The first sector of the record is known to belong to the `$MFT`, which is inode 0. -/
def FirstInMft (g : Geometry) (runs : List Run) (e : SevNtfsSparse) (n : Nat) : Prop :=
  ∃ first, recordStart g runs (n * 1024) = some first ∧ e.sectorToInode first = some 0

/-- The step finds the first sector of its record in the `$MFT`. A reload looks after it
has cleaned the record. -/
def Finds (g : Geometry) (runs : List Run) (e : SevNtfsSparse) : Step → Prop
  | .load n => FirstInMft g runs e n
  | .reload n => ∃ e', cleanFileEntry g n e = (.ok (), e') ∧ FirstInMft g runs e' n
  | .reopen _ _ => False

/-- No step of the run does. -/
def NeverFinds (g : Geometry) (runs : List Run) : SevNtfsSparse → List Step → Prop
  | _, [] => True
  | e, step :: steps => ¬ Finds g runs e step ∧ NeverFinds g runs (perform g e step) steps

/-- The notes are right: each is about a sector of its record, and the loaded records that
lie in the `$MFT` have notes for all their sectors. -/
structure Correct (g : Geometry) (runs : List Run) (e : SevNtfsSparse) : Prop where
  sound : ∀ s n, e.sectorResident s = some n → s ∈ recordSectors g runs n
  complete : ∀ n ∈ e.loads.map Prod.fst, FirstInMft g runs e n →
    ∀ s ∈ recordSectors g runs n, e.sectorResident s = some n

/-! ## One step -/

/-- The notes and the file system stay. -/
def SameNotes (e e' : SevNtfsSparse) : Prop :=
  e'.sectorResident = e.sectorResident ∧ e'.fileSystem = e.fileSystem

theorem composes_sameNotes : Composes SameNotes :=
  ⟨fun _ => ⟨rfl, rfl⟩, fun h h' => ⟨h'.1.trans h.1, h'.2.trans h.2⟩⟩

theorem cleanFileEntry_notes (n : Nat) : Keeps SameNotes (cleanFileEntry g n) := by
  refine keeps_bind composes_sameNotes (keeps_get composes_sameNotes) fun e => ?_
  refine keeps_bind composes_sameNotes (keeps_orRaise composes_sameNotes _ _) fun f => ?_
  refine keeps_forM composes_sameNotes fun run _ => ?_
  exact keeps_removeRun (fun _ _ => ⟨rfl, rfl⟩) fun _ => ⟨rfl, rfl⟩

theorem loadRuns_notes (n : Nat) (f : File) : Keeps SameNotes (loadRuns g n f) := by
  refine keeps_bind composes_sameNotes (keeps_modify fun _ => ⟨rfl, rfl⟩) fun _ => ?_
  exact keeps_addRuns composes_sameNotes (fun _ _ => ⟨rfl, rfl⟩) fun _ _ _ => ⟨rfl, rfl⟩

/-- What loading a record does to the notes: it makes one for the sector after the record,
and nothing if the record is not found in the `$MFT`. -/
structure Noted (g : Geometry) (runs : List Run) (found : Prop) (e e' : SevNtfsSparse) : Prop where
  fileSystem : mftDataruns e'.fileSystem = some runs
  none : ¬ found → e'.sectorResident = e.sectorResident
  some : found → ∃ n first, recordStart g runs (n * 1024) = some first ∧
    e'.sectorResident (first + 1024 / g.sectorSize) = some n

theorem Noted.after {runs : List Run} {found : Prop} {e e' e'' : SevNtfsSparse}
    (h : Noted g runs found e e') (h' : SameNotes e' e'') : Noted g runs found e e'' := by
  obtain ⟨hnotes, hfs⟩ := h'
  refine ⟨by rw [hfs]; exact h.fileSystem, fun hnot => hnotes.trans (h.none hnot), fun hfound => ?_⟩
  rw [hnotes]
  exact h.some hfound

section Noted
variable {runs : List Run} {e : SevNtfsSparse} (hruns : mftDataruns e.fileSystem = some runs)
include hruns

theorem mftRecordToSectors_noted (n : Nat) :
    Noted g runs (FirstInMft g runs e n) e (mftRecordToSectors g n e).2 := by
  unfold mftRecordToSectors
  rw [hruns]
  dsimp only
  split
  · rename_i hnone
    refine ⟨hruns, fun _ => rfl, ?_⟩
    intro ⟨first, hfirst, _⟩
    rw [hnone] at hfirst
    cases hfirst
  · rename_i first hfirst
    dsimp only
    split
    · rename_i hmft
      refine ⟨hruns, fun h => absurd ⟨first, hfirst, hmft⟩ h, fun _ => ⟨n, first, hfirst, ?_⟩⟩
      exact if_pos rfl
    · rename_i hmft
      refine ⟨hruns, fun _ => rfl, ?_⟩
      intro ⟨first', hfirst', hmft'⟩
      rw [hfirst] at hfirst'
      cases hfirst'
      exact absurd hmft' hmft

theorem loadFileEntry_noted (n : Nat) :
    Noted g runs (FirstInMft g runs e n) e (loadFileEntry g n e).2 := by
  refine (mftRecordToSectors_noted hruns n).after (bind_after composes_sameNotes ?_ e)
  intro _
  refine keeps_bind composes_sameNotes (keeps_get composes_sameNotes) fun e' => ?_
  refine keeps_bind composes_sameNotes (keeps_orRaise composes_sameNotes _ _) fun f => ?_
  exact loadRuns_notes n f

theorem reloadFileEntry_noted (n : Nat) :
    Noted g runs (Finds g runs e (.reload n)) e (reloadFileEntry g n e).2 := by
  have hclean := cleanFileEntry_notes (g := g) n e
  cases hrun : cleanFileEntry g n e with
  | mk result e' =>
    rw [hrun] at hclean
    obtain ⟨hnotes, hfs⟩ := hclean
    rw [← hfs] at hruns
    cases result with
    | error err =>
      have hstop : reloadFileEntry g n e = (.error err, e') := bind_error hrun
      rw [hstop]
      refine ⟨hruns, fun _ => hnotes, fun ⟨e'', hok, _⟩ => ?_⟩
      rw [hrun] at hok
      cases hok
    | ok a =>
      have hgo : reloadFileEntry g n e = loadFileEntry g n e' := bind_ok hrun
      have hload := loadFileEntry_noted (g := g) hruns n
      rw [hgo]
      refine ⟨hload.fileSystem, fun hnot => ?_, fun ⟨e'', hok, hfound⟩ => ?_⟩
      · rw [hload.none fun hfound => hnot ⟨e', hrun, hfound⟩, hnotes]
      · rw [hrun] at hok
        cases hok
        exact hload.some hfound

theorem perform_noted {step : Step} (hstep : SameRuns runs step) :
    Noted g runs (Finds g runs e step) e (perform g e step) := by
  cases step with
  | load n => exact loadFileEntry_noted hruns n
  | reload n => exact reloadFileEntry_noted hruns n
  | reopen fs paths => exact ⟨hstep, fun _ => rfl, False.elim⟩

end Noted

/-! ## Runs of steps -/

/-- There is a note for the sector after its record. -/
def Stray (g : Geometry) (runs : List Run) (e : SevNtfsSparse) : Prop :=
  ∃ n first, recordStart g runs (n * 1024) = some first ∧
    e.sectorResident (first + 1024 / g.sectorSize) = some n

theorem Stray.not_correct {runs : List Run} {e : SevNtfsSparse} (h : Stray g runs e) :
    ¬ Correct g runs e := by
  intro hcorrect
  obtain ⟨n, first, hfirst, hnote⟩ := h
  have hmem := hcorrect.sound _ n hnote
  rw [recordSectors, hfirst] at hmem
  have := List.mem_range'_1.mp hmem
  omega

section Runs
variable {runs : List Run} {e : SevNtfsSparse} (hruns : mftDataruns e.fileSystem = some runs)
  {steps : List Step} (hsteps : ∀ step ∈ steps, SameRuns runs step)
include hruns hsteps

theorem Stray.performs (h : Stray g runs e) : Stray g runs (performs g e steps) := by
  induction steps generalizing e with
  | nil => exact h
  | cons step steps ih =>
    have hnoted := perform_noted (g := g) hruns (hsteps step (by simp))
    refine ih hnoted.fileSystem (fun step' h => hsteps step' (by simp [h])) ?_
    by_cases hfound : Finds g runs e step
    · exact hnoted.some hfound
    · rw [Stray, hnoted.none hfound]
      exact h

/-- Either no step finds its record in the `$MFT`, and there are no new notes, or one does,
and there is a stray one from then on. -/
theorem performs_noted :
    (NeverFinds g runs e steps ∧ (performs g e steps).sectorResident = e.sectorResident) ∨
      (¬ NeverFinds g runs e steps ∧ Stray g runs (performs g e steps)) := by
  induction steps generalizing e with
  | nil => exact .inl ⟨trivial, rfl⟩
  | cons step steps ih =>
    have hnoted := perform_noted (g := g) hruns (hsteps step (by simp))
    have hsteps' : ∀ step' ∈ steps, SameRuns runs step' := fun step' h => hsteps step' (by simp [h])
    by_cases hfound : Finds g runs e step
    · refine .inr ⟨fun h => h.1 hfound, ?_⟩
      exact Stray.performs hnoted.fileSystem hsteps' (hnoted.some hfound)
    · obtain ⟨hnever, hsame⟩ | ⟨hfinds, hstray⟩ := ih hnoted.fileSystem hsteps'
      · exact .inl ⟨⟨hfound, hnever⟩, hsame.trans (hnoted.none hfound)⟩
      · exact .inr ⟨fun h => hfinds h.2, hstray⟩

end Runs

/-- Where there are no notes, they are right if no loaded record lies in the `$MFT`. -/
theorem correct_iff_of_empty (hsector : g.sectorSize ∣ 512) {runs : List Run} {e : SevNtfsSparse}
    (hempty : e.sectorResident = fun _ => none) :
    Correct g runs e ↔ ∀ n ∈ e.loads.map Prod.fst, ¬ FirstInMft g runs e n := by
  have hle : g.sectorSize ≤ 512 := Nat.le_of_dvd (by decide) hsector
  have hpos : 0 < 1024 / g.sectorSize := Nat.div_pos (by omega) g.sector_pos
  constructor
  · intro h n hn hfirst
    have hall := h.complete n hn hfirst
    obtain ⟨first, hstart, -⟩ := hfirst
    have hnote := hall first (by
      rw [recordSectors, hstart]
      exact List.mem_range'_1.mpr ⟨Nat.le_refl _, by omega⟩)
    rw [hempty] at hnote
    cases hnote
  · intro h
    refine ⟨fun s n hnote => ?_, fun n hn hfirst => absurd hfirst (h n hn)⟩
    rw [hempty] at hnote
    cases hnote

/-! ## From the initial load -/

/-- The engine on an image before its records are loaded. -/
def opened (img : Nat → UInt8) (fs : FileSystem) : SevNtfsSparse :=
  { img := img, fileSystem := fs, rootInum := fs.rootInum, lastInum := fs.lastInum }

/-- The steps of the initial load. -/
def initialLoads (fs : FileSystem) : List Step := (List.range (fs.lastInum + 1)).map .load

theorem parsePaths_notes : Keeps SameNotes parsePaths := by
  intro e
  obtain ⟨paths, hpaths⟩ := parsePaths_changes e
  rw [hpaths]
  exact ⟨rfl, rfl⟩

theorem loadFileSystem_performs {e₀ e : SevNtfsSparse} (h : loadFileSystem g e₀ = (.ok (), e)) :
    e = performs g (parsePaths e₀).2 (initialLoads e₀.fileSystem) := by
  obtain ⟨_, e₁, hparse, hloads⟩ := bind_returns h
  have hfs := (parsePaths_notes e₀).2
  rw [hparse] at hfs
  have hall := forM_returns hloads
  rw [hall, hparse, performs, initialLoads, List.foldl_map, ← hfs]
  rfl

/-- The runs after an initial load that returned. -/
theorem performs_loaded {img : Nat → UInt8} {fs : FileSystem} {runs : List Run}
    (hruns : mftDataruns fs = some runs) {e : SevNtfsSparse}
    (hload : loadFileSystem g (opened img fs) = (.ok (), e)) {steps : List Step}
    (hsteps : ∀ step ∈ steps, SameRuns runs step) :
    (NeverFinds g runs (parsePaths (opened img fs)).2 (initialLoads fs ++ steps) ∧
        (performs g e steps).sectorResident = fun _ => none) ∨
      (¬ NeverFinds g runs (parsePaths (opened img fs)).2 (initialLoads fs ++ steps) ∧
        Stray g runs (performs g e steps)) := by
  have hparse := parsePaths_notes (opened img fs)
  have hall : ∀ step ∈ initialLoads fs ++ steps, SameRuns runs step := by
    intro step hstep
    cases List.mem_append.mp hstep with
    | inl hload =>
      obtain ⟨n, -, rfl⟩ := List.mem_map.mp hload
      trivial
    | inr hlater => exact hsteps step hlater
  have hrun : performs g e steps =
      performs g (parsePaths (opened img fs)).2 (initialLoads fs ++ steps) := by
    rw [loadFileSystem_performs hload, performs, performs, performs, List.foldl_append]
    rfl
  rw [hrun]
  obtain ⟨hnever, hsame⟩ | hfinds :=
    performs_noted (g := g) (by rw [hparse.2]; exact hruns) hall
  · exact .inl ⟨hnever, by rw [hsame, hparse.1]; rfl⟩
  · exact .inr hfinds

/-- **The notes are right exactly when there are none to make**: no record was found in the
`$MFT` when it was loaded, and none of the loaded ones lies there now. -/
theorem correct_iff (hsector : g.sectorSize ∣ 512) {img : Nat → UInt8} {fs : FileSystem}
    {runs : List Run} (hruns : mftDataruns fs = some runs) {e : SevNtfsSparse}
    (hload : loadFileSystem g (opened img fs) = (.ok (), e)) {steps : List Step}
    (hsteps : ∀ step ∈ steps, SameRuns runs step) :
    Correct g runs (performs g e steps) ↔
      NeverFinds g runs (parsePaths (opened img fs)).2 (initialLoads fs ++ steps) ∧
        ∀ n ∈ (performs g e steps).loads.map Prod.fst,
          ¬ FirstInMft g runs (performs g e steps) n := by
  obtain ⟨hnever, hempty⟩ | ⟨hfinds, hstray⟩ := performs_loaded hruns hload hsteps
  · rw [correct_iff_of_empty hsector hempty]
    exact ⟨fun h => ⟨hnever, h⟩, fun h => h.2⟩
  · exact ⟨fun h => absurd h hstray.not_correct, fun h => absurd h.1 hfinds⟩

/-! ## Volumes with two records -/

/-- No sector has another owner than the record. -/
def OnlyOwner (n : Nat) (e : SevNtfsSparse) : Prop := ∀ s m, e.sectorToInode s = some m → m = n

/-- The run can be added. -/
def Regular (g : Geometry) (run : Run) : Prop := run.addr ≠ 0 ∧ ¬ outOfBounds g run

theorem loadFileEntry_owns {n : Nat} {f : File} {runs : List Run} {e : SevNtfsSparse}
    (h : OnlyOwner n e) (hruns : mftDataruns e.fileSystem = some runs)
    (hf : e.fileSystem.openMeta n = some f) :
    ∀ run ∈ f.runs, Regular g run → ∀ s ∈ runSectors g run,
      (loadFileEntry g n e).2.sectorToInode s = some n := by
  intro run hrun hregular s hs
  obtain ⟨resident, hload⟩ := loadFileEntry_eq (g := g) hruns hf
  have hfree : FreeFor n (Loaded g f) { e with sectorResident := resident } := by
    intro s _
    cases hs : e.sectorToInode s with
    | none => exact .inl rfl
    | some m => exact .inr (congrArg some (h s m hs))
  obtain ⟨e', hadd, -, hown⟩ := loadRuns_free hfree fun s hs => hs
  rw [hload, hadd]
  exact hown s ⟨run, hrun, .inl hregular.1, hregular.2, hs⟩

/-- With a second record in a regular run of the `$MFT`, the notes are wrong after the
initial load and stay so. -/
theorem two_records_not_correct {img : Nat → UInt8} {fs : FileSystem} {runs : List Run}
    (hruns : mftDataruns fs = some runs) {e : SevNtfsSparse}
    (hload : loadFileSystem g (opened img fs) = (.ok (), e)) {steps : List Step}
    (hsteps : ∀ step ∈ steps, SameRuns runs step) (hlast : 1 ≤ fs.lastInum) {f : File}
    (hf : fs.openMeta 0 = some f) {run : Run} (hrun : run ∈ f.runs) (hregular : Regular g run)
    {first : Nat} (hfirst : recordStart g runs 1024 = some first)
    (hs : first ∈ runSectors g run) : ¬ Correct g runs (performs g e steps) := by
  obtain ⟨hnever, -⟩ | ⟨-, hstray⟩ := performs_loaded hruns hload hsteps
  · -- The second step of the run loads record 1, when record 0 owns its sectors.
    obtain ⟨later, hlater⟩ : ∃ later, initialLoads fs = .load 0 :: .load 1 :: later := by
      obtain ⟨k, hk⟩ := Nat.exists_eq_add_of_le' hlast
      exact ⟨_, by rw [initialLoads, hk, List.range_succ_eq_map, List.range_succ_eq_map]; rfl⟩
    rw [hlater] at hnever
    refine absurd ⟨first, hfirst, ?_⟩ hnever.2.1
    obtain ⟨paths, hpaths⟩ := parsePaths_changes (opened img fs)
    show (loadFileEntry g 0 (parsePaths (opened img fs)).2).2.sectorToInode first = some 0
    rw [hpaths]
    exact loadFileEntry_owns (fun s m h => by cases h) hruns hf run hrun hregular first hs
  · exact hstray.not_correct

/-! ## A `$MFT` with one run -/

/-- A file system whose `$MFT` has one run. -/
def mftOnly (lastInum : Nat) (run : Run) : FileSystem where
  lastInum := lastInum
  rootInum := 5
  openMeta n :=
    if n = 0 then some { attributes := [⟨true, [run]⟩] }
    else if n ≤ lastInum then some { attributes := [] }
    else none
  openDir _ := some []

/-- The engine after the initial load of it. -/
def mftLoaded (lastInum : Nat) (run : Run) : SevNtfsSparse :=
  (loadFileSystem tinyVolume (opened blankImage (mftOnly lastInum run))).2

/-- A run at block 0 is taken for a sparse one, so nothing is known about its sectors. -/
theorem correct_sparse_mft : Correct tinyVolume [⟨2, 0⟩] (mftLoaded 0 ⟨2, 0⟩) := by
  have hload : loadFileSystem tinyVolume (opened blankImage (mftOnly 0 ⟨2, 0⟩)) =
      (.ok (), mftLoaded 0 ⟨2, 0⟩) := rfl
  have hsteps : ∀ step ∈ ([] : List Step), SameRuns [⟨2, 0⟩] step := by simp
  refine (correct_iff (by decide) rfl hload hsteps).mpr ⟨⟨?_, trivial⟩, ?_⟩
  · intro ⟨first, hfirst, hmft⟩
    cases hmft
  · intro n hn ⟨first, hfirst, hmft⟩
    cases hmft

/-- Record 1 lies in the sectors 4 and 5, and there is a note that sector 6 is its. -/
theorem not_correct_next_record :
    loadFileSystem tinyVolume (opened blankImage (mftOnly 1 ⟨2, 1⟩)) =
        (.ok (), mftLoaded 1 ⟨2, 1⟩) ∧
      ¬ Correct tinyVolume [⟨2, 1⟩] (mftLoaded 1 ⟨2, 1⟩) := by
  have hnote : (mftLoaded 1 ⟨2, 1⟩).sectorResident 6 = some 1 := by decide +kernel
  refine ⟨?_, fun h => absurd (h.sound 6 1 hnote) (by decide)⟩
  unfold mftLoaded
  exact returns_of_fst (by decide +kernel)

end LoPhi.Ntfs.Resident
