import LoPhi.Ntfs.Refresh
import LoPhi.Ntfs.WorkingImage

/-! # Who owns a sector

`_clean_file_entry` opens the record in the file system as it is after the write, so it
removes the sectors of the runs the record has now. A sector of a run the record had
before and has no longer stays mapped to it. As long as every load of a record covers the
runs of the load before it, nothing is left behind. -/

namespace LoPhi.Ntfs.Ownership
open LoPhi.Lib.Effect LoPhi.Ntfs.Volume LoPhi.Ntfs.Engine LoPhi.Ntfs.Refresh
open LoPhi.Ntfs.WorkingImage

variable {g : Geometry} {o : Outside}

/-- The sector lies in one of the runs the file system has for the record. -/
def InCurrentRuns (g : Geometry) (fs : FileSystem) (n s : Nat) : Prop :=
  ∃ f, fs.openMeta n = some f ∧ InRuns g f.runs s

/-- Every sector mapped to the record lies in one of its current runs. -/
def OwnsCurrent (g : Geometry) (e : SevNtfsSparse) (n : Nat) : Prop :=
  ∀ s, e.sectorToInode s = some n → InCurrentRuns g e.fileSystem n s

/-- Between two states the record was loaded. -/
def Reloads (e e' : SevNtfsSparse) (n : Nat) : Prop :=
  ∃ new, e'.loads = new ++ e.loads ∧ n ∈ new.map Prod.fst

/-! ## One reload -/

/-- Only sectors that `S` allows may change their owner. -/
def OwnersWithin (S : Nat → Prop) (e e' : SevNtfsSparse) : Prop :=
  ∀ s, ¬ S s → e'.sectorToInode s = e.sectorToInode s

theorem composes_ownersWithin {S : Nat → Prop} : Composes (OwnersWithin S) where
  refl _ _ _ := rfl
  trans h h' s hs := (h' s hs).trans (h s hs)

theorem loadRuns_within {fs : FileSystem} {n : Nat} {f : File} (hf : fs.openMeta n = some f) :
    Keeps (OwnersWithin (InCurrentRuns g fs n)) (loadRuns g n f) := by
  refine keeps_bind composes_ownersWithin (keeps_modify fun _ _ _ => rfl) fun _ => ?_
  refine keeps_addRuns composes_ownersWithin (fun _ _ _ _ => rfl) fun s hs _ s' hs' => ?_
  exact if_neg fun heq => hs' ⟨f, hf, by rw [heq]; exact hs⟩

section Reload
variable {fs : FileSystem} {n : Nat} {e : SevNtfsSparse} (hfs : e.fileSystem = fs)
include hfs

theorem cleanFileEntry_within :
    OwnersWithin (InCurrentRuns g fs n) e (cleanFileEntry g n e).2 := by
  refine orRaise_allowed (composes_ownersWithin.refl e) fun f hf => ?_
  rw [hfs] at hf
  refine keeps_forM composes_ownersWithin (fun run hrun => ?_) e
  refine keeps_removeRun (fun _ _ _ _ => rfl) fun _ s hs => ?_
  exact if_neg fun hmem => hs ⟨f, hf, run, hrun, hmem⟩

theorem loadFileEntry_within :
    OwnersWithin (InCurrentRuns g fs n) e (loadFileEntry g n e).2 := by
  refine bind_allowed composes_ownersWithin ?_ fun _ e' hrun => ?_
  · intro s _
    rw [mftRecordToSectors_owners]
  · refine orRaise_allowed (composes_ownersWithin.refl e') fun f hf => loadRuns_within ?_ e'
    have hsame := (mftRecordToSectors_refreshed (g := g) n e).fileSystem
    rw [hrun] at hsame
    rw [← hfs, ← hsame]
    exact hf

/-- Loading a record again changes the owners of sectors of its current runs only. -/
theorem reloadFileEntry_within :
    OwnersWithin (InCurrentRuns g fs n) e (reloadFileEntry g n e).2 := by
  refine bind_allowed composes_ownersWithin (cleanFileEntry_within hfs) fun _ e' hrun => ?_
  have hsame := (cleanFileEntry_refreshed (g := g) n e).fileSystem
  rw [hrun] at hsame
  exact loadFileEntry_within (hsame.trans hfs)

end Reload

/-- So a reload leaves behind exactly the sectors the record owned before it and has no
longer. -/
theorem reloadFileEntry_ownsCurrent_iff (n : Nat) (e : SevNtfsSparse) :
    OwnsCurrent g (reloadFileEntry g n e).2 n ↔ OwnsCurrent g e n := by
  have hfs := (reloadFileEntry_refreshed (g := g) n e).fileSystem
  have hwithin := reloadFileEntry_within (g := g) (n := n) (e := e) rfl
  unfold OwnsCurrent
  rw [hfs]
  constructor
  · intro h s hs
    by_contra hout
    exact hout (h s (by rw [hwithin s hout]; exact hs))
  · intro h s hs
    by_contra hout
    exact hout (h s (by rw [← hwithin s hout]; exact hs))

/-! ## One write -/

/-- The map and the history stay. -/
def SameOwners (e e' : SevNtfsSparse) : Prop :=
  e'.loads = e.loads ∧ e'.sectorToInode = e.sectorToInode

theorem composes_sameOwners : Composes SameOwners :=
  ⟨fun _ => ⟨rfl, rfl⟩, fun h h' => ⟨h'.1.trans h.1, h'.2.trans h.2⟩⟩

theorem reopenFileSystem_owners : Keeps SameOwners (reopenFileSystem o) := by
  refine keeps_bind composes_sameOwners (keeps_get composes_sameOwners) fun e => ?_
  refine keeps_bind composes_sameOwners (keeps_orRaise composes_sameOwners _ _) fun fs => ?_
  refine keeps_bind composes_sameOwners (keeps_modify fun _ => ⟨rfl, rfl⟩) fun _ => ?_
  refine keeps_bind composes_sameOwners (keeps_orRaise composes_sameOwners _ _) fun mftFile => ?_
  refine keeps_bind composes_sameOwners (keeps_orRaise composes_sameOwners _ _) fun raw => ?_
  exact keeps_modify fun _ => ⟨rfl, rfl⟩

theorem updateIfTouched_owners (w : Write) (entries : Entries) :
    Keeps SameOwners (updateIfTouched g o w entries) := by
  unfold updateIfTouched
  split
  · exact keeps_pure composes_sameOwners _
  · refine keeps_bind composes_sameOwners ?_ fun _ => reopenFileSystem_owners
    exact keeps_modify fun _ => ⟨rfl, rfl⟩

/-- A write is a change that touches neither the map nor the history, and a refresh. -/
theorem getAccess_phases (w : Write) (e : SevNtfsSparse) :
    ∃ e₁, SameOwners e e₁ ∧ Refreshed g e₁ (getAccess g o w e) := by
  have hrename : ∀ e', Refreshed g e' { e' with inodeToPath := o.renamed w e' } := fun e' =>
    Refreshed.of_fewer rfl rfl rfl fun _ _ h => h
  obtain ⟨e₁, hsame, hrefresh⟩ : ∃ e₁, SameOwners e e₁ ∧
      Refreshed g e₁ (applyWrite g o w e).2 := by
    cases hruns : mftDataruns e.fileSystem with
    | none =>
      refine ⟨e, composes_sameOwners.refl e, ?_⟩
      rw [applyWrite_error hruns]
      exact composes_refreshed.refl e
    | some runs =>
      rw [applyWrite_eq hruns]
      have hupdate := updateIfTouched_owners (g := g) (o := o) w (openEntries e.fileSystem
          (getRecordsFromSectors g runs (List.range' w.sector w.sectorCount)))
        { e with lastInum := e.fileSystem.lastInum }
      cases hrun : updateIfTouched g o w (openEntries e.fileSystem
          (getRecordsFromSectors g runs (List.range' w.sector w.sectorCount)))
        { e with lastInum := e.fileSystem.lastInum } with
      | mk result e₁ =>
        rw [hrun] at hupdate
        refine ⟨e₁, hupdate, ?_⟩
        cases result with
        | error err =>
          rw [bind_error hrun]
          exact composes_refreshed.refl e₁
        | ok a =>
          rw [bind_ok hrun]
          exact refresh_refreshed o w _ e₁
  exact ⟨e₁, hsame, composes_refreshed.trans hrefresh (hrename _)⟩

theorem covering_before {w : Write} {e : SevNtfsSparse}
    (h : Covering g (getAccess g o w e).loads) : Covering g e.loads := by
  obtain ⟨e₁, hsame, hrefresh⟩ := getAccess_phases (g := g) (o := o) w e
  obtain ⟨new, hnew, -⟩ := hrefresh.loads
  rw [hnew, hsame.1] at h
  exact h.earlier

theorem getAccess_owned {w : Write} {e : SevNtfsSparse}
    (hcover : Covering g (getAccess g o w e).loads) (hown : Owned g e) :
    Owned g (getAccess g o w e) := by
  obtain ⟨e₁, hsame, hrefresh⟩ := getAccess_phases (g := g) (o := o) w e
  refine hrefresh.owned hcover fun s n hs => ?_
  rw [hsame.1]
  rw [hsame.2] at hs
  exact hown s n hs

/-! ## Runs of writes -/

theorem start_owned {img : Nat → UInt8} {e : SevNtfsSparse} (hstart : start g o img = some e)
    (hcover : Covering g e.loads) : Owned g e := by
  obtain ⟨fs, -, rfl⟩ := Option.map_eq_some_iff.mp hstart
  exact (loadFileSystem_refreshed _).owned hcover fun s n hs => nomatch hs

theorem covering_writes {ws : List Write} {e : SevNtfsSparse}
    (h : Covering g (writes g o e ws).loads) : Covering g e.loads := by
  induction ws generalizing e with
  | nil => exact h
  | cons w ws ih => exact covering_before (ih h)

theorem writes_owned {ws : List Write} {e : SevNtfsSparse}
    (hcover : Covering g (writes g o e ws).loads) (hown : Owned g e) :
    Owned g (writes g o e ws) := by
  induction ws generalizing e with
  | nil => exact hown
  | cons w ws ih => exact ih hcover (getAccess_owned (covering_writes hcover) hown)

/-- The last load of a record that a write loaded is of the runs it has now. -/
theorem Reloads.current {w : Write} {e : SevNtfsSparse} {n : Nat}
    (h : Reloads e (getAccess g o w e) n) {runs : List Run}
    (hlast : (getAccess g o w e).loads.lookup n = some runs) :
    ∃ f, (getAccess g o w e).fileSystem.openMeta n = some f ∧ f.runs = runs := by
  obtain ⟨e₁, hsame, hrefresh⟩ := getAccess_phases (g := g) (o := o) w e
  obtain ⟨new, hnew, hmem⟩ := h
  obtain ⟨new', hnew', hruns⟩ := hrefresh.loads
  have heq : new' = new := by
    rw [hnew, hsame.1] at hnew'
    exact (List.append_cancel_right hnew').symm
  subst heq
  rw [hnew, List.lookup_append] at hlast
  cases hlookup : new'.lookup n with
  | none =>
    obtain ⟨load, hload, rfl⟩ := List.mem_map.mp hmem
    have := List.lookup_eq_none_iff.mp hlookup load hload
    simp at this
  | some runs' =>
    rw [hlookup] at hlast
    cases hlast
    obtain ⟨before, after, heq, -⟩ := List.lookup_eq_some_iff.mp hlookup
    obtain ⟨f, hf, hfruns⟩ := hruns (n, runs) (by rw [heq]; simp)
    exact ⟨f, by rw [hrefresh.fileSystem]; exact hf, hfruns.symm⟩

/-- **A record that a write loaded owns sectors of its current runs only**, in every run in
which each load of a record covers the runs of the load before it. -/
theorem reloaded_owns_current {img : Nat → UInt8} {e : SevNtfsSparse}
    (hstart : start g o img = some e) (ws : List Write) (w : Write)
    (hcover : Covering g (getAccess g o w (writes g o e ws)).loads) {n : Nat}
    (hn : Reloads (writes g o e ws) (getAccess g o w (writes g o e ws)) n) :
    OwnsCurrent g (getAccess g o w (writes g o e ws)) n := by
  have hcover' := covering_before hcover
  have hown := writes_owned hcover' (start_owned hstart (covering_writes hcover'))
  intro s hs
  obtain ⟨runs, hlast, hin⟩ := getAccess_owned hcover hown s n hs
  obtain ⟨f, hf, rfl⟩ := hn.current hlast
  exact ⟨f, hf, hin⟩

/-! ## A file whose runs change -/

/-- The `$MFT` has the records 0 and 1, in the blocks 1 and 2. The first byte of record 1
says which runs its file has. -/
def changingFile (before after : List Run) (img : Nat → UInt8) : FileSystem where
  lastInum := 1
  rootInum := 5
  openMeta n :=
    if n = 0 then some { attributes := [⟨true, [⟨2, 1⟩]⟩], content := some [] }
    else if n = 1 then some { attributes := [⟨true, if img 2048 = 1 then after else before⟩] }
    else none
  openDir _ := some []

def changing (before after : List Run) : Outside where
  fsInfo img := some (changingFile before after img)
  order keys := keys
  renamed _ e := e.inodeToPath

/-- The engine on a blank image, where the file has the first runs. -/
def beforeChange (before after : List Run) : SevNtfsSparse :=
  (loadFileSystem tinyVolume
    { img := blankImage
      fileSystem := changingFile before after blankImage
      rootInum := 5
      lastInum := 1 }).2

/-- Record 1 with the other runs. -/
def changeWrite : Write := ⟨4, 2, 1 :: List.replicate 1023 0⟩

def afterChange (before after : List Run) : SevNtfsSparse :=
  getAccess tinyVolume (changing before after) changeWrite (beforeChange before after)

/-- A file that grows covers the runs it had. -/
theorem reloaded_owns_current_grown :
    OwnsCurrent tinyVolume (afterChange [⟨1, 8⟩] [⟨2, 8⟩]) 1 := by
  have hbefore : (beforeChange [⟨1, 8⟩] [⟨2, 8⟩]).loads = [(1, [⟨1, 8⟩]), (0, [⟨2, 1⟩])] := by
    decide +kernel
  have hafter : (afterChange [⟨1, 8⟩] [⟨2, 8⟩]).loads =
      [(1, [⟨2, 8⟩]), (1, [⟨1, 8⟩]), (0, [⟨2, 1⟩])] := by
    decide +kernel
  have hstart : start tinyVolume (changing [⟨1, 8⟩] [⟨2, 8⟩]) blankImage =
      some (beforeChange [⟨1, 8⟩] [⟨2, 8⟩]) := rfl
  refine reloaded_owns_current hstart [] changeWrite ?_ ?_
  · show Covering tinyVolume (afterChange [⟨1, 8⟩] [⟨2, 8⟩]).loads
    rw [hafter]
    refine ⟨fun old hold s hs => ?_, fun old hold => ?_, fun old hold => ?_, trivial⟩
    · cases hold
      obtain ⟨run, hrun, hs⟩ := hs
      rw [List.mem_singleton.mp hrun] at hs
      exact ⟨⟨2, 8⟩, by simp, List.mem_append_left _ hs⟩
    · cases hold
    · cases hold
  · refine ⟨[(1, [⟨2, 8⟩])], ?_, by simp⟩
    show (afterChange [⟨1, 8⟩] [⟨2, 8⟩]).loads = _ ++ (beforeChange [⟨1, 8⟩] [⟨2, 8⟩]).loads
    rw [hafter, hbefore]
    rfl

/-- A file that shrinks keeps the sectors of its lost block. -/
theorem shrunk_file_keeps_sectors :
    start tinyVolume (changing [⟨2, 8⟩] [⟨1, 8⟩]) blankImage =
        some (beforeChange [⟨2, 8⟩] [⟨1, 8⟩]) ∧
      Reloads (beforeChange [⟨2, 8⟩] [⟨1, 8⟩]) (afterChange [⟨2, 8⟩] [⟨1, 8⟩]) 1 ∧
      ¬ OwnsCurrent tinyVolume (afterChange [⟨2, 8⟩] [⟨1, 8⟩]) 1 := by
  have hbefore : (beforeChange [⟨2, 8⟩] [⟨1, 8⟩]).loads = [(1, [⟨2, 8⟩]), (0, [⟨2, 1⟩])] := by
    decide +kernel
  have hafter : (afterChange [⟨2, 8⟩] [⟨1, 8⟩]).loads =
      [(1, [⟨1, 8⟩]), (1, [⟨2, 8⟩]), (0, [⟨2, 1⟩])] := by
    decide +kernel
  have hmapped : (afterChange [⟨2, 8⟩] [⟨1, 8⟩]).sectorToInode 18 = some 1 := by
    decide +kernel
  have hruns : (afterChange [⟨2, 8⟩] [⟨1, 8⟩]).fileSystem.openMeta 1 =
      some { attributes := [⟨true, [⟨1, 8⟩]⟩] } := by
    decide +kernel
  refine ⟨rfl, ⟨[(1, [⟨1, 8⟩])], ?_, by simp⟩, fun h => ?_⟩
  · rw [hafter, hbefore]
    rfl
  · obtain ⟨f, hf, run, hrun, hs⟩ := h 18 hmapped
    rw [hruns] at hf
    cases hf
    rw [List.mem_singleton.mp hrun] at hs
    exact absurd hs (by decide)

end LoPhi.Ntfs.Ownership
