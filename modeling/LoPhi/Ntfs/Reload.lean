import LoPhi.Ntfs.Refresh

/-! # Loading a record again

`_reload_file_entry` cleans the sectors of the record's runs and then adds its runs. The two walks
do not agree: cleaning takes the sectors of every run, also of a sparse one, which `pytsk3`
reports at address 0, and asks nobody whose they are; adding leaves sparse runs out. A sector of
another file in one of the runs is lost, or goes to the record without a look at the paths. -/

namespace LoPhi.Ntfs.Reload
open LoPhi.Lib.Effect LoPhi.Ntfs.Volume LoPhi.Ntfs.Engine LoPhi.Ntfs.Refresh

variable {g : Geometry} {n : Nat} {f : File} {e : SevNtfsSparse}

/-- A sector of a run that lies on the volume. -/
def InBounds (g : Geometry) (run : Run) (s : Nat) : Prop :=
  ¬ outOfBounds g run ∧ s ∈ runSectors g run

instance (g : Geometry) (run : Run) (s : Nat) : Decidable (InBounds g run s) :=
  inferInstanceAs (Decidable (_ ∧ _))

/-- The sectors cleaning takes. -/
def Cleaned (g : Geometry) (f : File) (s : Nat) : Prop := ∃ run ∈ f.runs, InBounds g run s

instance (g : Geometry) (f : File) (s : Nat) : Decidable (Cleaned g f s) :=
  inferInstanceAs (Decidable (∃ run ∈ f.runs, InBounds g run s))

/-- `_load_file_entry` adds the run. -/
def Loadable (f : File) (run : Run) : Prop := run.addr ≠ 0 ∨ f.name = some "$Boot"

/-- The sectors loading adds. -/
def Loaded (g : Geometry) (f : File) (s : Nat) : Prop :=
  ∃ run ∈ f.runs, Loadable f run ∧ InBounds g run s

instance (g : Geometry) (f : File) (s : Nat) : Decidable (Loaded g f s) :=
  inferInstanceAs (Decidable (∃ run ∈ f.runs, (_ ∨ _) ∧ InBounds g run s))

/-- Whose the sectors are once a record is loaded again. -/
def reloadOwner (g : Geometry) (fs : FileSystem) (n : Nat) (owners : Nat → Option Nat) (s : Nat) :
    Option Nat :=
  match fs.openMeta n with
  | none => owners s
  | some f => if Loaded g f s then some n else if Cleaned g f s then none else owners s

theorem Loaded.cleaned {s : Nat} (h : Loaded g f s) : Cleaned g f s := by
  obtain ⟨run, hrun, -, hs⟩ := h
  exact ⟨run, hrun, hs⟩

/-- Sectors of `S` may have got the owner `owner`; the records and the paths are the same. -/
structure Gives (owner : Option Nat) (S : Nat → Prop) (e e' : SevNtfsSparse) : Prop where
  owners : ∀ s, e'.sectorToInode s = e.sectorToInode s ∨ S s ∧ e'.sectorToInode s = owner
  inodeToPath : e'.inodeToPath = e.inodeToPath
  fileSystem : e'.fileSystem = e.fileSystem
  loads : e'.loads = e.loads
  mftRaw : e'.mftRaw = e.mftRaw
  oldMftRaw : e'.oldMftRaw = e.oldMftRaw

section Gives
variable {owner : Option Nat} {S : Nat → Prop}

theorem composes_gives (owner : Option Nat) (S : Nat → Prop) : Composes (Gives owner S) where
  refl e := ⟨fun _ => .inl rfl, rfl, rfl, rfl, rfl, rfl⟩
  trans := by
    intro e e' e'' h h'
    refine ⟨fun s => ?_, h'.inodeToPath.trans h.inodeToPath, h'.fileSystem.trans h.fileSystem,
      h'.loads.trans h.loads, h'.mftRaw.trans h.mftRaw, h'.oldMftRaw.trans h.oldMftRaw⟩
    rcases h'.owners s with hs' | hs'
    · rcases h.owners s with hs | ⟨hS, hs⟩
      · exact .inl (hs'.trans hs)
      · exact .inr ⟨hS, hs'.trans hs⟩
    · exact .inr hs'

theorem gives_log (e : SevNtfsSparse) (log : List LogEntry) :
    Gives owner S e { e with errorLog := log } :=
  ⟨fun _ => .inl rfl, rfl, rfl, rfl, rfl, rfl⟩

/-- What has the owner already keeps it. -/
theorem Gives.kept {e' : SevNtfsSparse} (h : Gives owner S e e') {s : Nat}
    (hs : e.sectorToInode s = owner) : e'.sectorToInode s = owner := by
  rcases h.owners s with hs' | ⟨-, hs'⟩
  · exact hs'.trans hs
  · exact hs'

end Gives

/-! ## Cleaning -/

theorem removeRun_gives (run : Run) (hrun : run ∈ f.runs) (e : SevNtfsSparse) :
    ∃ e', removeRun g n run e = (.ok (), e') ∧ True ∧ Gives none (Cleaned g f) e e' ∧
      ∀ s, InBounds g run s → e'.sectorToInode s = none := by
  unfold removeRun
  split
  · rename_i hout
    exact ⟨_, rfl, trivial, gives_log e _, fun s hs => absurd hout hs.1⟩
  · rename_i hin
    refine ⟨disown g run e, rfl, trivial, ⟨fun s => ?_, rfl, rfl, rfl, rfl, rfl⟩,
      fun s hs => if_pos hs.2⟩
    by_cases hs : s ∈ runSectors g run
    · exact .inr ⟨⟨run, hrun, hin, hs⟩, if_pos hs⟩
    · exact .inl (if_neg hs)

/-- A record that can be opened loses all sectors of its runs. -/
theorem cleanFileEntry_gives (hf : e.fileSystem.openMeta n = some f) :
    ∃ e', cleanFileEntry g n e = (.ok (), e') ∧ Gives none (Cleaned g f) e e' ∧
      ∀ s, Cleaned g f s → e'.sectorToInode s = none := by
  obtain ⟨e', hloop, -, hgives, hall⟩ := forM_establishes
    (composes_gives none (Cleaned g f)) (I := fun _ => True)
    (P := fun run e => ∀ s, InBounds g run s → e.sectorToInode s = none)
    (fun run e e' hgives hrun s hs => hgives.kept (hrun s hs))
    (fun run hrun e _ => removeRun_gives (n := n) run hrun e) (s := e) trivial
  refine ⟨e', ?_, hgives, fun s hs => ?_⟩
  · show (orRaise NtfsError.ioError (e.fileSystem.openMeta n) >>= fun f =>
      f.runs.forM (removeRun g n)) e = _
    rw [hf]
    exact hloop
  · obtain ⟨run, hrun, hs⟩ := hs
    exact hall run hrun s hs

theorem cleanFileEntry_unopened (hf : e.fileSystem.openMeta n = none) :
    cleanFileEntry g n e = (.error .ioError, e) := by
  show (orRaise NtfsError.ioError (e.fileSystem.openMeta n) >>= fun f =>
    f.runs.forM (removeRun g n)) e = _
  rw [hf]
  rfl

/-! ## Adding -/

/-- Nobody else owns a sector of `S`. -/
def FreeFor (n : Nat) (S : Nat → Prop) (e : SevNtfsSparse) : Prop :=
  ∀ s, S s → e.sectorToInode s = none ∨ e.sectorToInode s = some n

theorem FreeFor.gives {S : Nat → Prop} {e' : SevNtfsSparse} (h : FreeFor n S e)
    (hgives : Gives (some n) S e e') : FreeFor n S e' := by
  intro s hs
  rcases hgives.owners s with hs' | ⟨-, hs'⟩
  · rw [hs']
    exact h s hs
  · exact .inr hs'

/-- Where nobody else owns the sector, there is no collision. -/
theorem addSector_free {S : Nat → Prop} (h : FreeFor n S e) {s : Nat} (hs : S s) (block : Nat) :
    addSector n block s e = (.ok (), own n s e) := by
  unfold addSector
  dsimp only
  rcases h s hs with hnone | hown
  · rw [hnone]
    rfl
  · rw [hown]
    exact if_pos rfl

theorem own_gives {S : Nat → Prop} {s : Nat} (hs : S s) (e : SevNtfsSparse) :
    Gives (some n) S e (own n s e) := by
  refine ⟨fun s' => ?_, rfl, rfl, rfl, rfl, rfl⟩
  by_cases heq : s' = s
  · exact .inr ⟨heq ▸ hs, if_pos heq⟩
  · exact .inl (if_neg heq)

theorem addRun_free {S : Nat → Prop} (h : FreeFor n S e) {run : Run}
    (hS : ∀ s, InBounds g run s → S s) :
    ∃ e', addRun g n run e = (.ok (), e') ∧ FreeFor n S e' ∧ Gives (some n) S e e' ∧
      ∀ s, InBounds g run s → e'.sectorToInode s = some n := by
  unfold addRun
  split
  · rename_i hout
    exact ⟨_, rfl, h, gives_log e _, fun s hs => absurd hout hs.1⟩
  · rename_i hin
    have hblock : ∀ i ∈ List.range run.length, ∀ e, FreeFor n S e → ∃ e',
        (blockToSectors g (run.addr + i)).forM (addSector n (run.addr + i)) e = (.ok (), e') ∧
        FreeFor n S e' ∧ Gives (some n) S e e' ∧
        ∀ s ∈ blockToSectors g (run.addr + i), e'.sectorToInode s = some n := by
      intro i hi e he
      refine forM_establishes (composes_gives _ _) (P := fun s e => e.sectorToInode s = some n)
        (fun s e e' hgives hs => hgives.kept hs) (fun s hs e he => ?_) he
      have hSs : S s := hS s ⟨hin, List.mem_flatMap.mpr ⟨i, hi, hs⟩⟩
      exact ⟨_, addSector_free he hSs _, he.gives (own_gives hSs e), own_gives hSs e, if_pos rfl⟩
    obtain ⟨e', hrun, hfree, hgives, hall⟩ := forM_establishes (composes_gives _ _)
      (fun i e e' hgives hmapped s hs => hgives.kept (hmapped s hs)) hblock h
    refine ⟨e', hrun, hfree, hgives, fun s hs => ?_⟩
    obtain ⟨i, hi, hs⟩ := List.mem_flatMap.mp hs.2
    exact hall i hi s hs

/-- The runs of a record nobody else has sectors of become its own. -/
theorem loadRuns_free {S : Nat → Prop} (h : FreeFor n S e) (hS : ∀ s, Loaded g f s → S s) :
    ∃ e', loadRuns g n f e = (.ok (), e') ∧
      Gives (some n) S { e with loads := (n, f.runs) :: e.loads } e' ∧
      ∀ s, Loaded g f s → e'.sectorToInode s = some n := by
  have hbody : ∀ run ∈ f.runs, ∀ e, FreeFor n S e → ∃ e',
      (if run.addr ≠ 0 ∨ f.name = some "$Boot" then addRun g n run else pure () : Method Unit) e =
        (.ok (), e') ∧ FreeFor n S e' ∧ Gives (some n) S e e' ∧
      (Loadable f run → ∀ s, InBounds g run s → e'.sectorToInode s = some n) := by
    intro run hrun e he
    split
    · rename_i hloadable
      obtain ⟨e', hadd, hfree, hgives, hall⟩ :=
        addRun_free he fun s hs => hS s ⟨run, hrun, hloadable, hs⟩
      exact ⟨e', hadd, hfree, hgives, fun _ => hall⟩
    · rename_i hsparse
      exact ⟨e, rfl, he, (composes_gives _ _).refl e, fun hloadable => absurd hloadable hsparse⟩
  obtain ⟨e', hrun, -, hgives, hall⟩ := forM_establishes (composes_gives _ _)
    (fun run e e' hgives hmapped hloadable s hs => hgives.kept (hmapped hloadable s hs)) hbody
    (s := { e with loads := (n, f.runs) :: e.loads }) h
  refine ⟨e', hrun, hgives, fun s hs => ?_⟩
  obtain ⟨run, hrun', hloadable, hs⟩ := hs
  exact hall run hrun' hloadable s hs

/-- Looking for the sectors of a record changes the notes about resident attributes only. -/
theorem mftRecordToSectors_eq (n : Nat) {runs : List Run}
    (hruns : mftDataruns e.fileSystem = some runs) :
    ∃ resident, mftRecordToSectors g n e =
      (.ok (recordSectors g runs n), { e with sectorResident := resident }) := by
  refine ⟨(mftRecordToSectors g n e).2.sectorResident, Prod.ext ?_ ?_⟩
  · exact mftRecordToSectors_returns n hruns
  · unfold mftRecordToSectors
    rw [hruns]
    dsimp only
    split
    · rfl
    · dsimp only
      split
      · rfl
      · rfl

theorem loadFileEntry_eq {runs : List Run} (hruns : mftDataruns e.fileSystem = some runs)
    (hf : e.fileSystem.openMeta n = some f) :
    ∃ resident, loadFileEntry g n e = loadRuns g n f { e with sectorResident := resident } := by
  obtain ⟨resident, hlookup⟩ := mftRecordToSectors_eq (g := g) n hruns
  refine ⟨resident, (bind_ok hlookup).trans ?_⟩
  show (orRaise NtfsError.ioError (e.fileSystem.openMeta n) >>= fun f => loadRuns g n f) _ = _
  rw [hf]
  rfl

/-! ## Both -/

/-- What a reload makes of the owners: the sectors of the runs that can be loaded become the
record's, those of its other runs nobody's. -/
structure Reloaded (g : Geometry) (n : Nat) (f : File) (e e' : SevNtfsSparse) : Prop where
  loaded : ∀ s, Loaded g f s → e'.sectorToInode s = some n
  cleaned : ∀ s, Cleaned g f s → ¬ Loaded g f s → e'.sectorToInode s = none
  other : ∀ s, ¬ Cleaned g f s → e'.sectorToInode s = e.sectorToInode s
  inodeToPath : e'.inodeToPath = e.inodeToPath
  fileSystem : e'.fileSystem = e.fileSystem
  loads : e'.loads = (n, f.runs) :: e.loads
  mftRaw : e'.mftRaw = e.mftRaw
  oldMftRaw : e'.oldMftRaw = e.oldMftRaw

theorem Reloaded.reloadOwner {e' : SevNtfsSparse} (h : Reloaded g n f e e')
    (hf : e.fileSystem.openMeta n = some f) :
    e'.sectorToInode = Reload.reloadOwner g e.fileSystem n e.sectorToInode := by
  funext s
  unfold Reload.reloadOwner
  rw [hf]
  dsimp only
  split
  · rename_i hloaded
    exact h.loaded s hloaded
  · rename_i hnot
    split
    · rename_i hcleaned
      exact h.cleaned s hcleaned hnot
    · rename_i hcleaned
      exact h.other s hcleaned

theorem reloadFileEntry_eq {runs : List Run} (hruns : mftDataruns e.fileSystem = some runs)
    (hf : e.fileSystem.openMeta n = some f) :
    ∃ e', reloadFileEntry g n e = (.ok (), e') ∧ Reloaded g n f e e' := by
  obtain ⟨e₁, hclean, hgives₁, hnone⟩ := cleanFileEntry_gives (g := g) hf
  have hfs := hgives₁.fileSystem
  rw [← hfs] at hruns hf
  obtain ⟨resident, hload⟩ := loadFileEntry_eq (g := g) hruns hf
  have hfree : FreeFor n (Loaded g f) { e₁ with sectorResident := resident } :=
    fun s hs => .inl (hnone s hs.cleaned)
  obtain ⟨e₂, hadd, hgives₂, hown⟩ := loadRuns_free hfree fun s hs => hs
  refine ⟨e₂, (bind_ok hclean).trans (hload.trans hadd), hown, fun s hs hnot => ?_,
    fun s hs => ?_, hgives₂.inodeToPath.trans hgives₁.inodeToPath, hgives₂.fileSystem.trans hfs,
    hgives₂.loads.trans (congrArg (List.cons _) hgives₁.loads),
    hgives₂.mftRaw.trans hgives₁.mftRaw, hgives₂.oldMftRaw.trans hgives₁.oldMftRaw⟩
  · rcases hgives₂.owners s with hs' | ⟨hloaded, -⟩
    · exact hs'.trans (hnone s hs)
    · exact absurd hloaded hnot
  · rcases hgives₂.owners s with hs' | ⟨hloaded, -⟩
    · rcases hgives₁.owners s with hs'' | ⟨hcleaned, -⟩
      · exact hs'.trans hs''
      · exact absurd hcleaned hs
    · exact absurd hloaded.cleaned hs

/-- Without the `$MFT` nothing is added after cleaning. -/
theorem reloadFileEntry_lost (hruns : mftDataruns e.fileSystem = none)
    (hf : e.fileSystem.openMeta n = some f) :
    ∃ e', reloadFileEntry g n e = (.error .ioError, e') ∧
      (∀ s, Cleaned g f s → e'.sectorToInode s = none) ∧
      ∀ s, ¬ Cleaned g f s → e'.sectorToInode s = e.sectorToInode s := by
  obtain ⟨e₁, hclean, hgives, hnone⟩ := cleanFileEntry_gives (g := g) hf
  rw [← hgives.fileSystem] at hruns
  have hlookup : mftRecordToSectors g n e₁ = (.error .ioError, e₁) := by
    unfold mftRecordToSectors
    rw [hruns]
  refine ⟨e₁, (bind_ok hclean).trans (bind_error hlookup), hnone, fun s hs => ?_⟩
  rcases hgives.owners s with hs' | ⟨hcleaned, -⟩
  · exact hs'
  · exact absurd hcleaned hs

theorem reloadFileEntry_unopened (hf : e.fileSystem.openMeta n = none) :
    reloadFileEntry g n e = (.error .ioError, e) := bind_error (cleanFileEntry_unopened hf)

/-! ## Other files -/

/-- The path is not known, or is one of a metafile. -/
def Special (e : SevNtfsSparse) (inode : Nat) : Prop :=
  (e.inodeToPath inode).getD "" = "" ∨ ((e.inodeToPath inode).getD "").toList[1]? = some '$'

/-- A reload leaves the sectors of other files alone, but for those of runs it adds where one of
the two paths is special. -/
def Undisturbed (g : Geometry) (e : SevNtfsSparse) (n : Nat) : Prop :=
  ∀ s m, e.sectorToInode s = some m → m ≠ n →
    (reloadFileEntry g n e).2.sectorToInode s = some m ∨
      (reloadFileEntry g n e).2.sectorToInode s = some n ∧
        (∃ f, e.fileSystem.openMeta n = some f ∧ Loaded g f s) ∧ (Special e n ∨ Special e m)

/-- **A reload does not disturb other files if and only if** the `$MFT` can be opened and every
sector of another file in one of the record's runs on the volume lies in one that is loaded, and
one of the two paths is special. -/
theorem undisturbed_iff (g : Geometry) (e : SevNtfsSparse) (n : Nat) :
    Undisturbed g e n ↔
      ∀ f, e.fileSystem.openMeta n = some f → ∀ s m, e.sectorToInode s = some m → m ≠ n →
        Cleaned g f s → (e.fileSystem.openMeta 0).isSome ∧ Loaded g f s ∧
          (Special e n ∨ Special e m) := by
  have hmft : (mftDataruns e.fileSystem).isSome = (e.fileSystem.openMeta 0).isSome :=
    Option.isSome_map
  cases hf : e.fileSystem.openMeta n with
  | none =>
    constructor
    · intro _ f hf'
      cases hf'
    · intro _ s m hs _
      rw [reloadFileEntry_unopened hf]
      exact .inl hs
  | some f =>
    rw [← hmft]
    cases hruns : mftDataruns e.fileSystem with
    | none =>
      obtain ⟨e', hreload, hnone, hother⟩ := reloadFileEntry_lost (g := g) hruns hf
      unfold Undisturbed
      rw [hreload]
      constructor
      · intro h f' hf' s m hs hne hcleaned
        cases hf'
        rcases h s m hs hne with h | ⟨h, -⟩
        · rw [hnone s hcleaned] at h
          cases h
        · rw [hnone s hcleaned] at h
          cases h
      · intro h s m hs hne
        by_cases hcleaned : Cleaned g f s
        · cases (h f rfl s m hs hne hcleaned).1
        · exact .inl ((hother s hcleaned).trans hs)
    | some runs =>
      obtain ⟨e', hreload, hresult⟩ := reloadFileEntry_eq (g := g) hruns hf
      unfold Undisturbed
      rw [hreload]
      constructor
      · intro h f' hf' s m hs hne hcleaned
        cases hf'
        have hloaded : Loaded g f s := by
          by_contra hnot
          have hnone := hresult.cleaned s hcleaned hnot
          rcases h s m hs hne with h | ⟨h, -⟩
          · rw [hnone] at h
            cases h
          · rw [hnone] at h
            cases h
        refine ⟨rfl, hloaded, ?_⟩
        rcases h s m hs hne with h | ⟨-, -, hspecial⟩
        · rw [hresult.loaded s hloaded] at h
          cases h
          exact absurd rfl hne
        · exact hspecial
      · intro h s m hs hne
        by_cases hcleaned : Cleaned g f s
        · obtain ⟨-, hloaded, hspecial⟩ := h f rfl s m hs hne hcleaned
          exact .inr ⟨hresult.loaded s hloaded, ⟨f, hf, hloaded⟩, hspecial⟩
        · exact .inl ((hresult.other s hcleaned).trans hs)

/-- A boot record in the first block, and two files that share block 9, one of them with a sparse
run. -/
def sharedBlock : FileSystem where
  lastInum := 3
  rootInum := 5
  openMeta n :=
    if n = 0 then some { attributes := [⟨true, [⟨4, 1⟩]⟩], name := some "$MFT" }
    else if n = 1 then some { attributes := [⟨true, [⟨1, 0⟩]⟩], name := some "$Boot" }
    else if n = 2 then some { attributes := [⟨true, [⟨1, 9⟩]⟩], name := some "a" }
    else if n = 3 then some { attributes := [⟨true, [⟨1, 0⟩, ⟨1, 9⟩]⟩], name := some "b" }
    else none
  openDir _ := some [.mk "$Boot" (some 1) false [], .mk "a" (some 2) false [],
    .mk "b" (some 3) false []]

/-- The engine once it has loaded the file system. -/
def sharedEngine : SevNtfsSparse :=
  (loadFileSystem tinyVolume
    { img := fun _ => 0, fileSystem := sharedBlock, rootInum := 5, lastInum := 3 }).2

/-- The file with the sparse run takes the boot record its sectors, and the other file those of
the shared block. -/
theorem sparse_reload_disturbs :
    ¬ (∀ (g : Geometry) (e : SevNtfsSparse) (n : Nat), Undisturbed g e n) ∧
      sharedEngine.sectorToInode 0 = some 1 ∧
      (reloadFileEntry tinyVolume 3 sharedEngine).2.sectorToInode 0 = none ∧
      sharedEngine.sectorToInode 18 = some 2 ∧
      (reloadFileEntry tinyVolume 3 sharedEngine).2.sectorToInode 18 = some 3 := by
  have hboot : sharedEngine.sectorToInode 0 = some 1 := by decide +kernel
  have hlost : (reloadFileEntry tinyVolume 3 sharedEngine).2.sectorToInode 0 = none := by
    decide +kernel
  refine ⟨fun h => ?_, hboot, hlost, by decide +kernel, by decide +kernel⟩
  rcases h tinyVolume sharedEngine 3 0 1 hboot (by decide) with hkept | ⟨htaken, -⟩
  · rw [hlost] at hkept
    cases hkept
  · rw [hlost] at htaken
    cases htaken

end LoPhi.Ntfs.Reload
