import LoPhi.Ntfs.Reload
import LoPhi.Ntfs.Resident

/-! # Adding a run

`_add_run` gives the sectors of a run to a record. Where another record has a sector, the second
letter of the two paths is looked at in order to tell metafiles, and a path of one letter has no
second one: the root directory is `/`. -/

namespace LoPhi.Ntfs.Runs
open LoPhi.Lib.Effect LoPhi.Ntfs.Volume LoPhi.Ntfs.Engine LoPhi.Ntfs.Refresh LoPhi.Ntfs.Reload
open LoPhi.Ntfs.Resident (opened)

variable {g : Geometry} {n : Nat} {run : Run} {e e' : SevNtfsSparse}

/-! ## Collisions -/

/-- The path is a single letter. -/
def OneLetter (e : SevNtfsSparse) (n : Nat) : Prop :=
  (e.inodeToPath n).getD "" ≠ "" ∧ ((e.inodeToPath n).getD "").toList[1]? = none

/-- The comparison of the paths of two records raises. -/
def Fault (e : SevNtfsSparse) (n m : Nat) : Prop :=
  OneLetter e n ∨ (¬ Special e n ∧ OneLetter e m)

/-- No other record has the sector that the comparison would raise for. -/
def Quiet (n s : Nat) (e : SevNtfsSparse) : Prop :=
  ∀ m, e.sectorToInode s = some m → m ≠ n → ¬ Fault e n m

/-- The sector is the record's, or stays another's and the collision of the two is logged. -/
def Settled (n s : Nat) (e : SevNtfsSparse) : Prop :=
  e.sectorToInode s = some n ∨
    ∃ m, m ≠ n ∧ e.sectorToInode s = some m ∧
      ∃ f1Name f2Name block, .datarunCollision f1Name n f2Name m block ∈ e.errorLog

theorem plainNames_fault {m : Nat} (h : Fault e n m) :
    plainNames ((e.inodeToPath n).getD "") ((e.inodeToPath m).getD "") = .error .indexError := by
  unfold plainNames
  obtain ⟨hsome, hone⟩ | ⟨hplain, hsome, hone⟩ := h
  · rw [if_neg hsome, hone]
  · unfold Special at hplain
    push Not at hplain
    rw [if_neg hplain.1]
    split
    · rfl
    · rename_i hdollar
      exact absurd hdollar hplain.2
    · rw [if_neg hsome, hone]

theorem plainNames_quiet {m : Nat} (h : ¬ Fault e n m) :
    ∃ plain, plainNames ((e.inodeToPath n).getD "") ((e.inodeToPath m).getD "") = .ok plain := by
  unfold plainNames
  split
  · exact ⟨_, rfl⟩
  · rename_i hsome
    split
    · rename_i hone
      exact absurd (.inl ⟨hsome, hone⟩) h
    · exact ⟨_, rfl⟩
    · rename_i c hdollar hc
      split
      · exact ⟨_, rfl⟩
      · rename_i hsome'
        split
        · rename_i hone
          refine absurd (.inr ⟨?_, hsome', hone⟩) h
          rintro (hnone | hspecial)
          · exact hsome hnone
          · rw [hc] at hspecial
            exact hdollar (Option.some.inj hspecial)
        · exact ⟨_, rfl⟩

/-- What adding a run of the record may change: sectors become its own, and the log grows. -/
structure Evolves (n : Nat) (e e' : SevNtfsSparse) : Prop where
  owners : ∀ s, e'.sectorToInode s = e.sectorToInode s ∨ e'.sectorToInode s = some n
  paths : e'.inodeToPath = e.inodeToPath
  log : ∀ entry ∈ e.errorLog, entry ∈ e'.errorLog

theorem composes_evolves (n : Nat) : Composes (Evolves n) where
  refl e := ⟨fun _ => .inl rfl, rfl, fun _ h => h⟩
  trans h h' := by
    refine ⟨fun s => ?_, h'.paths.trans h.paths, fun entry hin => h'.log entry (h.log entry hin)⟩
    rcases h'.owners s with hs' | hs'
    · rw [hs']
      exact h.owners s
    · exact .inr hs'

theorem Evolves.quiet (h : Evolves n e e') {s : Nat} (hs : Quiet n s e) : Quiet n s e' := by
  intro m hm hne
  unfold Fault OneLetter Special
  rw [h.paths]
  rcases h.owners s with hs' | hs'
  · rw [hs'] at hm
    exact hs m hm hne
  · rw [hs'] at hm
    exact absurd (Option.some.inj hm).symm hne

theorem Evolves.settled (h : Evolves n e e') {s : Nat} (hs : Settled n s e) : Settled n s e' := by
  rcases h.owners s with hs' | hs'
  · rcases hs with hown | ⟨m, hne, hm, f1Name, f2Name, block, hlog⟩
    · exact .inl (hs'.trans hown)
    · exact .inr ⟨m, hne, hs'.trans hm, f1Name, f2Name, block, h.log _ hlog⟩
  · exact .inl hs'

theorem own_evolves (s : Nat) (e : SevNtfsSparse) : Evolves n e (own n s e) := by
  refine ⟨fun s' => ?_, rfl, fun _ h => h⟩
  by_cases heq : s' = s
  · exact .inr (if_pos heq)
  · exact .inl (if_neg heq)

theorem addSector_quiet {s : Nat} (h : Quiet n s e) (block : Nat) :
    ∃ e', addSector n block s e = (.ok (), e') ∧ Evolves n e e' ∧ Settled n s e' := by
  have hown : Evolves n e (own n s e) ∧ Settled n s (own n s e) :=
    ⟨own_evolves s e, .inl (if_pos rfl)⟩
  unfold addSector
  dsimp only
  split
  · exact ⟨_, rfl, hown⟩
  · rename_i m hm
    split
    · exact ⟨_, rfl, hown⟩
    · rename_i hne
      obtain ⟨plain, hplain⟩ := plainNames_quiet (h m hm (Ne.symm hne))
      rw [hplain]
      cases plain with
      | false => exact ⟨_, rfl, hown⟩
      | true =>
        refine ⟨_, rfl, ⟨fun _ => .inl rfl, rfl, fun _ hin => List.mem_append_left _ hin⟩, ?_⟩
        exact .inr ⟨m, Ne.symm hne, hm, _, _, block, List.mem_append_right _ List.mem_cons_self⟩

/-- At most this sector has another owner. -/
structure OnlyAt (s : Nat) (e e' : SevNtfsSparse) : Prop where
  owners : ∀ t, t ≠ s → e'.sectorToInode t = e.sectorToInode t
  paths : e'.inodeToPath = e.inodeToPath

theorem composes_onlyAt (s : Nat) : Composes (OnlyAt s) where
  refl _ := ⟨fun _ _ => rfl, rfl⟩
  trans h h' := ⟨fun t ht => (h'.owners t ht).trans (h.owners t ht), h'.paths.trans h.paths⟩

theorem addSector_onlyAt (n block s : Nat) : Keeps (OnlyAt s) (addSector n block s) :=
  keeps_addSector (composes_onlyAt s) (fun _ _ => ⟨fun _ _ => rfl, rfl⟩)
    (fun _ => ⟨fun _ ht => if_neg ht, rfl⟩) block

/-- A sector is passed only if the comparison does not raise, and the others stay as they are. -/
theorem quiet_of_addSector {s block : Nat} {a : Unit}
    (h : addSector n block s e = (.ok a, e')) :
    (∀ t, Quiet n t e' → Quiet n t e) ∧ Quiet n s e := by
  have hs : Quiet n s e := by
    intro m hm hne hfault
    unfold addSector at h
    dsimp only at h
    rw [hm] at h
    dsimp only at h
    rw [if_neg (Ne.symm hne), plainNames_fault hfault] at h
    cases h
  refine ⟨fun t ht m hm hne => ?_, hs⟩
  by_cases heq : t = s
  · rw [heq] at hm
    exact hs m hm hne
  · have honly := addSector_onlyAt n block s e
    rw [h] at honly
    have hfault := ht m ((honly.owners t heq).trans hm) hne
    unfold Fault OneLetter Special at hfault ⊢
    rw [honly.paths] at hfault
    exact hfault

/-! ## The run -/

/-- The run can be added: every sector of it that lies on the volume is quiet. -/
def Addable (g : Geometry) (n : Nat) (run : Run) (e : SevNtfsSparse) : Prop :=
  ∀ s, InBounds g run s → Quiet n s e

theorem addRun_settles (h : Addable g n run e) :
    ∃ e', addRun g n run e = (.ok (), e') ∧ ∀ s, InBounds g run s → Settled n s e' := by
  unfold addRun
  split
  · rename_i hout
    exact ⟨_, rfl, fun s hs => absurd hout hs.1⟩
  · rename_i hin
    have hsector : ∀ i ∈ List.range run.length, ∀ e, Addable g n run e → ∃ e',
        (blockToSectors g (run.addr + i)).forM (addSector n (run.addr + i)) e = (.ok (), e') ∧
        Addable g n run e' ∧ Evolves n e e' ∧
        ∀ s ∈ blockToSectors g (run.addr + i), Settled n s e' := by
      intro i hi e he
      refine forM_establishes (composes_evolves n) (P := Settled n)
        (fun s e e' hevolves hs => hevolves.settled hs) (fun s hs e he => ?_) he
      obtain ⟨e', hadd, hevolves, hsettled⟩ :=
        addSector_quiet (he s ⟨hin, List.mem_flatMap.mpr ⟨i, hi, hs⟩⟩) (run.addr + i)
      exact ⟨e', hadd, fun t ht => hevolves.quiet (he t ht), hevolves, hsettled⟩
    obtain ⟨e', hrun, -, -, hall⟩ := forM_establishes (composes_evolves n)
      (fun i e e' hevolves hsettled s hs => hevolves.settled (hsettled s hs)) hsector h
    refine ⟨e', hrun, fun s hs => ?_⟩
    obtain ⟨i, hi, hs⟩ := List.mem_flatMap.mp hs.2
    exact hall i hi s hs

/-- What is quiet afterwards was quiet before. -/
theorem composes_quiet (n : Nat) :
    Composes fun e e' : SevNtfsSparse => ∀ t, Quiet n t e' → Quiet n t e where
  refl _ _ h := h
  trans h h' t ht := h t (h' t ht)

theorem addable_of_addRun {a : Unit} (h : addRun g n run e = (.ok a, e')) :
    Addable g n run e := by
  intro s hs
  unfold addRun at h
  rw [if_neg hs.1] at h
  obtain ⟨-, hall⟩ := forM_requires (composes_quiet n)
    (P := fun i e => ∀ s ∈ blockToSectors g (run.addr + i), Quiet n s e)
    (fun i e e' hback hquiet s hs => hback s (hquiet s hs))
    (fun i _ e a e' hi => forM_requires (composes_quiet n)
      (P := fun s e => Quiet n s e) (fun s e e' hback hquiet => hback s hquiet)
      (fun s _ e a e' hadd => quiet_of_addSector hadd) hi) h
  obtain ⟨i, hi, hin⟩ := List.mem_flatMap.mp hs.2
  exact hall i hi s hin

/-! ## The volume -/

/-- The sector lies in one of the blocks of the volume. -/
def InVolume (g : Geometry) (s : Nat) : Prop :=
  ∃ block < g.blockCount, s ∈ blockToSectors g block

/-- Only sectors of the volume have an owner. -/
def KeysInVolume (g : Geometry) (e : SevNtfsSparse) : Prop :=
  ∀ s inode, e.sectorToInode s = some inode → InVolume g s

/-- The owners stay on the volume. -/
def StaysInVolume (g : Geometry) (e e' : SevNtfsSparse) : Prop :=
  KeysInVolume g e → KeysInVolume g e'

theorem composes_staysInVolume : Composes (StaysInVolume g) :=
  ⟨fun _ h => h, fun h h' hkeys => h' (h hkeys)⟩

theorem InBounds.inVolume {s : Nat} (h : InBounds g run s) : InVolume g s := by
  obtain ⟨hin, hs⟩ := h
  obtain ⟨i, hi, hs⟩ := List.mem_flatMap.mp hs
  have hlt := List.mem_range.mp hi
  unfold Engine.outOfBounds at hin
  exact ⟨run.addr + i, by omega, hs⟩

theorem addRun_inVolume (n : Nat) (run : Run) : Keeps (StaysInVolume g) (addRun g n run) := by
  unfold addRun
  split
  · exact keeps_modify fun _ h => h
  · rename_i hin
    refine keeps_forM composes_staysInVolume fun i hi =>
      keeps_forM composes_staysInVolume fun s hs => ?_
    refine keeps_addSector composes_staysInVolume (fun _ _ h => h) (fun e hkeys t inode ht => ?_) _
    by_cases heq : t = s
    · rw [heq]
      exact InBounds.inVolume ⟨hin, List.mem_flatMap.mpr ⟨i, hi, hs⟩⟩
    · exact hkeys t inode ((if_neg heq).symm.trans ht)

theorem loadRuns_inVolume (n : Nat) (f : File) : Keeps (StaysInVolume g) (loadRuns g n f) := by
  refine keeps_bind composes_staysInVolume (keeps_modify fun _ h => h) fun _ => ?_
  refine keeps_forM composes_staysInVolume fun run _ => ?_
  split
  · exact addRun_inVolume n run
  · exact keeps_pure composes_staysInVolume _

theorem loadFileEntry_inVolume (n : Nat) : Keeps (StaysInVolume g) (loadFileEntry g n) := by
  refine keeps_bind composes_staysInVolume (fun e hkeys s inode hs => ?_) fun _ => ?_
  · rw [mftRecordToSectors_owners] at hs
    exact hkeys s inode hs
  · refine keeps_read fun e => orRaise_allowed (composes_staysInVolume.refl e) fun f _ => ?_
    exact loadRuns_inVolume n f e

theorem loadFileSystem_inVolume : Keeps (StaysInVolume g) (loadFileSystem g) := by
  refine keeps_bind composes_staysInVolume (fun e hkeys => ?_) fun _ => ?_
  · obtain ⟨paths, hpaths⟩ := parsePaths_changes e
    rw [hpaths]
    exact hkeys
  · refine keeps_bind composes_staysInVolume (keeps_get composes_staysInVolume) fun e => ?_
    exact keeps_forM composes_staysInVolume fun n _ => loadFileEntry_inVolume n

/-! ## Runs on a loaded volume -/

/-- `_add_run` returns, every sector of a run that lies on the volume is the record's or has a
logged collision, and all sectors that have an owner lie on the volume. -/
def AddsRun (g : Geometry) (n : Nat) (run : Run) (e : SevNtfsSparse) : Prop :=
  ∃ e', addRun g n run e = (.ok (), e') ∧ (∀ s, InBounds g run s → Settled n s e') ∧
    KeysInVolume g e'

/-- **Adding a run is total and bounded if and only if** no sector of it on the volume belongs to
another record with one of the two paths a single letter, the other's only if the record's own is
neither missing nor that of a metafile. -/
theorem addsRun_iff {img : Nat → UInt8} {fs : FileSystem}
    (hload : loadFileSystem g (opened img fs) = (.ok (), e)) (n : Nat) (run : Run) :
    AddsRun g n run e ↔ Addable g n run e := by
  have hkeys : KeysInVolume g e := by
    have hstays := loadFileSystem_inVolume (g := g) (opened img fs) fun s inode hs => nomatch hs
    rw [hload] at hstays
    exact hstays
  constructor
  · rintro ⟨e', hadd, -⟩
    exact addable_of_addRun hadd
  · intro h
    obtain ⟨e', hadd, hsettled⟩ := addRun_settles h
    refine ⟨e', hadd, hsettled, ?_⟩
    have hstays := addRun_inVolume (g := g) n run e hkeys
    rw [hadd] at hstays
    exact hstays

/-! ## Two files and the root directory -/

/-- The root directory is record 1, with the block 4; the files `/abc` and `/xyz` are the records
2 and 3, with the blocks 5 and 6. -/
def twoFiles : FileSystem where
  lastInum := 3
  rootInum := 1
  openMeta n :=
    if n = 0 then some { attributes := [⟨true, [⟨2, 1⟩]⟩] }
    else if n ≤ 3 then some { attributes := [⟨true, [⟨1, n + 3⟩]⟩] }
    else none
  openDir _ := some [.mk "abc" (some 2) false [], .mk "xyz" (some 3) false []]

def twoFilesLoaded : SevNtfsSparse :=
  (loadFileSystem tinyVolume (opened (fun _ => 0) twoFiles)).2

theorem loadFileSystem_twoFiles :
    loadFileSystem tinyVolume (opened (fun _ => 0) twoFiles) = (.ok (), twoFilesLoaded) := by
  unfold twoFilesLoaded
  exact returns_of_fst (by decide +kernel)

/-- The two files collide, and the collision is logged. -/
theorem addsRun_collision : AddsRun tinyVolume 2 ⟨1, 6⟩ twoFilesLoaded := by
  refine (addsRun_iff loadFileSystem_twoFiles 2 ⟨1, 6⟩).mpr fun s hs m hm _ hfault => ?_
  have hsectors : runSectors tinyVolume ⟨1, 6⟩ = [12, 13] := by decide
  have howners : ∀ s ∈ [12, 13], twoFilesLoaded.sectorToInode s = some 3 := by decide +kernel
  have habc : twoFilesLoaded.inodeToPath 2 = some "/abc" := by decide +kernel
  have hxyz : twoFilesLoaded.inodeToPath 3 = some "/xyz" := by decide +kernel
  have hs' := hs.2
  rw [hsectors] at hs'
  rw [howners s hs'] at hm
  cases hm
  unfold Fault OneLetter at hfault
  rw [habc, hxyz] at hfault
  rcases hfault with ⟨-, hone⟩ | ⟨-, -, hone⟩
  · exact absurd hone (by decide)
  · exact absurd hone (by decide)

/-- A run of the root directory in a block of a file. -/
theorem root_run_raises :
    loadFileSystem tinyVolume (opened (fun _ => 0) twoFiles) = (.ok (), twoFilesLoaded) ∧
      (addRun tinyVolume 1 ⟨1, 5⟩ twoFilesLoaded).1 = .error .indexError ∧
      ¬ AddsRun tinyVolume 1 ⟨1, 5⟩ twoFilesLoaded := by
  have hraises : (addRun tinyVolume 1 ⟨1, 5⟩ twoFilesLoaded).1 = .error .indexError := by
    decide +kernel
  refine ⟨loadFileSystem_twoFiles, hraises, ?_⟩
  rintro ⟨e', hadd, -⟩
  rw [hadd] at hraises
  cases hraises

end LoPhi.Ntfs.Runs
