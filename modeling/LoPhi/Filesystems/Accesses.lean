import LoPhi.Filesystems.Blocks
import LoPhi.Filesystems.Scan

/-! # Accesses to a scanned volume

`get_access` looks up the file of every block and then the path of that file. In the tables that
the scan leaves no lookup of a path fails, and what an access returns is said by the tree. -/

namespace LoPhi.Filesystems.Accesses
open LoPhi.Lib LoPhi.Filesystems.Blocks LoPhi.Filesystems.Scan

/-- The volume that the scan leaves. -/
def volume (s : Scanned) (volumeOffset : Int) (sectorSize blockSize : Nat)
    (opens : String → Bool) : SemanticEngineVolumePyTSK FileObject where
  volumeOffset := volumeOffset
  sectorSize := sectorSize
  blockSize := blockSize
  fsBlockToFile := fun block => if 0 ≤ block then s.fsBlockToFile.get? block.toNat else none
  fsFileToPath := s.fsFileToPath.get?
  name := FileObject.name
  opens := opens

/-- Every file of a block has a path. -/
def Total {F : Type} (v : SemanticEngineVolumePyTSK F) : Prop :=
  ∀ block f, v.fsBlockToFile block = some f → ∃ path, v.fsFileToPath f = some path

/-- The path that is reported for a block. -/
def pathAt {F : Type} (v : SemanticEngineVolumePyTSK F) (block : Int) : Option String :=
  (v.fsBlockToFile block).bind v.fsFileToPath

/-- The blocks that go to a path. -/
def blocksOf {F : Type} (v : SemanticEngineVolumePyTSK F) (path : String) (blocks : List Int) :
    List Int :=
  blocks.filter fun block => pathAt v block = some path

/-- What the loop has collected after some blocks. -/
structure Collects {F : Type} (v : SemanticEngineVolumePyTSK F) (blocks : List Int)
    (c : Collected F) : Prop where
  files : ∀ f, f ∈ c.files ↔ ∃ block ∈ blocks, v.fsBlockToFile block = some f
  output : ∀ path, c.outputDict.get? path =
    if blocksOf v path blocks = [] then none else some { blocks := blocksOf v path blocks }

section Access
variable {F : Type} [DecidableEq F] {v : SemanticEngineVolumePyTSK F} {blocks more : List Int}
  {block : Int} {c : Collected F} {direction : Direction} {data : List UInt8} {files : List F}
  {output : Dict String Output} {path : String}

omit [DecidableEq F] in
theorem blocksOf_concat (v : SemanticEngineVolumePyTSK F) (path : String) (blocks : List Int)
    (block : Int) : blocksOf v path (blocks ++ [block]) =
      blocksOf v path blocks ++ if pathAt v block = some path then [block] else [] := by
  unfold blocksOf
  rw [List.filter_append]
  congr 1
  by_cases hpath : pathAt v block = some path
  · simp [hpath]
  · simp [hpath]

theorem collect_collects (hv : Total v) (hc : Collects v blocks c) :
    ∃ c', collect v c block = .ok c' ∧ Collects v (blocks ++ [block]) c' := by
  unfold collect
  cases hfile : v.fsBlockToFile block with
  | none =>
    have hpath : ∀ path, pathAt v block ≠ some path := by simp [pathAt, hfile]
    refine ⟨_, rfl, fun f => ?_, fun path => ?_⟩
    · rw [hc.files]
      constructor
      · rintro ⟨b, hb, hf⟩
        exact ⟨b, List.mem_append_left _ hb, hf⟩
      · rintro ⟨b, hb, hf⟩
        rcases List.mem_append.mp hb with hb | hb
        · exact ⟨b, hb, hf⟩
        · rw [List.mem_singleton.mp hb, hfile] at hf
          cases hf
    · rw [blocksOf_concat, if_neg (hpath path), List.append_nil]
      exact hc.output path
  | some f =>
    obtain ⟨filename, hfilename⟩ := hv block f hfile
    have hpath : pathAt v block = some filename := by simp [pathAt, hfile, hfilename]
    dsimp only
    rw [hfilename]
    refine ⟨_, rfl, fun f' => ?_, fun path => ?_⟩
    · have hmem : f' ∈ (if f ∈ c.files then c.files else c.files ++ [f]) ↔
          f' ∈ c.files ∨ f' = f := by
        split
        · rename_i hin
          constructor
          · exact .inl
          · rintro (hf' | rfl)
            · exact hf'
            · exact hin
        · simp
      refine hmem.trans ?_
      rw [hc.files]
      constructor
      · rintro (⟨b, hb, hf'⟩ | rfl)
        · exact ⟨b, List.mem_append_left _ hb, hf'⟩
        · exact ⟨block, by simp, hfile⟩
      · rintro ⟨b, hb, hf'⟩
        rcases List.mem_append.mp hb with hb | hb
        · exact .inl ⟨b, hb, hf'⟩
        · rw [List.mem_singleton.mp hb, hfile] at hf'
          exact .inr (Option.some.inj hf').symm
    · rw [Dict.get?_alter, hc.output, hc.output, blocksOf_concat, hpath]
      by_cases heq : path = filename
      · subst heq
        rw [if_pos rfl, if_pos rfl]
        by_cases hempty : blocksOf v path blocks = []
        · simp [hempty]
        · simp [hempty]
      · have hne : ¬ some filename = some path := fun h => heq (Option.some.inj h).symm
        rw [if_neg heq, if_neg hne, List.append_nil]

/-- The plain loop over blocks whose files have paths. -/
theorem foldlM_collects (hv : Total v) (hc : Collects v blocks c) :
    ∃ c', more.foldlM (collect v) c = .ok c' ∧ Collects v (blocks ++ more) c' := by
  induction more generalizing blocks c with
  | nil => exact ⟨c, rfl, by rwa [List.append_nil]⟩
  | cons block more ih =>
    obtain ⟨between, hcollect, hbetween⟩ := @collect_collects _ _ v _ block _ hv hc
    obtain ⟨c', hrest, hc'⟩ := ih hbetween
    refine ⟨c', ?_, ?_⟩
    · rw [List.foldlM_cons, hcollect]
      exact hrest
    · rwa [List.append_assoc] at hc'

/-! ## Labels -/

/-- The entry of a file with the operation and the data. -/
def mark (v : SemanticEngineVolumePyTSK F) (direction : Direction) (data : List UInt8)
    (output : Dict String Output) (f : F) : Dict String Output :=
  match v.fsFileToPath f with
  | none => output
  | some path => output.alter path fun out =>
    { out.getD { blocks := [] } with op := some direction, data := some data }

omit [DecidableEq F] in
theorem label_none (hpaths : ∀ f ∈ files, ∃ path, v.fsFileToPath f = some path) :
    label v direction data none files output =
      .ok (files.foldl (mark v direction data) output) := by
  induction files generalizing output with
  | nil => rfl
  | cons f files ih =>
    obtain ⟨path, hpath⟩ := hpaths f List.mem_cons_self
    unfold label
    rw [hpath, List.foldl_cons, mark, hpath]
    exact ih fun f' hf' => hpaths f' (List.mem_cons_of_mem _ hf')

omit [DecidableEq F] in
/-- Going through the access again ends as it would have without. -/
theorem label_again (data : List UInt8) (output : Dict String Output)
    (again : Except VolumeError (Dict String Output))
    (hpaths : ∀ f ∈ files, ∃ path, v.fsFileToPath f = some path)
    (hopens : direction = .write → ∀ f ∈ files, v.name f ∈ updateFiles →
      ∀ path, v.fsFileToPath f = some path → v.opens path = true) :
    label v direction data (some again) files output = again ∨
      label v direction data (some again) files output =
        label v direction data none files output := by
  induction files generalizing output with
  | nil => exact .inr rfl
  | cons f files ih =>
    obtain ⟨path, hpath⟩ := hpaths f List.mem_cons_self
    unfold label
    rw [hpath]
    dsimp only
    by_cases hupdate : direction = .write ∧ v.name f ∈ updateFiles
    · rw [if_pos hupdate, if_pos (hopens hupdate.1 f List.mem_cons_self hupdate.2 path hpath)]
      exact .inl rfl
    · rw [if_neg hupdate]
      exact ih _ (fun f' hf' => hpaths f' (List.mem_cons_of_mem _ hf'))
        fun hwrite f' hf' => hopens hwrite f' (List.mem_cons_of_mem _ hf')

omit [DecidableEq F] in
theorem get?_foldl_mark (files : List F) (output : Dict String Output) (path : String) :
    (files.foldl (mark v direction data) output).get? path =
      if ∃ f ∈ files, v.fsFileToPath f = some path then
        some { (output.get? path).getD { blocks := [] } with
          op := some direction, data := some data }
      else output.get? path := by
  classical
  induction files generalizing output with
  | nil => simp
  | cons f files ih =>
    have hmark : (mark v direction data output f).get? path =
        if v.fsFileToPath f = some path then
          some { (output.get? path).getD { blocks := [] } with
            op := some direction, data := some data }
        else output.get? path := by
      unfold mark
      cases hpath : v.fsFileToPath f with
      | none => simp
      | some filename =>
        dsimp only
        rw [Dict.get?_alter]
        by_cases heq : path = filename
        · subst heq
          simp
        · have hne : ¬ some filename = some path := fun h => heq (Option.some.inj h).symm
          rw [if_neg heq, if_neg hne]
    rw [List.foldl_cons, ih, hmark]
    by_cases hf : v.fsFileToPath f = some path
    · by_cases hrest : ∃ f' ∈ files, v.fsFileToPath f' = some path
      · simp [hf, hrest]
      · simp [hf, hrest]
    · simp [hf]

/-- What an access to a volume whose files have paths returns: for each path the blocks of its
files, with the operation and the data. -/
theorem getAccess_total (hv : Total v) (haligned : Aligned v) (sector : Int) (sectorCount : Nat)
    (direction : Direction) (data : List UInt8)
    (hopens : direction = .write → ∀ block f, v.fsBlockToFile block = some f →
      v.name f ∈ updateFiles → ∀ path, v.fsFileToPath f = some path → v.opens path = true) :
    ∃ out, getAccess v sector sectorCount direction data = some (.ok out) ∧ ∀ path,
      out.get? path =
        if blocksOf v path (plainBlocks v sector sectorCount) = [] then none
        else some {
          blocks := blocksOf v path (plainBlocks v sector sectorCount)
          op := some direction
          data := some data } := by
  have hnew : Collects v [] {} := ⟨fun f => by simp, fun path => rfl⟩
  obtain ⟨c, hplain, hc⟩ : ∃ c, plainLoop v sector sectorCount = .ok c ∧
      Collects v ([] ++ plainBlocks v sector sectorCount) c := foldlM_collects hv hnew
  have hfiles : ∀ f ∈ c.files, ∃ path, v.fsFileToPath f = some path := by
    intro f hf
    obtain ⟨block, -, hfile⟩ := (hc.files f).mp hf
    exact hv block f hfile
  have hlabel : label v direction data none c.files c.outputDict =
      .ok (c.files.foldl (mark v direction data) c.outputDict) := label_none hfiles
  refine ⟨c.files.foldl (mark v direction data) c.outputDict, ?_, fun path => ?_⟩
  · have hagain := label_again data c.outputDict
      (.ok (c.files.foldl (mark v direction data) c.outputDict)) hfiles fun hwrite f hf => by
        obtain ⟨block, -, hfile⟩ := (hc.files f).mp hf
        exact hopens hwrite block f hfile
    unfold getAccess finish
    rw [accessLoop_plain haligned sector (Nat.lt_succ_self sectorCount), hplain]
    show some (label v direction data (some (label v direction data none c.files c.outputDict))
      c.files c.outputDict) = _
    rw [hlabel]
    rcases hagain with hagain | hagain
    · rw [hagain]
    · rw [hagain, hlabel]
  · have hiff : (∃ f ∈ c.files, v.fsFileToPath f = some path) ↔
        blocksOf v path (plainBlocks v sector sectorCount) ≠ [] := by
      constructor
      · rintro ⟨f, hf, hpath⟩
        obtain ⟨block, hblock, hfile⟩ := (hc.files f).mp hf
        refine List.ne_nil_of_mem (a := block) (List.mem_filter.mpr ⟨hblock, ?_⟩)
        simp [pathAt, hfile, hpath]
      · intro hne
        obtain ⟨block, hblock⟩ := List.exists_mem_of_ne_nil _ hne
        obtain ⟨hmem, hpath⟩ := List.mem_filter.mp hblock
        obtain ⟨f, hfile, hpath⟩ := Option.bind_eq_some_iff.mp (of_decide_eq_true hpath)
        exact ⟨f, (hc.files f).mpr ⟨block, hmem, hfile⟩, hpath⟩
    rw [get?_foldl_mark, hc.output, List.nil_append]
    by_cases hempty : blocksOf v path (plainBlocks v sector sectorCount) = []
    · rw [if_neg (fun h => hiff.mp h hempty), if_pos hempty, if_pos hempty]
    · rw [if_pos (hiff.mpr hempty), if_neg hempty, if_neg hempty]
      rfl

end Access

/-! ## After the scan -/

section AfterScan
variable {blockCount : Nat} {d : Directory} {s : Scanned} {volumeOffset sector : Int}
  {sectorSize blockSize : Nat} {opens : String → Bool} {block : Int} {f : FileObject}

theorem total_scanned (hd : Distinct d) (h : scanFileSystem blockCount "" d {} = .ok s) :
    Total (volume s volumeOffset sectorSize blockSize opens) := by
  intro block f hfile
  unfold volume at hfile ⊢
  dsimp only at hfile
  split at hfile
  · exact Option.isSome_iff_exists.mp ((scan_total hd h _ f hfile).1)
  · cases hfile

/-- **An access to a scanned volume is reported whole**: it never meets a file without a path, and
what it returns names for each path exactly the blocks it touches whose file the scan put there,
each once and in order. Only a write to the `$MFT` can fail, where the path does not open. -/
theorem getAccess_scanned (hd : Distinct d) (h : scanFileSystem blockCount "" d {} = .ok s)
    (haligned : Aligned (volume s volumeOffset sectorSize blockSize opens)) (sector : Int)
    (sectorCount : Nat) (direction : Direction) (data : List UInt8)
    (hopens : direction = .write → ∀ f path, (f, path) ∈ placed "" d → f.name ∈ updateFiles →
      opens path = true) :
    ∃ out, getAccess (volume s volumeOffset sectorSize blockSize opens) sector sectorCount
        direction data = some (.ok out) ∧
      (∀ path o, out.get? path = some o →
        o.op = some direction ∧ o.data = some data ∧ o.blocks.Pairwise (· < ·)) ∧
      ∀ path block, (∃ o, out.get? path = some o ∧ block ∈ o.blocks) ↔
        (∃ j < sectorCount, (sector + j - volumeOffset) * sectorSize / blockSize = block) ∧
        0 ≤ block ∧ ∃ f, s.fsBlockToFile.get? block.toNat = some f ∧ (f, path) ∈ placed "" d := by
  obtain ⟨out, haccess, hout⟩ := getAccess_total (total_scanned hd h) haligned sector
    sectorCount direction data fun hwrite _ f _ hname path hpath =>
      hopens hwrite f path ((paths_scanned hd h).mp hpath) hname
  have hblocks := blocksFrom_plainBlocks haligned sector sectorCount
  refine ⟨out, haccess, fun path o ho => ?_, fun path block => ?_⟩
  · rw [hout] at ho
    split at ho
    · cases ho
    · cases ho
      exact ⟨rfl, rfl, hblocks.increasing.sublist List.filter_sublist⟩
  · have hpathAt : pathAt (volume s volumeOffset sectorSize blockSize opens) block = some path ↔
        0 ≤ block ∧ ∃ f, s.fsBlockToFile.get? block.toNat = some f ∧ (f, path) ∈ placed "" d := by
      unfold pathAt volume
      dsimp only
      split
      · rename_i hnonneg
        rw [Option.bind_eq_some_iff]
        simp only [paths_scanned hd h, hnonneg, true_and]
      · rename_i hneg
        simp [hneg]
    have hmem : block ∈ blocksOf (volume s volumeOffset sectorSize blockSize opens) path
        (plainBlocks (volume s volumeOffset sectorSize blockSize opens) sector sectorCount) ↔
        (∃ j < sectorCount, (sector + j - volumeOffset) * sectorSize / blockSize = block) ∧
        0 ≤ block ∧ ∃ f, s.fsBlockToFile.get? block.toNat = some f ∧ (f, path) ∈ placed "" d := by
      unfold blocksOf
      rw [List.mem_filter, decide_eq_true_iff, hpathAt, hblocks.mem_iff]
      simp [sectorToBlock, volume]
    rw [← hmem, hout]
    constructor
    · rintro ⟨o, ho, hin⟩
      split at ho
      · cases ho
      · cases ho
        exact hin
    · intro hin
      rw [if_neg (List.ne_nil_of_mem hin)]
      exact ⟨_, rfl, hin⟩

end AfterScan

theorem getAccess_scanned_overlapping :
    ∃ s out o, scanFileSystem 8 "" overlapping {} = .ok s ∧
      getAccess (volume s 63 512 1024 fun _ => true) 70 5 .write [1] = some (.ok out) ∧
      out.get? "first" = some o ∧ o.op = some .write ∧ 5 ∈ o.blocks := by
  have hruns : ((scanFileSystem 8 "" overlapping {}).toOption.bind fun s =>
      s.fsBlockToFile.get? 5) =
        some { object := 1, name := "first", inode := some 10, attributes := [[⟨3, 3⟩]] } := by
    decide +kernel
  cases h : scanFileSystem 8 "" overlapping {} with
  | error e =>
    rw [h] at hruns
    cases hruns
  | ok s =>
    rw [h] at hruns
    have hnone : ∀ p ∈ placed "" overlapping, p.1.name ∉ updateFiles := by decide +kernel
    have haligned : Aligned (volume s 63 512 1024 fun _ => true) :=
      ⟨Nat.succ_pos _, Nat.succ_pos _, 2, rfl⟩
    obtain ⟨out, haccess, hall, hblocks⟩ := getAccess_scanned (by decide +kernel) h haligned 70 5
      .write [1] fun _ f path hplaced hname => absurd hname (hnone (f, path) hplaced)
    obtain ⟨o, ho, hin⟩ := (hblocks "first" 5).mpr
      ⟨⟨3, by decide, by decide⟩, by decide, _, hruns, by decide +kernel⟩
    exact ⟨s, out, o, rfl, haccess, ho, (hall _ _ ho).1, hin⟩

end LoPhi.Filesystems.Accesses
