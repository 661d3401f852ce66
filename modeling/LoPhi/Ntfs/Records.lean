import LoPhi.Ntfs.Volume

/-! # Records and sectors of the `$MFT`

`_mft_record_to_sectors` and `_get_records_from_sectors` walk the same runs, one from
records to sectors and one back. They agree inside the runs; the second also takes the
sector after a run for part of it, and with it the record that comes after the run. -/

namespace LoPhi.Ntfs.Records
open LoPhi.Ntfs.Volume

/-- Records fill whole sectors and blocks whole records. -/
structure Aligned (g : Geometry) : Prop where
  sector : g.sectorSize ∣ 1024
  block : 1024 ∣ g.blockSize

variable {g : Geometry}

/-- The sectors of a record, and the records of a run. -/
def perRecord (g : Geometry) : Nat := 1024 / g.sectorSize

def runRecords (g : Geometry) (run : Run) : Nat := run.length * (g.blockSize / 1024)

section Aligned
variable (hg : Aligned g)
include hg

theorem Aligned.sector_mul : g.sectorSize * perRecord g = 1024 :=
  Nat.mul_div_cancel' hg.sector

theorem Aligned.block_mul : g.blockSize / 1024 * 1024 = g.blockSize :=
  Nat.div_mul_cancel hg.block

theorem Aligned.perRecord_pos : 0 < perRecord g := by
  have := hg.sector_mul
  refine Nat.pos_of_ne_zero fun h => ?_
  rw [h] at this
  omega

theorem Aligned.blockSize_eq :
    g.blockSize = g.sectorSize * (perRecord g * (g.blockSize / 1024)) := by
  rw [← Nat.mul_assoc, hg.sector_mul, Nat.mul_comm]
  exact hg.block_mul.symm

theorem blockStart_eq (block : Nat) :
    blockStart g block = g.volumeOffset + block * (perRecord g * (g.blockSize / 1024)) := by
  have hdvd : g.sectorSize ∣ g.blockSize := ⟨_, hg.blockSize_eq⟩
  have hper : g.blockSize / g.sectorSize = perRecord g * (g.blockSize / 1024) :=
    Nat.div_eq_of_eq_mul_right g.sector_pos hg.blockSize_eq
  rw [blockStart_of_dvd hdvd, hper]

theorem runEnd_eq (run : Run) :
    runEnd g run = blockStart g run.addr + runRecords g run * perRecord g := by
  have hsize : run.length * g.blockSize = runRecords g run * perRecord g * g.sectorSize := by
    conv => lhs; rw [hg.blockSize_eq]
    unfold runRecords
    ac_rfl
  rw [runEnd, hsize, Nat.mul_div_cancel _ g.sector_pos]

/-- A distance in sectors, in records. -/
theorem sectors_div (n : Nat) : n * g.sectorSize / mftEntrySize = n / perRecord g := by
  rw [mftEntrySize, ← hg.sector_mul, Nat.mul_comm g.sectorSize,
    Nat.mul_div_mul_right _ _ g.sector_pos]

/-- The first sector of a record. -/
theorem recordStart_cons (run : Run) (runs : List Run) (r : Nat) :
    recordStart g (run :: runs) (r * 1024) =
      if r < runRecords g run then some (blockStart g run.addr + r * perRecord g)
      else recordStart g runs ((r - runRecords g run) * 1024) := by
  have hbytes : run.length * g.blockSize = runRecords g run * 1024 := by
    rw [runRecords, Nat.mul_assoc, hg.block_mul]
  have hblock : r * 1024 / g.blockSize = r / (g.blockSize / 1024) := by
    conv => lhs; rw [← hg.block_mul]
    exact Nat.mul_div_mul_right _ _ (by decide)
  have hoffset : r * 1024 % g.blockSize / g.sectorSize =
      r % (g.blockSize / 1024) * perRecord g := by
    conv => lhs; rw [← hg.block_mul, Nat.mul_mod_mul_right]
    exact Nat.mul_div_assoc _ hg.sector
  rw [recordStart, hbytes]
  by_cases hr : r < runRecords g run
  · rw [if_pos (by omega), if_pos hr, hblock, hoffset, blockStart_eq hg, blockStart_eq hg,
      Nat.add_mul, Nat.add_assoc, Nat.add_assoc, Nat.add_assoc]
    congr 3
    rw [Nat.mul_comm (perRecord g), ← Nat.mul_assoc, ← Nat.add_mul, Nat.mul_comm (r / _),
      Nat.div_add_mod]
  · rw [if_neg (by omega), if_neg hr, ← Nat.sub_mul]

theorem mem_recordSectors_cons (run : Run) (runs : List Run) (r s : Nat) :
    s ∈ recordSectors g (run :: runs) r ↔
      if r < runRecords g run then
        blockStart g run.addr ≤ s ∧ (s - blockStart g run.addr) / perRecord g = r
      else s ∈ recordSectors g runs (r - runRecords g run) := by
  unfold recordSectors
  rw [recordStart_cons hg]
  by_cases hr : r < runRecords g run
  · rw [if_pos hr, if_pos hr]
    dsimp only
    rw [List.mem_range'_1, Nat.div_eq_iff hg.perRecord_pos, Nat.mul_comm r]
    have hk : 1024 / g.sectorSize = perRecord g := rfl
    have hpos := hg.perRecord_pos
    rw [hk]
    constructor <;> intro h <;> omega
  · rw [if_neg hr, if_neg hr]

end Aligned

/-! ## From sectors to records -/

/-- The number of the record that follows the runs. -/
def recordCount (g : Geometry) (runs : List Run) : Nat := (runs.map (runRecords g)).sum

/-- The walk takes the sector for one of the record `r`, `base` records coming before. -/
def Taken (g : Geometry) (s r : Nat) : List Run → Nat → Prop
  | [], _ => False
  | run :: runs, base =>
    (blockStart g run.addr ≤ s ∧ s ≤ runEnd g run ∧
      r = base + (s - blockStart g run.addr) / perRecord g) ∨
      Taken g s r runs (base + runRecords g run)

/-- The sector follows a run, and the record the last one of that run. -/
def AfterRun (g : Geometry) (s r : Nat) (runs : List Run) : Prop :=
  ∃ before run after, runs = before ++ run :: after ∧ s = runEnd g run ∧
    r = recordCount g (before ++ [run])

theorem afterRun_cons {s r : Nat} {run : Run} {runs : List Run} :
    AfterRun g s r (run :: runs) ↔
      (s = runEnd g run ∧ r = runRecords g run) ∨
        ∃ r', r = runRecords g run + r' ∧ AfterRun g s r' runs := by
  constructor
  · rintro ⟨before, last, after, heq, hs, hr⟩
    cases before with
    | nil =>
      cases heq
      exact .inl ⟨hs, by simpa [recordCount] using hr⟩
    | cons first before =>
      cases heq
      refine .inr ⟨recordCount g (before ++ [last]), ?_, before, last, after, rfl, hs, rfl⟩
      simpa [recordCount] using hr
  · rintro (⟨hs, hr⟩ | ⟨r', hr, before, last, after, heq, hs, hr'⟩)
    · exact ⟨[], run, runs, rfl, hs, by simpa [recordCount] using hr⟩
    · refine ⟨run :: before, last, after, by rw [heq]; rfl, hs, ?_⟩
      rw [hr, hr']
      simp [recordCount]

theorem runEnd_div (hg : Aligned g) (run : Run) :
    (runEnd g run - blockStart g run.addr) / perRecord g = runRecords g run := by
  rw [runEnd_eq hg, Nat.add_sub_cancel_left, Nat.mul_div_cancel _ hg.perRecord_pos]

/-- The sectors the walk takes for those of a run: the ones of its records, and one more. -/
theorem le_runEnd_iff (hg : Aligned g) {run : Run} {s : Nat} :
    blockStart g run.addr ≤ s ∧ s ≤ runEnd g run ↔
      (blockStart g run.addr ≤ s ∧
        (s - blockStart g run.addr) / perRecord g < runRecords g run) ∨ s = runEnd g run := by
  rw [Nat.div_lt_iff_lt_mul hg.perRecord_pos, runEnd_eq hg]
  omega

/-- The walk takes a sector for the records it belongs to, and for the one after a run
that ends before it. -/
theorem taken_iff (hg : Aligned g) (s r base : Nat) (runs : List Run) :
    Taken g s r runs base ↔
      ∃ r', r = base + r' ∧ (s ∈ recordSectors g runs r' ∨ AfterRun g s r' runs) := by
  induction runs generalizing base with
  | nil =>
    refine ⟨False.elim, ?_⟩
    rintro ⟨r', -, h | ⟨before, run, after, h, -⟩⟩
    · cases h
    · cases before <;> cases h
  | cons run runs ih =>
    rw [Taken, ih]
    simp only [mem_recordSectors_cons hg, afterRun_cons]
    constructor
    · rintro (⟨hstart, hend, hr⟩ | ⟨r', hr, h⟩)
      · refine ⟨_, hr, ?_⟩
        obtain ⟨-, hlt⟩ | rfl := (le_runEnd_iff hg).mp ⟨hstart, hend⟩
        · rw [if_pos hlt]
          exact .inl ⟨hstart, rfl⟩
        · exact .inr (.inl ⟨rfl, runEnd_div hg run⟩)
      · refine ⟨runRecords g run + r', by omega, ?_⟩
        rw [if_neg (by omega), Nat.add_sub_cancel_left]
        obtain hin | hafter := h
        · exact .inl hin
        · exact .inr (.inr ⟨r', rfl, hafter⟩)
    · rintro ⟨r', hr, hin | ⟨rfl, rfl⟩ | ⟨r'', rfl, hafter⟩⟩
      · by_cases hlt : r' < runRecords g run
        · rw [if_pos hlt] at hin
          obtain ⟨hstart, rfl⟩ := hin
          obtain ⟨-, hend⟩ := (le_runEnd_iff hg).mpr (.inl ⟨hstart, hlt⟩)
          exact .inl ⟨hstart, hend, hr⟩
        · rw [if_neg hlt] at hin
          exact .inr ⟨r' - runRecords g run, by omega, .inl hin⟩
      · obtain ⟨hstart, hend⟩ := (le_runEnd_iff hg).mpr (.inr (Eq.refl (runEnd g run)))
        exact .inl ⟨hstart, hend, by rw [runEnd_div hg]; exact hr⟩
      · exact .inr ⟨r'', by omega, .inr hafter⟩

theorem mem_addRecords (hg : Aligned g) (base : Nat) (run : Run) (sectors inodes : List Nat)
    (r : Nat) :
    r ∈ addRecords g base run sectors inodes ↔ r ∈ inodes ∨ ∃ s ∈ sectors,
      blockStart g run.addr ≤ s ∧ s ≤ runEnd g run ∧
        r = base + (s - blockStart g run.addr) / perRecord g := by
  induction sectors generalizing inodes with
  | nil => simp [addRecords]
  | cons s sectors ih =>
    unfold addRecords
    rw [sectors_div hg]
    split
    · rename_i hin
      rw [ih]
      simp only [List.exists_mem_cons_iff]
      split
      · rename_i hknown
        constructor
        · rintro (h | h)
          · exact .inl h
          · exact .inr (.inr h)
        · rintro (h | ⟨-, -, rfl⟩ | h)
          · exact .inl h
          · exact .inl hknown
          · exact .inr h
      · rw [List.mem_append, List.mem_singleton, or_assoc]
        simp only [hin.1, hin.2, true_and]
    · rename_i hout
      rw [ih]
      simp only [List.exists_mem_cons_iff]
      constructor
      · rintro (h | h)
        · exact .inl h
        · exact .inr (.inr h)
      · rintro (h | ⟨h1, h2, -⟩ | h)
        · exact .inl h
        · exact absurd ⟨h1, h2⟩ hout
        · exact .inr h

theorem nodup_addRecords (g : Geometry) (base : Nat) (run : Run) (sectors : List Nat)
    {inodes : List Nat} (h : inodes.Nodup) : (addRecords g base run sectors inodes).Nodup := by
  induction sectors generalizing inodes with
  | nil => exact h
  | cons s sectors ih =>
    unfold addRecords
    split
    · refine ih ?_
      split
      · exact h
      · rename_i hnew
        exact List.nodup_append.mpr ⟨h, List.nodup_singleton _, fun a ha b hb => by
          rw [List.mem_singleton.mp hb]
          exact fun heq => hnew (heq ▸ ha)⟩
    · exact ih h

theorem mem_recordsFrom (hg : Aligned g) (sectors : List Nat) (runs : List Run) (base : Nat)
    (inodes : List Nat) (r : Nat) :
    r ∈ recordsFrom g sectors runs base inodes ↔
      r ∈ inodes ∨ ∃ s ∈ sectors, Taken g s r runs base := by
  induction runs generalizing base inodes with
  | nil => simp [recordsFrom, Taken]
  | cons run runs ih =>
    have hcount : (runEnd g run - blockStart g run.addr) * g.sectorSize / mftEntrySize =
        runRecords g run := by
      rw [sectors_div hg, runEnd_div hg]
    rw [recordsFrom, ih, mem_addRecords hg, hcount, or_assoc, ← exists_or]
    simp only [Taken, and_or_left]

theorem nodup_recordsFrom (g : Geometry) (sectors : List Nat) (runs : List Run) (base : Nat)
    {inodes : List Nat} (h : inodes.Nodup) : (recordsFrom g sectors runs base inodes).Nodup := by
  induction runs generalizing base inodes with
  | nil => exact h
  | cons run runs ih => exact ih _ (nodup_addRecords g base run sectors h)

theorem mem_getRecordsFromSectors (hg : Aligned g) (runs : List Run) (sectors : List Nat)
    (r : Nat) :
    r ∈ getRecordsFromSectors g runs sectors ↔
      ∃ s ∈ sectors, s ∈ recordSectors g runs r ∨ AfterRun g s r runs := by
  rw [getRecordsFromSectors, mem_recordsFrom hg]
  simp only [List.not_mem_nil, false_or, taken_iff hg, Nat.zero_add, exists_eq_left']

/-- The two maps are inverse on the given sectors: the records are those that have one of
them, each once. -/
def Inverse (g : Geometry) (runs : List Run) (sectors : List Nat) : Prop :=
  (getRecordsFromSectors g runs sectors).Nodup ∧
    ∀ r, r ∈ getRecordsFromSectors g runs sectors ↔
      ∃ s ∈ sectors, s ∈ recordSectors g runs r

/-- **The maps between records and sectors are inverse exactly when**, for every run whose
end is followed by one of the given sectors, the record numbered next after that run has
one of the given sectors too. The order and the overlaps of the runs do not matter. -/
theorem inverse_iff (hg : Aligned g) (runs : List Run) (sectors : List Nat) :
    Inverse g runs sectors ↔
      ∀ before run after, runs = before ++ run :: after → runEnd g run ∈ sectors →
        ∃ s ∈ sectors, s ∈ recordSectors g runs (recordCount g (before ++ [run])) := by
  constructor
  · intro h before run after heq hend
    refine (h.2 _).mp ((mem_getRecordsFromSectors hg _ _ _).mpr ⟨_, hend, .inr ?_⟩)
    exact ⟨before, run, after, heq, rfl, rfl⟩
  · intro h
    refine ⟨nodup_recordsFrom g sectors runs 0 List.nodup_nil, fun r => ?_⟩
    rw [mem_getRecordsFromSectors hg]
    constructor
    · rintro ⟨s, hs, hin | ⟨before, run, after, heq, rfl, rfl⟩⟩
      · exact ⟨s, hs, hin⟩
      · exact h before run after heq hs
    · rintro ⟨s, hs, hin⟩
      exact ⟨s, hs, .inl hin⟩

theorem aligned_smallVolume : Aligned smallVolume := ⟨by decide, by decide⟩

theorem inverse_inside : Inverse smallVolume [⟨1, 4⟩] [96] := by
  refine (inverse_iff aligned_smallVolume [⟨1, 4⟩] [96]).mpr fun before run after heq hend => ?_
  have hrun : run = ⟨1, 4⟩ := by
    have hmem : run ∈ [(⟨1, 4⟩ : Run)] := by rw [heq]; simp
    simpa using hmem
  rw [hrun] at hend
  exact absurd hend (by decide)

/-- The sector after the only run: it is taken for a fifth record, which does not exist. -/
theorem not_inverse_after_run : ¬ Inverse smallVolume [⟨1, 4⟩] [103] := by
  intro h
  obtain ⟨s, hs, hin⟩ := (h.2 4).mp (by decide)
  rw [List.mem_singleton.mp hs] at hin
  revert hin
  decide

end LoPhi.Ntfs.Records
