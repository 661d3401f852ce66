import Mathlib.Data.Nat.ModEq
import LoPhi.Ntfs.Records
import LoPhi.Ntfs.Refresh

/-! # The `$MFT` in the order of its file

A record lies where the runs of the `$MFT` file put it, one run after the other as `pytsk3`
lists them. The pyTSK engine walks the runs in this order. `SEV_NTFS_Sparse` walks them by
address, so it finds a record exactly if as many blocks of the `$MFT` lie before its block on the
disk as in the file. -/

namespace LoPhi.Ntfs.FileOrder
open LoPhi.Ntfs.Volume LoPhi.Ntfs.Engine LoPhi.Ntfs.Records LoPhi.Ntfs.Refresh

variable {g : Geometry}

/-- The data runs of the `$MFT` file, in the order of the file. -/
def dataRuns (mft : File) : List Run :=
  (mft.attributes.filter Attribute.isData).flatMap Attribute.runs

/-- `_mft_dataruns` of `SemanticEngineVolumePyTSK_NTFS`. -/
def pyTskDataruns (fs : FileSystem) : Option (List Run) := (fs.openMeta 0).map dataRuns

/-- `_mft_record_to_sectors` of `SemanticEngineVolumePyTSK_NTFS`. -/
def pyTskRecordToSectors (g : Geometry) (fs : FileSystem) (recordNo : Nat) :
    Except NtfsError (List Nat) :=
  match pyTskDataruns fs with
  | none => .error .ioError
  | some runs => .ok (recordSectors g runs recordNo)

/-! ## Where the bytes of a file are -/

/-- The blocks of a file on the disk, one after the other as they are in the file. -/
def fileBlocks (runs : List Run) : List Nat :=
  runs.flatMap fun run => List.range' run.addr run.length

/-- The sector that stores a byte of the file. -/
def byteSector (g : Geometry) (runs : List Run) (x : Nat) : Option Nat :=
  ((fileBlocks runs)[x / g.blockSize]?).map fun block =>
    (g.volumeOffset * g.sectorSize + block * g.blockSize + x % g.blockSize) / g.sectorSize

/-- The sector stores a byte of the record. -/
def Stores (g : Geometry) (runs : List Run) (recordNo s : Nat) : Prop :=
  ∃ x, 1024 * recordNo ≤ x ∧ x ≤ 1024 * recordNo + 1023 ∧ byteSector g runs x = some s

@[simp] theorem fileBlocks_cons (run : Run) (runs : List Run) :
    fileBlocks (run :: runs) = List.range' run.addr run.length ++ fileBlocks runs :=
  List.flatMap_cons

theorem blockSize_pos (g : Geometry) : 0 < g.blockSize :=
  Nat.lt_of_lt_of_le g.sector_pos g.sector_le_block

/-- The walk finds the block a byte is in. -/
theorem recordStart_eq (runs : List Run) (n : Nat) :
    recordStart g runs n = ((fileBlocks runs)[n / g.blockSize]?).map fun block =>
      blockStart g block + n % g.blockSize / g.sectorSize := by
  have hpos := blockSize_pos g
  induction runs generalizing n with
  | nil => rfl
  | cons run runs ih =>
    unfold recordStart
    rw [fileBlocks_cons]
    by_cases hin : n < run.length * g.blockSize
    · have hblock : n / g.blockSize < run.length := (Nat.div_lt_iff_lt_mul hpos).mpr hin
      rw [if_pos hin, List.getElem?_append_left (by rwa [List.length_range']),
        List.getElem?_range' hblock, Nat.one_mul]
      rfl
    · have hle : run.length * g.blockSize ≤ n := Nat.le_of_not_lt hin
      have hblock : run.length ≤ n / g.blockSize := (Nat.le_div_iff_mul_le hpos).mpr hle
      have hdiv : (n - run.length * g.blockSize) / g.blockSize = n / g.blockSize - run.length := by
        rw [Nat.mul_comm, Nat.sub_mul_div]
      have hmod : (n - run.length * g.blockSize) % g.blockSize = n % g.blockSize := by
        rw [Nat.mul_comm] at hle ⊢
        exact Nat.sub_mul_mod hle
      rw [if_neg hin, List.getElem?_append_right (by rwa [List.length_range']), List.length_range',
        ih, hdiv, hmod]

section Aligned
variable (hg : Aligned g)
include hg

/-- The bytes of a record are in one block. -/
theorem record_block {d : Nat} (hd : d < 1024) (r : Nat) :
    (1024 * r + d) / g.blockSize = r * 1024 / g.blockSize ∧
      (1024 * r + d) % g.blockSize = r * 1024 % g.blockSize + d := by
  have hsize := hg.block_mul
  have hpos := blockSize_pos g
  have hfits : r * 1024 % g.blockSize + d < g.blockSize := by
    have hdvd : 1024 ∣ r * 1024 % g.blockSize :=
      (Nat.dvd_mod_iff hg.block).mpr (Nat.dvd_mul_left 1024 r)
    have hlt := Nat.mod_lt (r * 1024) hpos
    obtain ⟨k, hk⟩ := hdvd
    obtain ⟨m, hm⟩ := hg.block
    rw [hk, hm] at hlt ⊢
    have hkm : k < m := Nat.lt_of_mul_lt_mul_left hlt
    calc 1024 * k + d < 1024 * (k + 1) := by omega
      _ ≤ 1024 * m := Nat.mul_le_mul_left 1024 hkm
  have hsplit : 1024 * r + d =
      r * 1024 % g.blockSize + d + g.blockSize * (r * 1024 / g.blockSize) := by
    have := Nat.mod_add_div (r * 1024) g.blockSize
    omega
  rw [hsplit]
  exact ⟨by rw [Nat.add_mul_div_left _ _ hpos, Nat.div_eq_of_lt hfits, Nat.zero_add],
    by rw [Nat.add_mul_mod_self_left, Nat.mod_eq_of_lt hfits]⟩

/-- The sector of a byte `d` bytes into a record. -/
theorem byteSector_record {d : Nat} (hd : d < 1024) (runs : List Run) (r : Nat) :
    byteSector g runs (1024 * r + d) =
      (recordStart g runs (r * 1024)).map fun first => first + d / g.sectorSize := by
  obtain ⟨hdiv, hmod⟩ := record_block hg hd r
  have hoff : g.sectorSize ∣ r * 1024 % g.blockSize :=
    (Nat.dvd_mod_iff (hg.sector.trans hg.block)).mpr (hg.sector.trans (Nat.dvd_mul_left 1024 r))
  have hstart : ∀ block, (g.volumeOffset * g.sectorSize + block * g.blockSize +
      (r * 1024 % g.blockSize + d)) / g.sectorSize =
        blockStart g block + r * 1024 % g.blockSize / g.sectorSize + d / g.sectorSize := by
    intro block
    have hbase : g.sectorSize ∣ g.volumeOffset * g.sectorSize + block * g.blockSize :=
      Nat.dvd_add (Nat.dvd_mul_left _ _) ((hg.sector.trans hg.block).mul_left block)
    rw [Nat.add_div_of_dvd_right hbase, Nat.add_div_of_dvd_right hoff, ← Nat.add_assoc]
    rfl
  unfold byteSector
  rw [hdiv, hmod, recordStart_eq, Option.map_map]
  simp only [hstart]
  rfl

/-- The sectors the walk returns are those that store the record. -/
theorem mem_recordSectors_iff_stores (runs : List Run) (r s : Nat) :
    s ∈ recordSectors g runs r ↔ Stores g runs r s := by
  have hcount := hg.sector_mul
  have hpos := g.sector_pos
  unfold recordSectors Stores
  constructor
  · intro hs
    cases hstart : recordStart g runs (r * 1024) with
    | none =>
      rw [hstart] at hs
      cases hs
    | some first =>
      rw [hstart] at hs
      obtain ⟨hle, hlt⟩ := List.mem_range'_1.mp hs
      have hlt' : s - first < perRecord g := Nat.sub_lt_left_of_lt_add hle hlt
      have hd : (s - first) * g.sectorSize < 1024 := by
        rw [← hcount, Nat.mul_comm]
        exact Nat.mul_lt_mul_of_pos_left hlt' hpos
      refine ⟨1024 * r + (s - first) * g.sectorSize, by omega, by omega, ?_⟩
      rw [byteSector_record hg hd, hstart, Option.map_some, Nat.mul_div_cancel _ hpos,
        Nat.add_sub_cancel' hle]
  · rintro ⟨x, hle, hlt, hx⟩
    obtain ⟨d, rfl⟩ := Nat.exists_eq_add_of_le hle
    rw [byteSector_record hg (by omega)] at hx
    obtain ⟨first, hstart, rfl⟩ := Option.map_eq_some_iff.mp hx
    rw [hstart]
    refine List.mem_range'_1.mpr ⟨Nat.le_add_right _ _, Nat.add_lt_add_left ?_ _⟩
    refine (Nat.div_lt_iff_lt_mul hpos).mpr ?_
    rw [Nat.div_mul_cancel hg.sector]
    omega

end Aligned

/-! ## The runs as they are listed -/

/-- A record beyond the runs has no sectors. -/
theorem recordSectors_beyond {runs : List Run} {r : Nat}
    (h : (fileBlocks runs).length * g.blockSize ≤ 1024 * r) : recordSectors g runs r = [] := by
  have hnone : (fileBlocks runs)[r * 1024 / g.blockSize]? = none := by
    rw [List.getElem?_eq_none_iff, Nat.le_div_iff_mul_le (blockSize_pos g)]
    omega
  unfold recordSectors
  rw [recordStart_eq, hnone]
  rfl

/-- The sectors of a block. -/
def perBlock (g : Geometry) : Nat := g.blockSize / g.sectorSize

section Aligned
variable (hg : Aligned g)
include hg

theorem perBlock_mul : perBlock g * g.sectorSize = g.blockSize :=
  Nat.div_mul_cancel (hg.sector.trans hg.block)

theorem offset_lt_perBlock (x : Nat) : x % g.blockSize / g.sectorSize < perBlock g := by
  rw [Nat.div_lt_iff_lt_mul g.sector_pos, perBlock_mul hg]
  exact Nat.mod_lt x (blockSize_pos g)

/-- The sectors of a file and of the disk, counted by blocks. -/
theorem sector_in_block (block x : Nat) :
    (g.volumeOffset * g.sectorSize + block * g.blockSize + x % g.blockSize) / g.sectorSize =
      g.volumeOffset + (perBlock g * block + x % g.blockSize / g.sectorSize) := by
  have hbase : g.volumeOffset * g.sectorSize + block * g.blockSize =
      (g.volumeOffset + perBlock g * block) * g.sectorSize := by
    rw [Nat.add_mul, Nat.mul_right_comm, perBlock_mul hg, Nat.mul_comm block]
  rw [hbase, Nat.add_comm, Nat.add_mul_div_right _ _ g.sector_pos]
  omega

theorem sector_in_file (x : Nat) :
    x / g.sectorSize = perBlock g * (x / g.blockSize) + x % g.blockSize / g.sectorSize := by
  have hx : x = x % g.blockSize + perBlock g * (x / g.blockSize) * g.sectorSize := by
    rw [Nat.mul_right_comm, perBlock_mul hg]
    exact (Nat.mod_add_div x g.blockSize).symm
  conv => lhs; rw [hx]
  rw [Nat.add_mul_div_right _ _ g.sector_pos, Nat.add_comm]

/-- Bytes of the file that are in one sector of the disk are in one sector of the file. -/
theorem byteSector_inj {runs : List Run} (hdisjoint : (fileBlocks runs).Nodup) {x y s : Nat}
    (hx : byteSector g runs x = some s) (hy : byteSector g runs y = some s) :
    x / g.sectorSize = y / g.sectorSize := by
  obtain ⟨block, hblock, hs⟩ := Option.map_eq_some_iff.mp hx
  obtain ⟨block', hblock', hs'⟩ := Option.map_eq_some_iff.mp hy
  rw [sector_in_block hg] at hs hs'
  have hsame : perBlock g * block + x % g.blockSize / g.sectorSize =
      perBlock g * block' + y % g.blockSize / g.sectorSize := by omega
  have hoffset := offset_lt_perBlock hg x
  have hoffset' := offset_lt_perBlock hg y
  obtain rfl : block = block' := by
    have h : (perBlock g * block + x % g.blockSize / g.sectorSize) / perBlock g =
        (perBlock g * block' + y % g.blockSize / g.sectorSize) / perBlock g := by rw [hsame]
    have hpos : 0 < perBlock g := Nat.zero_lt_of_lt hoffset
    rwa [Nat.mul_add_div hpos, Nat.mul_add_div hpos, Nat.div_eq_of_lt hoffset,
      Nat.div_eq_of_lt hoffset'] at h
  have hindex : x / g.blockSize = y / g.blockSize :=
    (List.getElem?_inj (List.getElem?_eq_some_iff.mp hblock).1 hdisjoint).mp
      (hblock.trans hblock'.symm)
  rw [sector_in_file hg x, sector_in_file hg y, hindex]
  omega

theorem recordSectors_disjoint {runs : List Run} (hdisjoint : (fileBlocks runs).Nodup)
    {r r' : Nat} (hne : r ≠ r') : (recordSectors g runs r).Disjoint (recordSectors g runs r') := by
  intro s hs hs'
  obtain ⟨x, hle, hlt, hx⟩ := (mem_recordSectors_iff_stores hg runs r s).mp hs
  obtain ⟨y, hle', hlt', hy⟩ := (mem_recordSectors_iff_stores hg runs r' s).mp hs'
  have hsector := byteSector_inj hg hdisjoint hx hy
  have hrecord : ∀ z, z / 1024 = z / g.sectorSize / perRecord g := by
    intro z
    rw [Nat.div_div_eq_div_mul, hg.sector_mul]
  have hx' := hrecord x
  rw [hsector, ← hrecord y] at hx'
  omega

end Aligned

/-- **The pyTSK engine locates records in file order**: it returns the sectors that store the
record, none for a record beyond the runs, and none of them for two records. -/
theorem pyTsk_locates_records (g : Geometry) (hg : Aligned g) (fs : FileSystem) (mft : File)
    (hmft : fs.openMeta 0 = some mft) (hdisjoint : (fileBlocks (dataRuns mft)).Nodup) :
    ∃ sectors : Nat → List Nat, ∀ r, pyTskRecordToSectors g fs r = .ok (sectors r) ∧
      (sectors r).Nodup ∧ (∀ s, s ∈ sectors r ↔ Stores g (dataRuns mft) r s) ∧
      ((fileBlocks (dataRuns mft)).length * g.blockSize ≤ 1024 * r → sectors r = []) ∧
      ∀ r', r ≠ r' → (sectors r).Disjoint (sectors r') := by
  have hruns : pyTskDataruns fs = some (dataRuns mft) := congrArg (Option.map dataRuns) hmft
  refine ⟨recordSectors g (dataRuns mft), fun r => ⟨?_, ?_, ?_, recordSectors_beyond, ?_⟩⟩
  · unfold pyTskRecordToSectors
    rw [hruns]
  · unfold recordSectors
    split
    · exact List.nodup_nil
    · exact List.nodup_range'
  · exact mem_recordSectors_iff_stores hg (dataRuns mft) r
  · exact fun r' hne => recordSectors_disjoint hg hdisjoint hne

/-- A file system whose `$MFT` grew backwards: the second run lies before the first. -/
def grownBackwards : FileSystem where
  lastInum := 11
  rootInum := 5
  openMeta n := if n = 0 then some { attributes := [⟨true, [⟨1, 9⟩, ⟨1, 4⟩, ⟨1, 20⟩]⟩] } else none
  openDir _ := none

theorem pyTsk_locates_grownBackwards :
    ∃ sectors : Nat → List Nat, ∀ r, pyTskRecordToSectors smallVolume grownBackwards r =
        .ok (sectors r) ∧ (sectors r).Nodup ∧
      (∀ s, s ∈ sectors r ↔ Stores smallVolume [⟨1, 9⟩, ⟨1, 4⟩, ⟨1, 20⟩] r s) ∧
      ((fileBlocks [⟨1, 9⟩, ⟨1, 4⟩, ⟨1, 20⟩]).length * smallVolume.blockSize ≤ 1024 * r →
        sectors r = []) ∧
      ∀ r', r ≠ r' → (sectors r).Disjoint (sectors r') :=
  pyTsk_locates_records smallVolume aligned_smallVolume grownBackwards _ rfl (by decide)

/-! ## The runs by address -/

/-- The runs as `SEV_NTFS_Sparse` walks them. -/
def sortedRuns (runs : List Run) : List Run := runs.insertionSort fun a b => a.addr ≤ b.addr

theorem mftDataruns_eq {fs : FileSystem} {mft : File} (hmft : fs.openMeta 0 = some mft) :
    mftDataruns fs = some (sortedRuns (dataRuns mft)) := by
  unfold mftDataruns
  rw [hmft]
  rfl

theorem perm_sortedBlocks (runs : List Run) :
    (fileBlocks (sortedRuns runs)).Perm (fileBlocks runs) :=
  (List.perm_insertionSort _ runs).flatMap_right _

/-- By address the blocks increase. -/
theorem sortedBlocks_increase {runs : List Run} (hdisjoint : (fileBlocks runs).Nodup) :
    (fileBlocks (sortedRuns runs)).Pairwise (· < ·) := by
  have hsorted : (sortedRuns runs).Pairwise fun a b => a.addr ≤ b.addr :=
    List.pairwise_insertionSort _ runs
  have hnodup := (List.nodup_flatMap.mp ((perm_sortedBlocks runs).nodup_iff.mpr hdisjoint)).2
  refine List.pairwise_flatMap.mpr ⟨fun run _ => List.pairwise_lt_range', ?_⟩
  refine (hsorted.and hnodup).imp ?_
  rintro a b ⟨hle, hapart⟩ x hx y hy
  -- a block of the second run that is not after one of the first would be in both
  by_contra hnot
  obtain ⟨hxa, hxa'⟩ := List.mem_range'_1.mp hx
  obtain ⟨hyb, -⟩ := List.mem_range'_1.mp hy
  exact hapart (List.mem_range'_1.mpr ⟨by omega, by omega⟩) hy

/-- The place of an element in an increasing list is the number of smaller ones. -/
theorem getElem?_increasing {l : List Nat} (h : l.Pairwise (· < ·)) {v b : Nat} (hb : b ∈ l) :
    l[v]? = some b ↔ l.countP (· < b) = v := by
  induction l generalizing v with
  | nil => cases hb
  | cons a l ih =>
    obtain ⟨hfirst, hrest⟩ := List.pairwise_cons.mp h
    rcases List.mem_cons.mp hb with rfl | hb
    · have hnone : l.countP (· < b) = 0 := by
        rw [List.countP_eq_zero]
        intro x hx
        have := hfirst x hx
        simp only [decide_eq_true_eq]
        omega
      rw [List.countP_cons_of_neg (by simp), hnone]
      cases v with
      | zero => simp
      | succ v =>
        refine ⟨fun hv => ?_, fun hv => by cases hv⟩
        have := hfirst b (List.mem_of_getElem? hv)
        omega
    · have hlt := hfirst b hb
      rw [List.countP_cons_of_pos (by simpa using hlt)]
      cases v with
      | zero =>
        refine ⟨fun hv => ?_, fun hv => by omega⟩
        rw [List.getElem?_cons_zero, Option.some.injEq] at hv
        omega
      | succ v => rw [List.getElem?_cons_succ, ih hrest hb, Nat.succ_inj]

/-- The walk by address and the walk in file order meet where they find the same block. -/
theorem recordSectors_same_iff (hg : Aligned g) {runs sorted : List Run} {r block : Nat}
    (hinside : (fileBlocks runs)[r * 1024 / g.blockSize]? = some block) :
    (∀ s, s ∈ recordSectors g sorted r ↔ s ∈ recordSectors g runs r) ↔
      (fileBlocks sorted)[r * 1024 / g.blockSize]? = some block := by
  have hcount : 0 < 1024 / g.sectorSize := hg.perRecord_pos
  have hstart : recordStart g runs (r * 1024) =
      some (blockStart g block + r * 1024 % g.blockSize / g.sectorSize) := by
    rw [recordStart_eq, hinside]
    rfl
  constructor
  · intro hsame
    unfold recordSectors at hsame
    rw [hstart] at hsame
    cases hsorted : (fileBlocks sorted)[r * 1024 / g.blockSize]? with
    | none =>
      rw [recordStart_eq, hsorted] at hsame
      exact absurd ((hsame _).mpr (List.mem_range'_1.mpr ⟨Nat.le_refl _, by omega⟩))
        List.not_mem_nil
    | some other =>
      rw [recordStart_eq, hsorted, Option.map_some] at hsame
      -- each of the two first sectors is among the others, so they are the same
      have hle := (List.mem_range'_1.mp ((hsame _).mpr
        (List.mem_range'_1.mpr ⟨Nat.le_refl _, by omega⟩))).1
      have hge := (List.mem_range'_1.mp ((hsame _).mp
        (List.mem_range'_1.mpr ⟨Nat.le_refl _, by omega⟩))).1
      have hblock : blockStart g other = blockStart g block := by omega
      rw [blockStart_eq hg, blockStart_eq hg] at hblock
      have hpos : 0 < perRecord g * (g.blockSize / 1024) := by
        refine Nat.pos_of_ne_zero fun hzero => ?_
        have hsize := hg.blockSize_eq
        rw [hzero] at hsize
        exact absurd hsize (blockSize_pos g).ne'
      exact congrArg some (Nat.eq_of_mul_eq_mul_right hpos (Nat.add_left_cancel hblock))
  · intro hsorted s
    unfold recordSectors
    rw [hstart, recordStart_eq, hsorted]
    rfl

/-- **`SEV_NTFS_Sparse` locates a record of the `$MFT` if and only if** as many of the blocks of
the `$MFT` lie before the block of the record on the disk as in the file. -/
theorem locates_record_iff (g : Geometry) (hg : Aligned g) (e : SevNtfsSparse) (mft : File)
    (hmft : e.fileSystem.openMeta 0 = some mft) (hdisjoint : (fileBlocks (dataRuns mft)).Nodup)
    (r block : Nat)
    (hinside : (fileBlocks (dataRuns mft))[r * 1024 / g.blockSize]? = some block) :
    (∃ sectors, (mftRecordToSectors g r e).1 = .ok sectors ∧
      ∀ s, s ∈ sectors ↔ Stores g (dataRuns mft) r s) ↔
    (fileBlocks (dataRuns mft)).countP (· < block) = r * 1024 / g.blockSize := by
  have hreturn := mftRecordToSectors_returns (g := g) r (mftDataruns_eq hmft)
  have hperm := perm_sortedBlocks (dataRuns mft)
  have hmem : block ∈ fileBlocks (sortedRuns (dataRuns mft)) :=
    hperm.mem_iff.mpr (List.mem_of_getElem? hinside)
  rw [← hperm.countP_eq, ← getElem?_increasing (sortedBlocks_increase hdisjoint) hmem,
    ← recordSectors_same_iff hg hinside]
  simp only [mem_recordSectors_iff_stores hg (dataRuns mft)]
  constructor
  · rintro ⟨sectors, hsectors, hstores⟩
    obtain rfl := Except.ok.inj (hreturn.symm.trans hsectors)
    exact hstores
  · exact fun hstores => ⟨_, hreturn, hstores⟩

/-- An engine on that file system. -/
def backwardsEngine : SevNtfsSparse := { img := fun _ => 0, fileSystem := grownBackwards }

/-- The third run is the last on the disk too. -/
theorem locates_third_run :
    ∃ sectors, (mftRecordToSectors smallVolume 8 backwardsEngine).1 = .ok sectors ∧
      ∀ s, s ∈ sectors ↔ Stores smallVolume [⟨1, 9⟩, ⟨1, 4⟩, ⟨1, 20⟩] 8 s :=
  (locates_record_iff smallVolume aligned_smallVolume backwardsEngine _ rfl (by decide) 8 20
    (by decide)).mpr (by decide)

/-- The first record is in block 9, and is looked for in block 4. -/
theorem not_locates_first_run :
    ¬ ∀ (g : Geometry) (e : SevNtfsSparse) (mft : File) (r : Nat), Aligned g →
      e.fileSystem.openMeta 0 = some mft → (fileBlocks (dataRuns mft)).Nodup →
      1024 * r < (fileBlocks (dataRuns mft)).length * g.blockSize →
      ∃ sectors, (mftRecordToSectors g r e).1 = .ok sectors ∧
        ∀ s, s ∈ sectors ↔ Stores g (dataRuns mft) r s := by
  intro h
  obtain ⟨sectors, hsectors, hstores⟩ := h smallVolume backwardsEngine
    { attributes := [⟨true, [⟨1, 9⟩, ⟨1, 4⟩, ⟨1, 20⟩]⟩] } 0 aligned_smallVolume rfl (by decide)
    (by decide)
  obtain rfl : [95, 96] = sectors := Except.ok.inj hsectors
  have hstored : Stores smallVolume [⟨1, 9⟩, ⟨1, 4⟩, ⟨1, 20⟩] 0 135 :=
    (mem_recordSectors_iff_stores aligned_smallVolume _ 0 135).mp (by decide)
  exact absurd ((hstores 135).mpr hstored) (by decide)

end LoPhi.Ntfs.FileOrder
