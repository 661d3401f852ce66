import Mathlib.Data.List.Range
import LoPhi.Ntfs.Runs

/-! # Blocks and sectors

`_block_to_sectors` and `_sector_to_block` go between blocks and sectors by way of bytes, and both
divisions round down. For blocks of whole sectors they are adjoint: a block starts at or before a
sector if and only if its number is not above that of the sector's block. -/

namespace LoPhi.Ntfs.Conversion
open LoPhi.Ntfs.Volume LoPhi.Ntfs.Refresh LoPhi.Ntfs.Runs

variable {g : Geometry} {run : Run} {s : Nat}

/-! ## One block -/

section Whole
variable (hdvd : g.sectorSize ∣ g.blockSize)
include hdvd

theorem blockStart_zero : blockStart g 0 = g.volumeOffset := by
  rw [blockStart_of_dvd hdvd, Nat.zero_mul, Nat.add_zero]

theorem blockStart_add (block n : Nat) :
    blockStart g (block + n) = blockStart g block + n * (g.blockSize / g.sectorSize) := by
  rw [blockStart_of_dvd hdvd, blockStart_of_dvd hdvd, Nat.add_mul, Nat.add_assoc]

theorem blockStart_succ (block : Nat) :
    blockStart g (block + 1) = blockStart g block + g.blockSize / g.sectorSize := by
  rw [blockStart_add hdvd, Nat.one_mul]

/-- The two conversions are adjoint. -/
theorem blockStart_le_iff (block s : Nat) :
    blockStart g block ≤ s ↔ (block : Int) ≤ sectorToBlock g s := by
  have hsector : (0 : Int) < g.sectorSize := by exact_mod_cast g.sector_pos
  have hblock : (0 : Int) < g.blockSize := by
    exact_mod_cast Nat.lt_of_lt_of_le g.sector_pos g.sector_le_block
  have hsize : block * g.blockSize = block * (g.blockSize / g.sectorSize) * g.sectorSize := by
    rw [Nat.mul_assoc, Nat.div_mul_cancel hdvd]
  have hbytes : (block : Int) * g.blockSize =
      ((block * (g.blockSize / g.sectorSize) : Nat) : Int) * g.sectorSize := by
    exact_mod_cast hsize
  unfold sectorToBlock
  rw [Int.le_ediv_iff_mul_le hblock, hbytes, Int.mul_le_mul_iff_of_pos_right hsector,
    blockStart_of_dvd hdvd]
  omega

theorem mem_blockToSectors_iff (block s : Nat) :
    s ∈ blockToSectors g block ↔ sectorToBlock g s = block := by
  have hstart := blockStart_le_iff hdvd block s
  have hnext := blockStart_le_iff hdvd (block + 1) s
  rw [blockStart_succ hdvd] at hnext
  unfold blockToSectors
  rw [List.mem_range'_1]
  omega

/-! ## Blocks in a row -/

/-- The sectors of `n` blocks in a row are in a row. -/
theorem flatMap_blockToSectors (first n : Nat) :
    (List.range n).flatMap (fun i => blockToSectors g (first + i)) =
      List.range' (blockStart g first) (n * (g.blockSize / g.sectorSize)) := by
  induction n with
  | zero => rw [Nat.zero_mul]; rfl
  | succ n ih =>
    rw [List.range_succ, List.flatMap_append, ih, List.flatMap_singleton, blockToSectors,
      blockStart_add hdvd, List.range'_append_1, Nat.succ_mul]

/-- A run has the sectors of its blocks, one after the other. -/
theorem runSectors_eq (run : Run) :
    runSectors g run =
      List.range' (blockStart g run.addr) (run.length * (g.blockSize / g.sectorSize)) :=
  flatMap_blockToSectors hdvd run.addr run.length

theorem mem_runSectors_iff :
    s ∈ runSectors g run ↔
      (run.addr : Int) ≤ sectorToBlock g s ∧ sectorToBlock g s < run.addr + run.length := by
  have hfirst := blockStart_le_iff hdvd run.addr s
  have hend := blockStart_le_iff hdvd (run.addr + run.length) s
  rw [blockStart_add hdvd] at hend
  rw [runSectors_eq hdvd, List.mem_range'_1]
  omega

/-- The sectors of the volume are those of its blocks. -/
theorem inVolume_iff :
    InVolume g s ↔ 0 ≤ sectorToBlock g s ∧ sectorToBlock g s < g.blockCount := by
  constructor
  · rintro ⟨block, hlt, hs⟩
    have heq := (mem_blockToSectors_iff hdvd block s).mp hs
    omega
  · rintro ⟨hpos, hlt⟩
    obtain ⟨block, hblock⟩ := Int.eq_ofNat_of_zero_le hpos
    exact ⟨block, by omega, (mem_blockToSectors_iff hdvd block s).mpr hblock⟩

end Whole

/-! ## All blocks -/

/-- The sectors of a block are those whose block it is; there are as many as fit in the block, one
after the other; and those of the first blocks, in order, are the first of the volume. -/
structure Adjoint (g : Geometry) : Prop where
  mem_iff : ∀ block s, s ∈ blockToSectors g block ↔ sectorToBlock g s = block
  length : ∀ block, (blockToSectors g block).length = g.blockSize / g.sectorSize
  consecutive : ∀ block, (blockToSectors g block).IsChain fun s t => t = s + 1
  concatenated : ∀ n, (List.range n).flatMap (blockToSectors g) =
    List.range' g.volumeOffset (n * g.blockSize / g.sectorSize)

/-- **Block and sector conversions are adjoint** for blocks of whole sectors. -/
theorem conversions_adjoint (hdvd : g.sectorSize ∣ g.blockSize) : Adjoint g where
  mem_iff := mem_blockToSectors_iff hdvd
  length block := List.length_range'
  consecutive block := List.isChain_range' _ _ 1
  concatenated n := by
    have hrow := flatMap_blockToSectors hdvd 0 n
    simp only [Nat.zero_add] at hrow
    rw [hrow, blockStart_zero hdvd, Nat.mul_div_assoc _ hdvd]

/-- Blocks of eight sectors, from sector 63. -/
theorem conversions_adjoint_smallVolume : Adjoint smallVolume := conversions_adjoint (by decide)

example : sectorToBlock smallVolume 62 = -1 ∧ sectorToBlock smallVolume 63 = 0 ∧
    sectorToBlock smallVolume 70 = 0 ∧ sectorToBlock smallVolume 71 = 1 := by decide

end LoPhi.Ntfs.Conversion
