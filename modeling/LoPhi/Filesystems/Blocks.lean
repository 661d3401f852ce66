import Mathlib.Data.List.Dedup
import Mathlib.Data.List.Sort
import Mathlib.Tactic.Linarith
import LoPhi.Lib.Dict

/-! # The blocks of an access

`SemanticEngineVolumePyTSK.get_access` looks up the file of every block that an access touches.
It goes through the sectors of the first block one by one and from there on in strides of a
block. -/

namespace LoPhi.Filesystems.Blocks
open LoPhi.Lib

/-- The exceptions: a file without a path, and a path that cannot be opened. -/
inductive VolumeError where
  | keyError
  | ioError
  deriving DecidableEq, Repr

inductive Direction where
  | read
  | write
  deriving DecidableEq, Repr

/-- `SemanticEngineVolumePyTSK`, over the file objects of `pytsk3`. `name` is `f.info.name.name`
of a file and `opens` whether a path can be opened. -/
structure SemanticEngineVolumePyTSK (F : Type) where
  volumeOffset : Int
  sectorSize : Nat
  blockSize : Nat
  fsBlockToFile : Int → Option F
  fsFileToPath : F → Option String
  name : F → String
  opens : String → Bool

/-- `UPDATE_FILES`. -/
def updateFiles : List String := ["$MFT"]

/-- What is returned about a file. -/
structure Output where
  blocks : List Int
  op : Option Direction := none
  data : Option (List UInt8) := none
  deriving DecidableEq, Repr

/-- What the loop collects. `lookups` is a history: the blocks that were looked up. -/
structure Collected (F : Type) where
  files : List F := []
  outputDict : Dict String Output := .empty
  lookups : List Int := []

section Methods
variable {F : Type} [DecidableEq F] (v : SemanticEngineVolumePyTSK F)

/-- `_sector_to_block`. The division rounds down. -/
def sectorToBlock (sector : Int) : Int := (sector - v.volumeOffset) * v.sectorSize / v.blockSize

/-- One turn of the loop: a block is looked up and goes to the list of its file. -/
def collect (c : Collected F) (fsBlock : Int) : Except VolumeError (Collected F) :=
  let c := { c with lookups := c.lookups ++ [fsBlock] }
  match v.fsBlockToFile fsBlock with
  | none => .ok c
  | some f =>
    match v.fsFileToPath f with
    | none => .error .keyError
    | some filename => .ok { c with
        files := if f ∈ c.files then c.files else c.files ++ [f]
        outputDict := c.outputDict.alter filename fun out =>
          match out with
          | none => { blocks := [fsBlock] }
          | some out => { out with blocks := out.blocks ++ [fsBlock] } }

/-- The inner loop: the next sector, of the `n` that are left from the `i`th on, that is not in
the block. -/
def skipBlock (sector fsBlock : Int) : Nat → Nat → Nat
  | 0, i => i
  | n + 1, i =>
    if fsBlock = sectorToBlock v (sector + i) then skipBlock sector fsBlock n (i + 1) else i

/-- The outer loop, with a bound on its turns. -/
def accessLoop (sector : Int) (sectorCount : Nat) :
    Nat → Nat → Bool → Collected F → Option (Except VolumeError (Collected F))
  | 0, _, _, _ => none
  | fuel + 1, i, first, c =>
    if i < sectorCount then
      let fsBlock := sectorToBlock v (sector + i)
      match collect v c fsBlock with
      | .error e => some (.error e)
      | .ok c =>
        if first then
          accessLoop sector sectorCount fuel
            (skipBlock v sector fsBlock (sectorCount - (i + 1)) (i + 1)) false c
        else accessLoop sector sectorCount fuel (i + v.blockSize / v.sectorSize) false c
    else some (.ok c)

/-- The operation and the data are noted with every file. A write to a file of `UPDATE_FILES`
opens it again and then goes through the access once more. -/
def label (direction : Direction) (data : List UInt8)
    (again : Option (Except VolumeError (Dict String Output))) :
    List F → Dict String Output → Except VolumeError (Dict String Output)
  | [], output => .ok output
  | f :: files, output =>
    match v.fsFileToPath f with
    | none => .error .keyError
    | some path =>
      let output := output.alter path fun out =>
        { out.getD { blocks := [] } with op := some direction, data := some data }
      match again with
      | some result =>
        if direction = .write ∧ v.name f ∈ updateFiles then
          if v.opens path then result else .error .ioError
        else label direction data again files output
      | none => label direction data again files output

/-- `get_access`, from what the loop has collected. -/
def finish (direction : Direction) (data : List UInt8)
    (collected : Except VolumeError (Collected F)) : Except VolumeError (Dict String Output) :=
  collected.bind fun c =>
    label v direction data (some (collected.bind fun c =>
      label v direction data none c.files c.outputDict)) c.files c.outputDict

/-- `get_access`: every turn of the loop passes a sector. -/
def getAccess (sector : Int) (sectorCount : Nat) (direction : Direction) (data : List UInt8) :
    Option (Except VolumeError (Dict String Output)) :=
  (accessLoop v sector sectorCount (sectorCount + 1) 0 true {}).map (finish v direction data)

/-! ## The plain loop -/

/-- The blocks of all sectors, in order and without repetitions. -/
def plainBlocks (sector : Int) (sectorCount : Nat) : List Int :=
  ((List.range sectorCount).map fun j : Nat => sectorToBlock v (sector + j)).dedup

/-- The loop over all sectors that looks up every block once. -/
def plainLoop (sector : Int) (sectorCount : Nat) : Except VolumeError (Collected F) :=
  (plainBlocks v sector sectorCount).foldlM (collect v) {}

end Methods

/-! ## Block borders -/

/-- Blocks are whole sectors. -/
structure Aligned {F : Type} (v : SemanticEngineVolumePyTSK F) : Prop where
  sector_pos : 0 < v.sectorSize
  block_pos : 0 < v.blockSize
  dvd : v.sectorSize ∣ v.blockSize

section Borders
variable {F : Type} {v : SemanticEngineVolumePyTSK F} (hv : Aligned v)
include hv

/-- The sectors of a block. -/
theorem Aligned.perBlock_pos : 0 < v.blockSize / v.sectorSize :=
  Nat.div_pos (Nat.le_of_dvd hv.block_pos hv.dvd) hv.sector_pos

theorem sectorToBlock_eq (sector : Int) :
    sectorToBlock v sector =
      (sector - v.volumeOffset) / ((v.blockSize / v.sectorSize : Nat) : Int) := by
  have hsize : (v.blockSize : Int) =
      v.sectorSize * ((v.blockSize / v.sectorSize : Nat) : Int) := by
    rw [← Nat.cast_mul, Nat.mul_div_cancel' hv.dvd]
  have hpos : (0 : Int) < v.sectorSize := by exact_mod_cast hv.sector_pos
  unfold sectorToBlock
  conv => lhs; rw [hsize, Int.mul_comm]
  exact Int.mul_ediv_mul_of_pos _ _ hpos

theorem sectorToBlock_mono {s t : Int} (h : s ≤ t) : sectorToBlock v s ≤ sectorToBlock v t := by
  rw [sectorToBlock_eq hv, sectorToBlock_eq hv]
  exact Int.ediv_le_ediv (by exact_mod_cast hv.perBlock_pos) (by omega)

/-- The first sector of a block. -/
def IsStart (v : SemanticEngineVolumePyTSK F) (s : Int) : Prop :=
  ((v.blockSize / v.sectorSize : Nat) : Int) ∣ s - v.volumeOffset

theorem sectorToBlock_add {s : Int} (hs : IsStart v s) {j : Nat}
    (hj : j < v.blockSize / v.sectorSize) : sectorToBlock v (s + j) = sectorToBlock v s := by
  have hpos : (0 : Int) < ((v.blockSize / v.sectorSize : Nat) : Int) := by
    exact_mod_cast hv.perBlock_pos
  obtain ⟨q, hq⟩ := hs
  rw [sectorToBlock_eq hv, sectorToBlock_eq hv, hq,
    show s + j - v.volumeOffset = j + ((v.blockSize / v.sectorSize : Nat) : Int) * q by omega,
    Int.add_mul_ediv_left _ _ (by omega), Int.mul_ediv_cancel_left _ (by omega),
    Int.ediv_eq_zero_of_lt (by omega) (by exact_mod_cast hj), Int.zero_add]

/-- A stride from the start of a block comes to the start of the next one. -/
theorem stride {s : Int} (hs : IsStart v s) :
    IsStart v (s + (v.blockSize / v.sectorSize : Nat)) ∧
      sectorToBlock v (s + (v.blockSize / v.sectorSize : Nat)) = sectorToBlock v s + 1 := by
  have hpos : (0 : Int) < ((v.blockSize / v.sectorSize : Nat) : Int) := by
    exact_mod_cast hv.perBlock_pos
  obtain ⟨q, hq⟩ := hs
  have hnext : s + ((v.blockSize / v.sectorSize : Nat) : Int) - v.volumeOffset =
      ((v.blockSize / v.sectorSize : Nat) : Int) * (q + 1) := by
    rw [Int.mul_add, Int.mul_one, ← hq]
    omega
  refine ⟨⟨q + 1, hnext⟩, ?_⟩
  rw [sectorToBlock_eq hv, sectorToBlock_eq hv, hnext, hq, Int.mul_ediv_cancel_left _ (by omega),
    Int.mul_ediv_cancel_left _ (by omega)]

/-- Where the block changes, one starts. -/
theorem isStart_of_ne {s : Int} (h : sectorToBlock v (s + 1) ≠ sectorToBlock v s) :
    IsStart v (s + 1) := by
  have hpos : (0 : Int) < ((v.blockSize / v.sectorSize : Nat) : Int) := by
    exact_mod_cast hv.perBlock_pos
  rw [sectorToBlock_eq hv, sectorToBlock_eq hv] at h
  unfold IsStart
  generalize hk : ((v.blockSize / v.sectorSize : Nat) : Int) = k at *
  generalize hx : s - v.volumeOffset = x at *
  have hx' : s + 1 - v.volumeOffset = x + 1 := by omega
  rw [hx'] at h ⊢
  have hdiv := Int.mul_ediv_add_emod x k
  have hnonneg := Int.emod_nonneg x (by omega : k ≠ 0)
  have hlt := Int.emod_lt_of_pos x hpos
  by_cases hlast : x % k + 1 = k
  · refine ⟨x / k + 1, ?_⟩
    rw [Int.mul_add, Int.mul_one]
    omega
  · refine absurd ?_ h
    rw [show x + 1 = (x % k + 1) + k * (x / k) by omega, Int.add_mul_ediv_left _ _ (by omega),
      Int.ediv_eq_zero_of_lt (by omega) (by omega), Int.zero_add]

end Borders

/-! ## The loop -/

section Loop
variable {F : Type} [DecidableEq F] {v : SemanticEngineVolumePyTSK F} {sector fsBlock : Int}
  {sectorCount : Nat}

omit [DecidableEq F] in
theorem skipBlock_spec (n i : Nat) :
    i ≤ skipBlock v sector fsBlock n i ∧ skipBlock v sector fsBlock n i ≤ i + n ∧
      (∀ j : Nat, i ≤ j → j < skipBlock v sector fsBlock n i →
        sectorToBlock v (sector + j) = fsBlock) ∧
      (skipBlock v sector fsBlock n i < i + n →
        sectorToBlock v (sector + (skipBlock v sector fsBlock n i : Nat)) ≠ fsBlock) := by
  induction n generalizing i with
  | zero => exact ⟨Nat.le_refl i, Nat.le_refl i, fun j hj hj' => absurd hj (Nat.not_le.mpr hj'),
      fun h => absurd h (Nat.lt_irrefl i)⟩
  | succ n ih =>
    unfold skipBlock
    split
    · rename_i hsame
      obtain ⟨hle, hle', hin, hout⟩ := ih (i + 1)
      refine ⟨by omega, by omega, fun j hj hj' => ?_, fun h => hout (by omega)⟩
      by_cases heq : j = i
      · rw [heq]
        exact hsame.symm
      · exact hin j (by omega) hj'
    · rename_i hother
      exact ⟨Nat.le_refl i, by omega, fun j hj hj' => absurd hj (Nat.not_le.mpr hj'),
        fun _ heq => hother heq.symm⟩

/-- The blocks of the sectors from the `i`th on, each once and in increasing order. -/
structure BlocksFrom (v : SemanticEngineVolumePyTSK F) (sector : Int) (sectorCount i : Nat)
    (blocks : List Int) : Prop where
  increasing : blocks.Pairwise (· < ·)
  mem_iff : ∀ b, b ∈ blocks ↔
    ∃ j : Nat, i ≤ j ∧ j < sectorCount ∧ sectorToBlock v (sector + j) = b

omit [DecidableEq F] in
theorem blocksFrom_nil {i : Nat} (h : sectorCount ≤ i) : BlocksFrom v sector sectorCount i [] := by
  refine ⟨.nil, fun b => ⟨fun hb => absurd hb List.not_mem_nil, ?_⟩⟩
  rintro ⟨j, hij, hj, -⟩
  omega

variable (hv : Aligned v)
include hv

omit [DecidableEq F] in
/-- A block in front of those that come after it. -/
theorem blocksFrom_cons {i i' : Nat} {blocks : List Int} (hi : i < sectorCount)
    (hsame : ∀ j : Nat, i ≤ j → j < i' → sectorToBlock v (sector + j) =
      sectorToBlock v (sector + i))
    (hnext : i' < sectorCount → sectorToBlock v (sector + i) < sectorToBlock v (sector + i'))
    (h : BlocksFrom v sector sectorCount i' blocks) (hlt : i < i') :
    BlocksFrom v sector sectorCount i (sectorToBlock v (sector + i) :: blocks) := by
  constructor
  · refine List.pairwise_cons.mpr ⟨fun b hb => ?_, h.increasing⟩
    obtain ⟨j, hj, hj', rfl⟩ := (h.mem_iff b).mp hb
    exact lt_of_lt_of_le (hnext (by omega)) (sectorToBlock_mono hv (by omega))
  · intro b
    rw [List.mem_cons, h.mem_iff]
    constructor
    · rintro (rfl | ⟨j, hj, hj', rfl⟩)
      · exact ⟨i, Nat.le_refl i, hi, rfl⟩
      · exact ⟨j, by omega, hj', rfl⟩
    · rintro ⟨j, hj, hj', rfl⟩
      by_cases hin : j < i'
      · exact .inl (hsame j hj hin)
      · exact .inr ⟨j, by omega, hj', rfl⟩

/-- From the start of a block on, the strides meet every block once. -/
theorem accessLoop_strides (fuel i : Nat) (hfuel : sectorCount - i < fuel)
    (hstart : i < sectorCount → IsStart v (sector + i)) :
    ∃ blocks, BlocksFrom v sector sectorCount i blocks ∧ ∀ c,
      accessLoop v sector sectorCount fuel i false c = some (blocks.foldlM (collect v) c) := by
  induction fuel generalizing i with
  | zero => omega
  | succ fuel ih =>
    by_cases hi : i < sectorCount
    · have hk := hv.perBlock_pos
      obtain ⟨hnext, hblock⟩ := stride hv (hstart hi)
      have hcast : sector + ((i + v.blockSize / v.sectorSize : Nat) : Int) =
          sector + i + ((v.blockSize / v.sectorSize : Nat) : Int) := by push_cast; omega
      obtain ⟨blocks, hblocks, hloop⟩ := ih (i + v.blockSize / v.sectorSize) (by omega)
        fun _ => by rw [hcast]; exact hnext
      refine ⟨_, blocksFrom_cons hv hi (fun j hj hj' => ?_) (fun _ => ?_) hblocks
        (by omega), fun c => ?_⟩
      · obtain ⟨d, rfl⟩ := Nat.exists_eq_add_of_le hj
        rw [← sectorToBlock_add hv (hstart hi) (show d < _ by omega)]
        congr 1
        push_cast
        omega
      · rw [hcast, hblock]
        omega
      · unfold accessLoop
        rw [if_pos hi]
        dsimp only
        rw [List.foldlM_cons]
        cases collect v c (sectorToBlock v (sector + i)) with
        | error e => rfl
        | ok c' => exact hloop c'
    · refine ⟨[], blocksFrom_nil (by omega), fun c => ?_⟩
      unfold accessLoop
      rw [if_neg hi]
      rfl

/-- The whole loop: after the sectors of the first block the strides begin. -/
theorem accessLoop_first (fuel : Nat) (hfuel : sectorCount < fuel) :
    ∃ blocks, BlocksFrom v sector sectorCount 0 blocks ∧ ∀ c,
      accessLoop v sector sectorCount fuel 0 true c = some (blocks.foldlM (collect v) c) := by
  obtain ⟨fuel, rfl⟩ : ∃ n, fuel = n + 1 := ⟨fuel - 1, by omega⟩
  by_cases hi : 0 < sectorCount
  · obtain ⟨hle, hle', hsame, hother⟩ := @skipBlock_spec F v sector
      (sectorToBlock v (sector + (0 : Nat))) (sectorCount - (0 + 1)) (0 + 1)
    generalize hnext : skipBlock v sector (sectorToBlock v (sector + (0 : Nat)))
      (sectorCount - (0 + 1)) (0 + 1) = i' at *
    have hall : ∀ j : Nat, 0 ≤ j → j < i' → sectorToBlock v (sector + j) =
        sectorToBlock v (sector + (0 : Nat)) := by
      intro j _ hj
      by_cases hzero : j = 0
      · rw [hzero]
      · exact hsame j (by omega) hj
    have hchange : i' < sectorCount → sectorToBlock v (sector + i') ≠
        sectorToBlock v (sector + (0 : Nat)) := fun h => hother (by omega)
    have hstart : i' < sectorCount → IsStart v (sector + i') := by
      intro h
      have hbefore := hall (i' - 1) (by omega) (by omega)
      have hcast : sector + ((i' - 1 : Nat) : Int) + 1 = sector + i' := by omega
      rw [← hcast]
      refine isStart_of_ne hv ?_
      rw [hcast, hbefore]
      exact hchange h
    obtain ⟨blocks, hblocks, hloop⟩ := accessLoop_strides hv fuel i' (by omega) hstart
    refine ⟨_, blocksFrom_cons hv hi hall (fun h => ?_) hblocks (by omega),
      fun c => ?_⟩
    · exact lt_of_le_of_ne (sectorToBlock_mono hv (by omega)) (Ne.symm (hchange h))
    · unfold accessLoop
      rw [if_pos hi]
      dsimp only
      rw [List.foldlM_cons]
      cases collect v c (sectorToBlock v (sector + (0 : Nat))) with
      | error e => rfl
      | ok c' =>
        dsimp only
        rw [if_pos rfl, hnext, hloop c']
        rfl
  · refine ⟨[], blocksFrom_nil (by omega), fun c => ?_⟩
    unfold accessLoop
    rw [if_neg hi]
    rfl

omit [DecidableEq F] in
/-- The blocks without repetitions are the only such list. -/
theorem BlocksFrom.eq_plainBlocks {blocks : List Int}
    (h : BlocksFrom v sector sectorCount 0 blocks) : blocks = plainBlocks v sector sectorCount := by
  have hplain : (plainBlocks v sector sectorCount).Pairwise (· ≤ ·) := by
    refine List.Pairwise.sublist (List.dedup_sublist _) ?_
    refine List.pairwise_map.mpr (List.pairwise_lt_range.imp fun hlt => ?_)
    exact sectorToBlock_mono hv (by omega)
  have hnodup : blocks.Nodup := h.increasing.imp fun hlt => ne_of_lt hlt
  refine List.Perm.eq_of_pairwise (fun a b _ _ => le_antisymm) (h.increasing.imp le_of_lt) hplain
    ((List.perm_ext_iff_of_nodup hnodup (List.nodup_dedup _)).mpr fun b => ?_)
  rw [h.mem_iff, List.mem_dedup, List.mem_map]
  simp

omit hv in
theorem lookups_foldlM {blocks : List Int} {c c' : Collected F}
    (h : blocks.foldlM (collect v) c = .ok c') : c'.lookups = c.lookups ++ blocks := by
  induction blocks generalizing c with
  | nil =>
    cases h
    simp
  | cons b blocks ih =>
    rw [List.foldlM_cons] at h
    cases hcollect : collect v c b with
    | error e =>
      rw [hcollect] at h
      cases h
    | ok c₁ =>
      rw [hcollect] at h
      have hlookups : c₁.lookups = c.lookups ++ [b] := by
        unfold collect at hcollect
        dsimp only at hcollect
        split at hcollect
        · cases hcollect
          rfl
        · split at hcollect
          · cases hcollect
          · cases hcollect
            rfl
      rw [ih h, hlookups, List.append_assoc]
      rfl

theorem blocksFrom_plainBlocks (sector : Int) (sectorCount : Nat) :
    BlocksFrom v sector sectorCount 0 (plainBlocks v sector sectorCount) := by
  obtain ⟨blocks, hblocks, -⟩ :=
    @accessLoop_first F _ v sector sectorCount hv (sectorCount + 1) (Nat.lt_succ_self sectorCount)
  rw [← hblocks.eq_plainBlocks hv]
  exact hblocks

theorem accessLoop_plain (sector : Int) {fuel : Nat} (hfuel : sectorCount < fuel) :
    accessLoop v sector sectorCount fuel 0 true {} = some (plainLoop v sector sectorCount) := by
  obtain ⟨blocks, hblocks, hloop⟩ := accessLoop_first hv fuel hfuel
  rw [hloop, hblocks.eq_plainBlocks hv]
  rfl

/-- **Skipping blocks misses none**: the loop ends, it looks up the block of every sector of the
access exactly once and in increasing order, and what it collects, and with it what `get_access`
returns, is what the plain loop over all sectors collects. -/
theorem accessLoop_exact (sector : Int) (sectorCount : Nat) :
    (∀ fuel, sectorCount < fuel →
      accessLoop v sector sectorCount fuel 0 true {} = some (plainLoop v sector sectorCount)) ∧
      (plainBlocks v sector sectorCount).Pairwise (· < ·) ∧
      (∀ b, b ∈ plainBlocks v sector sectorCount ↔
        ∃ j : Nat, j < sectorCount ∧ sectorToBlock v (sector + j) = b) ∧
      (∀ c, plainLoop v sector sectorCount = .ok c →
        c.lookups = plainBlocks v sector sectorCount) ∧
      ∀ direction data, getAccess v sector sectorCount direction data =
        some (finish v direction data (plainLoop v sector sectorCount)) := by
  have hblocks := blocksFrom_plainBlocks hv sector sectorCount
  refine ⟨fun fuel hfuel => accessLoop_plain hv sector hfuel, hblocks.increasing, fun b => ?_,
    fun c hc => ?_, fun direction data => ?_⟩
  · rw [hblocks.mem_iff]
    simp
  · rw [lookups_foldlM hc]
    rfl
  · unfold getAccess
    rw [accessLoop_plain hv sector (Nat.lt_succ_self _)]
    rfl

end Loop

/-- Blocks of two sectors from sector 63 on, each a file of its own. -/
def pairVolume : SemanticEngineVolumePyTSK Int where
  volumeOffset := 63
  sectorSize := 512
  blockSize := 1024
  fsBlockToFile := some
  fsFileToPath := fun b => some (if b = 0 then "first" else "later")
  name := fun _ => "file"
  opens := fun _ => true

theorem accessLoop_exact_pairs :
    accessLoop pairVolume 64 4 5 0 true {} = some (plainLoop pairVolume 64 4) ∧
      plainBlocks pairVolume 64 4 = [0, 1, 2] :=
  ⟨(accessLoop_exact ⟨by decide, by decide, by decide⟩ 64 4).1 5 (by decide), by decide⟩

end LoPhi.Filesystems.Blocks
