import LoPhi.Lib.Bisect
import LoPhi.Lib.Dict

/-! # The volumes of a disk

`SemanticEngineDisk`, of which there are two classes with the same lookup: the volumes of a disk
are added in order, and an access goes to the engine of the volume that its sector is in. The
volume is found by bisection in the list of the first sectors. -/

namespace LoPhi.Filesystems.Volumes
open LoPhi.Lib LoPhi.Lib.Bisect

/-- A volume of `pytsk3`. `start` and `len` are in sectors. -/
structure Volume where
  addr : Nat
  start : Nat
  len : Nat
  desc : String
  deriving DecidableEq, Repr

/-- The exceptions: a subscript out of range, and a volume without an entry. -/
inductive DiskError where
  | indexError
  | keyError
  deriving DecidableEq, Repr

/-- `SemanticEngineDisk`. -/
structure SemanticEngineDisk (α : Type) where
  volumes : List Volume := []
  volumeBoundaries : List Nat := []
  volToSe : Dict Volume (Option α) := .empty

section Methods
variable {α β : Type}

/-- The engine of a volume in `filesystem_reconstructor`: NTFS only. -/
def sparseEngine (sevNtfsSparse : Volume → α) (vol : Volume) : Option α :=
  if vol.desc = "NTFS / exFAT (0x07)" ∨ vol.desc = "NTFS (0x07)" then some (sevNtfsSparse vol)
  else none

/-- `add_volume`, with the engine that is made for the volume. -/
def addVolume (engine : Volume → Option α) (disk : SemanticEngineDisk α) (vol : Volume) :
    SemanticEngineDisk α where
  volumes := disk.volumes ++ [vol]
  volumeBoundaries := disk.volumeBoundaries ++ [vol.start]
  volToSe := disk.volToSe.insert vol (engine vol)

/-- `__init__` adds the volumes one after the other. -/
def addVolumes (engine : Volume → Option α) (vols : List Volume) : SemanticEngineDisk α :=
  vols.foldl (addVolume engine) {}

/-- `_get_volume`. The index 0 becomes -1, which is the last volume. -/
def getVolume (disk : SemanticEngineDisk α) (sector : Nat) : Except DiskError (Option Volume) :=
  let idx := bisect disk.volumeBoundaries sector
  if disk.volumes.length < idx then .ok none
  else
    match (if idx = 0 then disk.volumes.getLast? else disk.volumes[idx - 1]?) with
    | none => .error .indexError
    | some vol => .ok (some vol)

/-- `get_access`. `noEngine` is what is returned for a volume without an engine: nothing, or an
operation on a non filesystem. -/
def getAccess (access : α → β) (noEngine : β) (disk : SemanticEngineDisk α) (sector : Nat) :
    Except DiskError (Option β) :=
  match getVolume disk sector with
  | .error e => .error e
  | .ok none => .ok none
  | .ok (some vol) =>
    match disk.volToSe.get? vol with
    | none => .error .keyError
    | some none => .ok (some noEngine)
    | some (some se) => .ok (some (access se))

end Methods

/-! ## The lookup -/

/-- The sector lies in the volume. -/
def Contains (vol : Volume) (sector : Nat) : Prop :=
  vol.start ≤ sector ∧ sector < vol.start + vol.len

/-- The volumes are in the order of their starts, and no two of them share a sector. -/
def Ordered (vols : List Volume) : Prop :=
  vols.Pairwise fun v w => v.start ≤ w.start ∧ ∀ sector, Contains v sector → ¬ Contains w sector

section Lookup
variable {α : Type} {engine : Volume → Option α} {vols : List Volume} {sector : Nat}

/-- The lookup gives the volume that contains the sector, and none where there is none. -/
def Resolves (engine : Volume → Option α) (vols : List Volume) (sector : Nat) : Prop :=
  (∀ v ∈ vols, getVolume (addVolumes engine vols) sector = .ok (some v) ↔ Contains v sector) ∧
    ((∀ v ∈ vols, ¬ Contains v sector) →
      getVolume (addVolumes engine vols) sector = .ok none)

theorem addVolumes_eq (engine : Volume → Option α) (vols : List Volume) :
    (addVolumes engine vols).volumes = vols ∧
      (addVolumes engine vols).volumeBoundaries = vols.map Volume.start := by
  have hfold : ∀ disk : SemanticEngineDisk α,
      (vols.foldl (addVolume engine) disk).volumes = disk.volumes ++ vols ∧
        (vols.foldl (addVolume engine) disk).volumeBoundaries =
          disk.volumeBoundaries ++ vols.map Volume.start := by
    induction vols with
    | nil => exact fun disk => ⟨(List.append_nil _).symm, (List.append_nil _).symm⟩
    | cons vol vols ih =>
      intro disk
      obtain ⟨hvolumes, hboundaries⟩ := ih (addVolume engine disk vol)
      rw [List.foldl_cons, hvolumes, hboundaries]
      exact ⟨List.append_assoc _ _ _, List.append_assoc _ _ _⟩
  exact hfold {}

/-- The last of the volumes that do not start after the sector; the last of all when each does. -/
theorem getVolume_append {left right : List Volume}
    (hsorted : ((left ++ right).map Volume.start).Pairwise (· ≤ ·))
    (hleft : ∀ v ∈ left, v.start ≤ sector) (hright : ∀ v ∈ right, sector < v.start) :
    getVolume (addVolumes engine (left ++ right)) sector =
      match (if left = [] then right.getLast? else left.getLast?) with
      | none => .error .indexError
      | some vol => .ok (some vol) := by
  obtain ⟨hvolumes, hboundaries⟩ := addVolumes_eq engine (left ++ right)
  have hidx : bisect ((left ++ right).map Volume.start) sector = left.length := by
    rw [List.map_append] at hsorted ⊢
    rw [bisect_append hsorted (by simpa using hleft) (by simpa using hright), List.length_map]
  unfold getVolume
  rw [hvolumes, hboundaries, hidx]
  dsimp only
  rw [if_neg (by simp)]
  by_cases hnil : left = []
  · rw [hnil]
    rfl
  · have hpos := List.length_pos_iff.mpr hnil
    rw [if_neg (by omega), if_neg hnil, List.getElem?_append_left (by omega),
      List.getLast?_eq_getElem?]

theorem sorted_of_ordered (h : Ordered vols) :
    (vols.map Volume.start).Pairwise (· ≤ ·) :=
  List.pairwise_map.mpr (h.imp And.left)

/-- Whatever the sector, `_get_volume` finds a volume if there is any. -/
theorem getVolume_ne_none (disk : SemanticEngineDisk α)
    (h : disk.volumeBoundaries = disk.volumes.map Volume.start) (sector : Nat) :
    getVolume disk sector ≠ .ok none := by
  unfold getVolume
  have hle := bisect_le disk.volumeBoundaries sector
  rw [h, List.length_map] at hle
  rw [h]
  dsimp only
  rw [if_neg (by omega)]
  split <;> simp

/-- **A sector is resolved to the volume that contains it if and only if** there is one and the
volumes that were added after it all start after the sector. Before the first volume, in a gap
and after the last one, some other volume is taken. -/
theorem resolves_iff (h : Ordered vols) :
    Resolves engine vols sector ↔
      ∃ before v after, vols = before ++ v :: after ∧ Contains v sector ∧
        ∀ w ∈ after, sector < w.start := by
  have hsorted := sorted_of_ordered h
  constructor
  · rintro ⟨hfound, hnone⟩
    have hsome : ∃ v ∈ vols, Contains v sector := by
      by_contra hnot
      push Not at hnot
      obtain ⟨hvolumes, hboundaries⟩ := addVolumes_eq engine vols
      exact getVolume_ne_none _ (by rw [hvolumes, hboundaries]) sector (hnone hnot)
    obtain ⟨v, hv, hin⟩ := hsome
    have hget := (hfound v hv).mpr hin
    obtain ⟨starts, later, hsplit, hleft, hright⟩ := exists_divided hsorted sector
    obtain ⟨left, right, rfl, rfl, rfl⟩ := List.map_eq_append_iff.mp hsplit
    rw [List.forall_mem_map] at hleft hright
    rw [getVolume_append hsorted hleft hright] at hget
    by_cases hnil : left = []
    · have hlater := hright v (by simpa [hnil] using hv)
      exact absurd hin.1 (Nat.not_le.mpr hlater)
    · rw [if_neg hnil] at hget
      split at hget
      · cases hget
      · rename_i last hlast
        cases hget
        obtain ⟨before, rfl⟩ := List.getLast?_eq_some_iff.mp hlast
        exact ⟨before, v, right, List.append_assoc _ _ _, hin, hright⟩
  · rintro ⟨before, v, after, rfl, hin, hafter⟩
    obtain ⟨-, -, hapart⟩ := List.pairwise_append.mp h
    have hbefore : ∀ w ∈ before ++ [v], w.start ≤ sector := by
      intro w hw
      obtain hw | hw := List.mem_append.mp hw
      · exact Nat.le_trans (hapart w hw v List.mem_cons_self).1 hin.1
      · rw [List.mem_singleton.mp hw]
        exact hin.1
    have hget : getVolume (addVolumes engine (before ++ v :: after)) sector = .ok (some v) := by
      have hlast := @getVolume_append α engine sector (before ++ [v]) after
        (by simpa using hsorted) hbefore hafter
      simpa using hlast
    refine ⟨fun w hw => ?_, fun hnone => absurd hin (hnone v (by simp))⟩
    rw [hget]
    constructor
    · intro heq
      cases heq
      exact hin
    · intro hw_in
      obtain hw | hw := List.mem_append.mp hw
      · exact absurd hin ((hapart w hw v List.mem_cons_self).2 sector hw_in)
      · obtain rfl | hw := List.mem_cons.mp hw
        · rfl
        · exact absurd hw_in.1 (Nat.not_le.mpr (hafter w hw))

end Lookup

/-! ## A disk with gaps -/

def bootVolume : Volume := ⟨0, 63, 100, "NTFS (0x07)"⟩

def dataVolume : Volume := ⟨1, 200, 50, "NTFS (0x07)"⟩

def gapDisk : SemanticEngineDisk Unit :=
  addVolumes (sparseEngine fun _ => ()) [bootVolume, dataVolume]

theorem ordered_gapDisk : Ordered [bootVolume, dataVolume] := by
  refine List.pairwise_pair.mpr ⟨by decide, fun sector hboot hdata => ?_⟩
  have hend : sector < 63 + 100 := hboot.2
  have hstart : 200 ≤ sector := hdata.1
  omega

theorem resolves_inside :
    Resolves (sparseEngine fun _ => ()) [bootVolume, dataVolume] 70 := by
  refine (resolves_iff ordered_gapDisk).mpr
    ⟨[], bootVolume, [dataVolume], rfl, ⟨by decide, by decide⟩, ?_⟩
  intro w hw
  rw [List.mem_singleton.mp hw]
  decide

/-- A sector before the first volume is taken for one of the last, and one in the gap for one of
the volume before it. -/
theorem gaps_resolved :
    (∀ v ∈ [bootVolume, dataVolume], ¬ (v.start ≤ 10 ∧ 10 < v.start + v.len) ∧
        ¬ (v.start ≤ 170 ∧ 170 < v.start + v.len)) ∧
      getVolume gapDisk 10 = .ok (some dataVolume) ∧
      getVolume gapDisk 170 = .ok (some bootVolume) ∧
      ¬ Resolves (sparseEngine fun _ => ()) [bootVolume, dataVolume] 10 := by
  have hbefore : getVolume gapDisk 10 = .ok (some dataVolume) := by decide
  refine ⟨by decide, hbefore, by decide, fun h => ?_⟩
  obtain ⟨hstart, -⟩ := (h.1 dataVolume (by simp)).mp hbefore
  exact absurd hstart (by decide)

end LoPhi.Filesystems.Volumes
