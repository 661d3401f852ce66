import Mathlib.Data.List.Induction
import LoPhi.Lib.Dict
import LoPhi.Lib.File

/-! # The shadow image

`Shadow_Img_Info` gives `pytsk3` an image that can be written to without a change to the file
under it: written sectors go to a cache, and a read takes each sector from the cache or else from
the file. -/

namespace LoPhi.Filesystems.Shadow
open LoPhi.Lib LoPhi.Lib.File LoPhi.Lib.Window

/-- `Shadow_Img_Info`: the file it was opened on, and `CACHE`, by sector. -/
structure ShadowImgInfo where
  fd : List UInt8
  sectorSize : Nat
  cache : Dict Nat (List UInt8)
  sector_pos : 0 < sectorSize

/-- An image that was just opened. -/
def init (url : List UInt8) (sectorSize : Nat) (h : 0 < sectorSize) : ShadowImgInfo :=
  ⟨url, sectorSize, .empty, h⟩

/-- `_read_sector`. -/
def readSector (img : ShadowImgInfo) (sector offsetIntoSector length : Nat) : List UInt8 :=
  match img.cache.get? sector with
  | some bytes => (bytes.take (offsetIntoSector + length)).drop offsetIntoSector
  | none => readAt img.fd (sector * img.sectorSize + offsetIntoSector) length

/-- The loop of `read`: at most one sector at a time. -/
def readLoop (img : ShadowImgInfo) (off length : Nat) (data : List (List UInt8)) :
    List (List UInt8) :=
  if 0 < length then
    let sector := off / img.sectorSize
    let offsetIntoSector := off % img.sectorSize
    let l := min length (img.sectorSize - offsetIntoSector)
    readLoop img (off + l) (length - l) (data ++ [readSector img sector offsetIntoSector l])
  else data
termination_by length
decreasing_by
  have := Nat.mod_lt off img.sector_pos
  omega

/-- `read`. -/
def read (img : ShadowImgInfo) (off length : Nat) : List UInt8 :=
  (readLoop img off length []).flatten

/-- A call of `write`. -/
structure Write where
  sector : Nat
  sectorCount : Nat
  data : List UInt8
  deriving DecidableEq, Repr

/-- `write`. -/
def write (img : ShadowImgInfo) (w : Write) : ShadowImgInfo :=
  { img with
    cache := (List.range w.sectorCount).foldl
      (fun cache i => cache.insert (w.sector + i)
        ((w.data.take ((i + 1) * img.sectorSize)).drop (i * img.sectorSize))) img.cache }

/-- The image after a sequence of writes. -/
def writes (img : ShadowImgInfo) (ws : List Write) : ShadowImgInfo := ws.foldl write img

/-! ## What the image stands for -/

/-- The content of the image is `f`: a cached sector has all its bytes, and the others are those
of the file. -/
def Holds (img : ShadowImgInfo) (f : Nat → UInt8) : Prop :=
  ∀ sector,
    match img.cache.get? sector with
    | some bytes => bytes = window f (sector * img.sectorSize) img.sectorSize
    | none => ∀ x, x / img.sectorSize = sector → f x = byteAt img.fd x

/-- The content after a write. -/
def overwrite (sectorSize : Nat) (f : Nat → UInt8) (w : Write) (x : Nat) : UInt8 :=
  if w.sector ≤ x / sectorSize ∧ x / sectorSize < w.sector + w.sectorCount then
    w.data.getD (x - w.sector * sectorSize) 0
  else f x

section Reading
variable {img : ShadowImgInfo} {f : Nat → UInt8}

/-- A part of one sector. -/
theorem readSector_eq (h : Holds img f) {off l : Nat}
    (hl : l ≤ img.sectorSize - off % img.sectorSize) (hin : off + l ≤ img.fd.length) :
    readSector img (off / img.sectorSize) (off % img.sectorSize) l = window f off l := by
  have hoff : off / img.sectorSize * img.sectorSize + off % img.sectorSize = off :=
    Nat.div_add_mod' off img.sectorSize
  have hmod := Nat.mod_lt off img.sector_pos
  have hsector := h (off / img.sectorSize)
  unfold readSector
  split at hsector
  · rw [hsector, take_window (by omega), drop_window (by omega), hoff, Nat.add_sub_cancel_left]
  · rw [hoff, readAt_eq_window hin]
    refine window_congr fun x hle hlt => (hsector x ?_).symm
    refine Nat.div_eq_of_lt_le (by omega) ?_
    rw [Nat.add_mul, Nat.one_mul]
    omega

/-- The loop collects the bytes up to the offset it has reached. -/
theorem flatten_readLoop (h : Holds img f) (off length : Nat) (data : List (List UInt8))
    (hin : off + length ≤ img.fd.length) :
    (readLoop img off length data).flatten = data.flatten ++ window f off length := by
  induction length using Nat.strong_induction_on generalizing off data with
  | _ length ih =>
    unfold readLoop
    split
    · have hmod := Nat.mod_lt off img.sector_pos
      dsimp only
      rw [ih _ (by omega) _ _ (by omega), readSector_eq h (by omega) (by omega),
        List.flatten_append, List.flatten_singleton, List.append_assoc, ← window_add]
      congr 2
      omega
    · have hzero : length = 0 := by omega
      rw [hzero, window_zero, List.append_nil]

theorem read_eq_window (h : Holds img f) {off length : Nat}
    (hin : off + length ≤ img.fd.length) : read img off length = window f off length := by
  unfold read
  rw [flatten_readLoop h off length [] hin]
  rfl

end Reading

section Writing
variable {img : ShadowImgInfo} {f : Nat → UInt8} {w : Write}

theorem get?_cache_write (sector : Nat) :
    (write img w).cache.get? sector =
      if w.sector ≤ sector ∧ sector < w.sector + w.sectorCount then
        some ((w.data.take ((sector - w.sector + 1) * img.sectorSize)).drop
          ((sector - w.sector) * img.sectorSize))
      else img.cache.get? sector := by
  unfold write
  dsimp only
  induction w.sectorCount with
  | zero => rw [if_neg (by omega)]; rfl
  | succ count ih =>
    rw [List.range_succ, List.foldl_append, List.foldl_cons, List.foldl_nil, Dict.get?_insert]
    by_cases hlast : sector = w.sector + count
    · rw [if_pos hlast, if_pos (by omega), hlast, Nat.add_sub_cancel_left]
    · rw [if_neg hlast, ih]
      by_cases hin : w.sector ≤ sector ∧ sector < w.sector + count
      · rw [if_pos hin, if_pos (by omega)]
      · rw [if_neg hin, if_neg (by omega)]

/-- The bytes of a sector that is written. -/
theorem slice_eq_window (sectorSize i : Nat) {data : List UInt8}
    (h : (i + 1) * sectorSize ≤ data.length) :
    (data.take ((i + 1) * sectorSize)).drop (i * sectorSize) =
      window (byteAt data) (i * sectorSize) sectorSize := by
  have hsize : (i + 1) * sectorSize = i * sectorSize + sectorSize := Nat.succ_mul i sectorSize
  rw [List.drop_take, hsize, Nat.add_sub_cancel_left]
  exact readAt_eq_window (by omega)

theorem holds_write (h : Holds img f) (hdata : w.sectorCount * img.sectorSize ≤ w.data.length) :
    Holds (write img w) (overwrite img.sectorSize f w) := by
  intro sector
  rw [get?_cache_write]
  by_cases hin : w.sector ≤ sector ∧ sector < w.sector + w.sectorCount
  · rw [if_pos hin]
    obtain ⟨i, rfl⟩ := Nat.exists_eq_add_of_le hin.1
    have hi : (i + 1) * img.sectorSize ≤ w.data.length :=
      Nat.le_trans (Nat.mul_le_mul_right _ (by omega)) hdata
    dsimp only
    rw [Nat.add_sub_cancel_left, slice_eq_window _ _ hi]
    show _ = window _ ((w.sector + i) * img.sectorSize) img.sectorSize
    rw [Nat.add_mul, ← window_shift]
    refine window_congr fun k hle hlt => ?_
    have hsector : (w.sector * img.sectorSize + k) / img.sectorSize = w.sector + i := by
      refine Nat.div_eq_of_lt_le ?_ ?_
      · rw [Nat.add_mul]
        omega
      · rw [Nat.add_mul, Nat.add_mul]
        omega
    unfold overwrite
    rw [hsector, if_pos hin, Nat.add_sub_cancel_left]
    rfl
  · rw [if_neg hin]
    have hsector := h sector
    have hout : ∀ x, x / img.sectorSize = sector → overwrite img.sectorSize f w x = f x :=
      fun x hx => if_neg (by rw [hx]; exact hin)
    split at hsector
    · rw [hsector]
      refine (window_congr fun x hle hlt => hout x ?_).symm
      refine Nat.div_eq_of_lt_le hle ?_
      rw [Nat.add_mul, Nat.one_mul]
      exact hlt
    · exact fun x hx => (hout x hx).trans (hsector x hx)

end Writing

/-! ## Reads after writes -/

/-- The byte of the last write that covers its sector, or that of the file. -/
def lastByte (sectorSize : Nat) (url : List UInt8) (ws : List Write) (x : Nat) : UInt8 :=
  match ws.reverse.find? fun w =>
      w.sector ≤ x / sectorSize ∧ x / sectorSize < w.sector + w.sectorCount with
  | some w => w.data.getD (x - w.sector * sectorSize) 0
  | none => byteAt url x

theorem lastByte_concat (sectorSize : Nat) (url : List UInt8) (ws : List Write) (w : Write) :
    lastByte sectorSize url (ws ++ [w]) = overwrite sectorSize (lastByte sectorSize url ws) w := by
  funext x
  unfold lastByte overwrite
  rw [List.reverse_append, List.reverse_singleton, List.singleton_append, List.find?_cons]
  by_cases hin : w.sector ≤ x / sectorSize ∧ x / sectorSize < w.sector + w.sectorCount
  · rw [if_pos hin, decide_eq_true hin]
  · rw [if_neg hin, decide_eq_false hin]

section Images
variable {url : List UInt8} {sectorSize : Nat} (hpos : 0 < sectorSize) {ws : List Write}

theorem writes_fd : (writes (init url sectorSize hpos) ws).fd = url ∧
    (writes (init url sectorSize hpos) ws).sectorSize = sectorSize := by
  have hkeep : ∀ img : ShadowImgInfo,
      (writes img ws).fd = img.fd ∧ (writes img ws).sectorSize = img.sectorSize := by
    induction ws with
    | nil => exact fun img => ⟨rfl, rfl⟩
    | cons w ws ih => exact fun img => ih (write img w)
  exact hkeep _

theorem holds_writes (hws : ∀ w ∈ ws, w.sectorCount * sectorSize ≤ w.data.length) :
    Holds (writes (init url sectorSize hpos) ws) (lastByte sectorSize url ws) := by
  induction ws using List.reverseRecOn with
  | nil => exact fun sector x _ => rfl
  | append_singleton ws w ih =>
    have hsize : (writes (init url sectorSize hpos) ws).sectorSize = sectorSize :=
      (writes_fd hpos).2
    have hbefore := ih fun w' hw' => hws w' (List.mem_append_left _ hw')
    have hafter := holds_write hbefore (w := w) (by
      rw [hsize]
      exact hws w (by simp))
    rw [hsize] at hafter
    rw [lastByte_concat, writes, List.foldl_append]
    exact hafter

/-- **The shadow image reads as the file overlaid by the writes**: as many bytes as were asked
for, each that of the last write that covers its sector, or else that of the file. The file stays
as it is. -/
theorem read_writes (hws : ∀ w ∈ ws, w.sectorCount * sectorSize ≤ w.data.length)
    {off length : Nat} (hin : off + length ≤ url.length) :
    (read (writes (init url sectorSize hpos) ws) off length).length = length ∧
      (∀ i < length, (read (writes (init url sectorSize hpos) ws) off length)[i]? =
        some (lastByte sectorSize url ws (off + i))) ∧
      (writes (init url sectorSize hpos) ws).fd = url := by
  have hread := read_eq_window (holds_writes hpos hws)
    (Nat.le_trans hin (Nat.le_of_eq (by rw [(writes_fd hpos).1])))
  rw [hread]
  exact ⟨length_window, fun i hi => getElem?_window hi, (writes_fd hpos).1⟩

/-- Two sectors of four bytes, the second written: a read across their border. -/
theorem read_writes_border :
    (read (writes (init [0, 1, 2, 3, 4, 5, 6, 7] 4 (by decide)) [⟨1, 1, [9, 8, 7, 6]⟩])
        2 4).length = 4 ∧
      (read (writes (init [0, 1, 2, 3, 4, 5, 6, 7] 4 (by decide)) [⟨1, 1, [9, 8, 7, 6]⟩])
        2 4)[1]? = some 3 ∧
      (read (writes (init [0, 1, 2, 3, 4, 5, 6, 7] 4 (by decide)) [⟨1, 1, [9, 8, 7, 6]⟩])
        2 4)[3]? = some 8 := by
  obtain ⟨hlength, hbytes, -⟩ := @read_writes [0, 1, 2, 3, 4, 5, 6, 7] 4 (by decide)
    [⟨1, 1, [9, 8, 7, 6]⟩] (by decide) 2 4 (by decide)
  exact ⟨hlength, hbytes 1 (by decide), hbytes 3 (by decide)⟩

end Images

end LoPhi.Filesystems.Shadow
