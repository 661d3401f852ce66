import Mathlib.Data.List.Induction
import LoPhi.Lib.File
import LoPhi.Ntfs.Engine

/-! # The writable images

`Write_Img_Info` writes to the file of the image. `Shadow_Img_Info` leaves the file alone
and keeps the written sectors in a dictionary. The first writes all the data it is given,
the second only the sectors that are announced, so they show the same bytes as long as
the data beyond the announced sectors makes no difference. -/

namespace LoPhi.Ntfs.Images
open LoPhi.Lib.Window LoPhi.Lib.File LoPhi.Ntfs.Engine

/-- `Write_Img_Info`. -/
structure WriteImgInfo where
  sectorSize : Nat
  sector_pos : 0 < sectorSize
  file : List UInt8

/-- `Shadow_Img_Info`. -/
structure ShadowImgInfo where
  sectorSize : Nat
  sector_pos : 0 < sectorSize
  file : List UInt8
  cache : Nat → Option (List UInt8) := fun _ => none

namespace WriteImgInfo

def read (i : WriteImgInfo) (off length : Nat) : List UInt8 := readAt i.file off length

/-- `write`. The sector count is not looked at. -/
def write (i : WriteImgInfo) (w : Write) : WriteImgInfo :=
  { i with file := writeAt i.file (w.sector * i.sectorSize) w.data }

end WriteImgInfo

namespace ShadowImgInfo
variable (i : ShadowImgInfo)

/-- `_read_sector`. -/
def readSector (sector offsetIntoSector length : Nat) : List UInt8 :=
  match i.cache sector with
  | some data => (data.drop offsetIntoSector).take length
  | none => readAt i.file (sector * i.sectorSize + offsetIntoSector) length

/-- The loop of `read`. Every turn reads a byte, so `length` is enough fuel. -/
def readLoop : Nat → Nat → Nat → List UInt8 → List UInt8
  | 0, _, _, data => data
  | fuel + 1, off, length, data =>
    if length = 0 then data
    else
      let sector := off / i.sectorSize
      let offsetIntoSector := off % i.sectorSize
      let l := min length (i.sectorSize - offsetIntoSector)
      readLoop fuel (off + l) (length - l) (data ++ i.readSector sector offsetIntoSector l)

def read (off length : Nat) : List UInt8 := i.readLoop length off length []

/-- `self.CACHE[sector] = data`. -/
def store (sector : Nat) (data : List UInt8) : ShadowImgInfo :=
  { i with cache := fun s => if s = sector then some data else i.cache s }

/-- `data[k*self.SECTOR_SIZE:(k+1)*self.SECTOR_SIZE]`. -/
def sectorOf (data : List UInt8) (k : Nat) : List UInt8 :=
  (data.drop (k * i.sectorSize)).take i.sectorSize

def write (w : Write) : ShadowImgInfo :=
  (List.range w.sectorCount).foldl (fun i k => i.store (w.sector + k) (i.sectorOf w.data k)) i

end ShadowImgInfo

/-! ## What the images show -/

section Content
variable {i : ShadowImgInfo}

/-- The byte the shadow image shows at an offset. -/
def content (i : ShadowImgInfo) (x : Nat) : UInt8 :=
  match i.cache (x / i.sectorSize) with
  | some data => byteAt data (x % i.sectorSize)
  | none => byteAt i.file x

/-- Every sector in the dictionary is whole. -/
def WholeSectors (i : ShadowImgInfo) : Prop :=
  ∀ s data, i.cache s = some data → data.length = i.sectorSize

theorem content_in_sector (i : ShadowImgInfo) (sector : Nat) {k : Nat} (hk : k < i.sectorSize) :
    content i (sector * i.sectorSize + k) =
      match i.cache sector with
      | some data => byteAt data k
      | none => byteAt i.file (sector * i.sectorSize + k) := by
  have hdiv : (sector * i.sectorSize + k) / i.sectorSize = sector := by
    rw [Nat.mul_comm, Nat.mul_add_div i.sector_pos, Nat.div_eq_of_lt hk, Nat.add_zero]
  have hmod : (sector * i.sectorSize + k) % i.sectorSize = k := by
    rw [Nat.mul_comm, Nat.mul_add_mod, Nat.mod_eq_of_lt hk]
  unfold content
  rw [hdiv, hmod]

theorem readSector_eq (hwhole : WholeSectors i) {sector off length : Nat}
    (hsector : off + length ≤ i.sectorSize)
    (hfile : sector * i.sectorSize + off + length ≤ i.file.length) :
    i.readSector sector off length = window (content i) (sector * i.sectorSize + off) length := by
  have hcontent : window (content i) (sector * i.sectorSize + off) length =
      window (fun k => match i.cache sector with
        | some data => byteAt data k
        | none => byteAt i.file (sector * i.sectorSize + k)) off length := by
    rw [← window_shift]
    exact window_congr fun k _ hk => content_in_sector i sector (by omega)
  rw [hcontent]
  unfold ShadowImgInfo.readSector
  cases hcache : i.cache sector with
  | some data => exact readAt_eq_window (by rw [hwhole sector data hcache]; exact hsector)
  | none =>
    dsimp only
    rw [readAt_eq_window hfile, ← window_shift]

theorem readLoop_eq (hwhole : WholeSectors i) {fuel off length : Nat} (hfuel : length ≤ fuel)
    (hfile : off + length ≤ i.file.length) (data : List UInt8) :
    i.readLoop fuel off length data = data ++ window (content i) off length := by
  induction fuel generalizing off length data with
  | zero =>
    obtain rfl : length = 0 := by omega
    exact (List.append_nil _).symm
  | succ fuel ih =>
    unfold ShadowImgInfo.readLoop
    by_cases h0 : length = 0
    · rw [if_pos h0, h0, window_zero, List.append_nil]
    rw [if_neg h0]
    have hlt : off % i.sectorSize < i.sectorSize := Nat.mod_lt _ i.sector_pos
    have hoff : off / i.sectorSize * i.sectorSize + off % i.sectorSize = off := by
      rw [Nat.mul_comm]
      exact Nat.div_add_mod off i.sectorSize
    dsimp only
    rw [ih (by omega) (by omega), readSector_eq hwhole (by omega) (by rw [hoff]; omega), hoff,
      List.append_assoc, ← window_add, Nat.add_sub_cancel' (Nat.min_le_left _ _)]

theorem read_eq (hwhole : WholeSectors i) {off length : Nat}
    (hfile : off + length ≤ i.file.length) :
    i.read off length = window (content i) off length := by
  unfold ShadowImgInfo.read
  rw [readLoop_eq hwhole (Nat.le_refl _) hfile, List.nil_append]

end Content

/-! ## One write -/

/-- The write lies in an image of `size` bytes and has the data it announces. -/
structure Inside (sectorSize size : Nat) (w : Write) : Prop where
  sectors : (w.sector + w.sectorCount) * sectorSize ≤ size
  data : w.sectorCount * sectorSize ≤ w.data.length

/-- The byte lies in the announced sectors. -/
def Announced (sectorSize : Nat) (w : Write) (x : Nat) : Prop :=
  w.sector * sectorSize ≤ x ∧ x < (w.sector + w.sectorCount) * sectorSize

/-- The data of the write reaches the byte. -/
def Reaches (sectorSize : Nat) (w : Write) (x : Nat) : Prop :=
  w.sector * sectorSize ≤ x ∧ x < w.sector * sectorSize + w.data.length

instance (sectorSize : Nat) (w : Write) (x : Nat) : Decidable (Announced sectorSize w x) :=
  inferInstanceAs (Decidable (_ ∧ _))

instance (sectorSize : Nat) (w : Write) (x : Nat) : Decidable (Reaches sectorSize w x) :=
  inferInstanceAs (Decidable (_ ∧ _))

/-- The byte a write has for an offset. -/
def dataByte (sectorSize : Nat) (w : Write) (x : Nat) : UInt8 :=
  byteAt w.data (x - w.sector * sectorSize)

theorem Announced.reaches {sectorSize size x : Nat} {w : Write} (hw : Inside sectorSize size w)
    (h : Announced sectorSize w x) : Reaches sectorSize w x := by
  have hdata := hw.data
  obtain ⟨hle, hlt⟩ := h
  rw [Nat.add_mul] at hlt
  exact ⟨hle, by omega⟩

section Shadow
variable {i : ShadowImgInfo} {w : Write}

/-- The dictionary after the first `n` turns of the loop of `write`. -/
theorem cache_stores (i : ShadowImgInfo) (w : Write) (n s : Nat) :
    let i' := (List.range n).foldl (fun i k => i.store (w.sector + k) (i.sectorOf w.data k)) i
    i'.sectorSize = i.sectorSize ∧ i'.file = i.file ∧
      i'.cache s = if w.sector ≤ s ∧ s < w.sector + n then some (i.sectorOf w.data (s - w.sector))
        else i.cache s := by
  induction n with
  | zero =>
    refine ⟨rfl, rfl, ?_⟩
    rw [if_neg (by omega)]
    rfl
  | succ n ih =>
    rw [List.range_succ, List.foldl_append]
    obtain ⟨hsize, hfile, hcache⟩ := ih
    refine ⟨hsize, hfile, ?_⟩
    show (if s = w.sector + n then some (ShadowImgInfo.sectorOf _ w.data n) else _) = _
    by_cases hs : s = w.sector + n
    · subst hs
      rw [if_pos rfl, if_pos (by omega), Nat.add_sub_cancel_left, ShadowImgInfo.sectorOf, hsize]
      rfl
    · rw [if_neg hs, hcache]
      by_cases hin : w.sector ≤ s ∧ s < w.sector + n
      · rw [if_pos hin, if_pos (by omega)]
      · rw [if_neg hin, if_neg (by omega)]

theorem sectorSize_write : (i.write w).sectorSize = i.sectorSize :=
  (cache_stores i w w.sectorCount 0).1

theorem file_write : (i.write w).file = i.file := (cache_stores i w w.sectorCount 0).2.1

theorem cache_write (s : Nat) : (i.write w).cache s =
    if w.sector ≤ s ∧ s < w.sector + w.sectorCount then some (i.sectorOf w.data (s - w.sector))
    else i.cache s :=
  (cache_stores i w w.sectorCount s).2.2

theorem wholeSectors_write (hw : w.sectorCount * i.sectorSize ≤ w.data.length)
    (h : WholeSectors i) : WholeSectors (i.write w) := by
  intro s data hs
  rw [sectorSize_write]
  rw [cache_write] at hs
  split at hs
  · rename_i hin
    cases hs
    have hlast : (s - w.sector + 1) * i.sectorSize ≤ w.sectorCount * i.sectorSize :=
      Nat.mul_le_mul_right _ (by omega)
    rw [Nat.succ_mul] at hlast
    rw [ShadowImgInfo.sectorOf, List.length_take, List.length_drop]
    omega
  · exact h s data hs

theorem content_write (x : Nat) : content (i.write w) x =
    if Announced i.sectorSize w x then dataByte i.sectorSize w x else content i x := by
  have hsector : Announced i.sectorSize w x ↔
      w.sector ≤ x / i.sectorSize ∧ x / i.sectorSize < w.sector + w.sectorCount := by
    unfold Announced
    rw [Nat.le_div_iff_mul_le i.sector_pos, Nat.div_lt_iff_lt_mul i.sector_pos]
  unfold content
  rw [sectorSize_write, file_write, cache_write]
  by_cases hx : Announced i.sectorSize w x
  · rw [if_pos hx, if_pos (hsector.mp hx)]
    have hlt : x % i.sectorSize < i.sectorSize := Nat.mod_lt _ i.sector_pos
    have hpos : (x / i.sectorSize - w.sector) * i.sectorSize + x % i.sectorSize =
        x - w.sector * i.sectorSize := by
      have hdiv := Nat.div_add_mod x i.sectorSize
      have hle := Nat.mul_le_mul_right i.sectorSize (hsector.mp hx).1
      rw [Nat.mul_comm] at hdiv
      rw [Nat.sub_mul]
      omega
    show byteAt (i.sectorOf w.data (x / i.sectorSize - w.sector)) (x % i.sectorSize) = _
    rw [byteAt, ShadowImgInfo.sectorOf, List.getD_eq_getElem?_getD, List.getElem?_take_of_lt hlt,
      List.getElem?_drop, hpos, ← List.getD_eq_getElem?_getD]
    rfl
  · rw [if_neg hx, if_neg fun h => hx (hsector.mpr h)]

end Shadow

theorem byteAt_write {i : WriteImgInfo} {w : Write}
    (hw : w.sector * i.sectorSize ≤ i.file.length) (x : Nat) :
    byteAt (i.write w).file x =
      if Reaches i.sectorSize w x then dataByte i.sectorSize w x else byteAt i.file x := by
  show byteAt (writeAt i.file (w.sector * i.sectorSize) w.data) x = _
  by_cases hx : Reaches i.sectorSize w x
  · rw [if_pos hx]
    exact byteAt_writeAt_inside hw hx.1 hx.2
  · rw [if_neg hx]
    refine byteAt_writeAt_outside hw ?_
    unfold Reaches at hx
    omega

/-- The engine's model of its image is the content of this one. -/
theorem byteAt_write_eq_writeImage {i : WriteImgInfo} {w : Write}
    (hw : w.sector * i.sectorSize ≤ i.file.length) :
    byteAt (i.write w).file =
      writeImage (byteAt i.file) (w.sector * i.sectorSize) w.data := by
  funext x
  rw [byteAt_write hw, writeImage]
  by_cases hreach : Reaches i.sectorSize w x
  · obtain ⟨hle, hlt⟩ := hreach
    rw [if_pos ⟨hle, hlt⟩, if_pos hle, dataByte, byteAt, List.getD_eq_getElem _ _ (by omega),
      List.getD_eq_getElem _ _ (by omega)]
  · rw [if_neg hreach]
    split
    · rename_i hle
      have hge : w.sector * i.sectorSize + w.data.length ≤ x := by
        by_contra hlt
        exact hreach ⟨hle, by omega⟩
      rw [List.getD_eq_default _ _ (by omega)]
    · rfl

/-! ## Runs of writes -/

section Runs
variable (sectorSize : Nat) (hpos : 0 < sectorSize) (base : List UInt8)

/-- The shadow image over `base` after some writes. -/
def shadowAfter (ws : List Write) : ShadowImgInfo :=
  ws.foldl ShadowImgInfo.write ⟨sectorSize, hpos, base, fun _ => none⟩

/-- The image that is written in place. -/
def writtenAfter (ws : List Write) : WriteImgInfo :=
  ws.foldl WriteImgInfo.write ⟨sectorSize, hpos, base⟩

/-- The two images show the same bytes. -/
def Interchangeable (ws : List Write) : Prop :=
  ∀ off length, off + length ≤ base.length →
    (shadowAfter sectorSize hpos base ws).read off length =
      (writtenAfter sectorSize hpos base ws).read off length

variable {sectorSize base} {ws : List Write}

theorem shadowAfter_snoc (ws : List Write) (w : Write) :
    shadowAfter sectorSize hpos base (ws ++ [w]) =
      (shadowAfter sectorSize hpos base ws).write w := by
  rw [shadowAfter, List.foldl_append]
  rfl

theorem writtenAfter_snoc (ws : List Write) (w : Write) :
    writtenAfter sectorSize hpos base (ws ++ [w]) =
      (writtenAfter sectorSize hpos base ws).write w := by
  rw [writtenAfter, List.foldl_append]
  rfl

theorem shadowAfter_keeps (hws : ∀ w ∈ ws, Inside sectorSize base.length w) :
    (shadowAfter sectorSize hpos base ws).sectorSize = sectorSize ∧
      (shadowAfter sectorSize hpos base ws).file = base ∧
      WholeSectors (shadowAfter sectorSize hpos base ws) := by
  induction ws using List.reverseRecOn with
  | nil => exact ⟨rfl, rfl, fun s data h => nomatch h⟩
  | append_singleton ws w ih =>
    obtain ⟨hsize, hfile, hwhole⟩ := ih fun w' h => hws w' (List.mem_append_left _ h)
    rw [shadowAfter_snoc, sectorSize_write, file_write]
    refine ⟨hsize, hfile, wholeSectors_write ?_ hwhole⟩
    rw [hsize]
    exact (hws w (by simp)).data

theorem writtenAfter_keeps (hws : ∀ w ∈ ws, Inside sectorSize base.length w) :
    (writtenAfter sectorSize hpos base ws).sectorSize = sectorSize ∧
      base.length ≤ (writtenAfter sectorSize hpos base ws).file.length := by
  induction ws using List.reverseRecOn with
  | nil => exact ⟨rfl, Nat.le_refl _⟩
  | append_singleton ws w ih =>
    obtain ⟨hsize, hlength⟩ := ih fun w' h => hws w' (List.mem_append_left _ h)
    have hw := (hws w (by simp)).sectors
    rw [Nat.add_mul] at hw
    rw [writtenAfter_snoc]
    refine ⟨hsize, ?_⟩
    show _ ≤ (writeAt _ (w.sector * _) w.data).length
    rw [hsize, length_writeAt (by omega)]
    omega

/-- The images show the same bytes if they show the same byte everywhere. -/
theorem interchangeable_iff_content (hws : ∀ w ∈ ws, Inside sectorSize base.length w) :
    Interchangeable sectorSize hpos base ws ↔ ∀ x < base.length,
      content (shadowAfter sectorSize hpos base ws) x =
        byteAt (writtenAfter sectorSize hpos base ws).file x := by
  obtain ⟨-, hfile, hwhole⟩ := shadowAfter_keeps hpos hws
  have hlength := (writtenAfter_keeps hpos hws).2
  have hreads : ∀ off length, off + length ≤ base.length →
      ((shadowAfter sectorSize hpos base ws).read off length =
          (writtenAfter sectorSize hpos base ws).read off length ↔
        window (content (shadowAfter sectorSize hpos base ws)) off length =
          window (byteAt (writtenAfter sectorSize hpos base ws).file) off length) := by
    intro off length h
    rw [read_eq hwhole (by rw [hfile]; exact h), WriteImgInfo.read, readAt_eq_window (by omega)]
  constructor
  · intro h x hx
    have hone := (hreads x 1 hx).mp (h x 1 hx)
    exact (List.cons.inj hone).1
  · intro h off length hin
    exact (hreads off length hin).mpr (window_congr fun x _ hx => h x (by omega))

/-- Where the last write that reaches the byte reaches it only with data beyond its
announced sectors, it writes what the shadow image shows. -/
def HarmlessAt (sectorSize : Nat) (hpos : 0 < sectorSize) (base : List UInt8) (ws : List Write)
    (x : Nat) : Prop :=
  ∀ before w after, ws = before ++ w :: after → Reaches sectorSize w x →
    ¬ Announced sectorSize w x → (∀ w' ∈ after, ¬ Reaches sectorSize w' x) →
      dataByte sectorSize w x = content (shadowAfter sectorSize hpos base before) x

theorem harmlessAt_snoc (ws : List Write) (w : Write) (x : Nat) :
    HarmlessAt sectorSize hpos base (ws ++ [w]) x ↔
      if Reaches sectorSize w x then
        Announced sectorSize w x ∨
          dataByte sectorSize w x = content (shadowAfter sectorSize hpos base ws) x
      else HarmlessAt sectorSize hpos base ws x := by
  by_cases hreach : Reaches sectorSize w x
  · rw [if_pos hreach]
    constructor
    · intro h
      by_cases hann : Announced sectorSize w x
      · exact .inl hann
      · exact .inr (h ws w [] rfl hreach hann (by simp))
    · intro h before w' after heq _ hnot hafter
      -- A write before the last one is not the last to reach the byte.
      obtain rfl | ⟨after', last, rfl⟩ := List.eq_nil_or_concat' after
      · obtain ⟨rfl, hlast⟩ := List.append_inj' heq rfl
        cases hlast
        exact h.resolve_left hnot
      · rw [← List.cons_append, ← List.append_assoc] at heq
        obtain ⟨-, hlast⟩ := List.append_inj' heq rfl
        cases hlast
        exact absurd hreach (hafter w (by simp))
  · rw [if_neg hreach]
    constructor
    · intro h before w' after heq hr hnot hafter
      refine h before w' (after ++ [w]) (by rw [heq, List.append_assoc]; rfl) hr hnot ?_
      intro w'' hw''
      cases List.mem_append.mp hw'' with
      | inl hmem => exact hafter w'' hmem
      | inr hmem => rwa [List.mem_singleton.mp hmem]
    · intro h before w' after heq hr hnot hafter
      obtain rfl | ⟨after', last, rfl⟩ := List.eq_nil_or_concat' after
      · obtain ⟨-, hlast⟩ := List.append_inj' heq rfl
        cases hlast
        exact absurd hr hreach
      · rw [← List.cons_append, ← List.append_assoc] at heq
        obtain ⟨hinit, -⟩ := List.append_inj' heq rfl
        exact h before w' after' hinit hr hnot fun w'' hmem => hafter w'' (by simp [hmem])

/-- The images show the same byte where the data beyond the announced sectors is harmless. -/
theorem content_eq_iff (hws : ∀ w ∈ ws, Inside sectorSize base.length w) (x : Nat) :
    content (shadowAfter sectorSize hpos base ws) x =
        byteAt (writtenAfter sectorSize hpos base ws).file x ↔
      HarmlessAt sectorSize hpos base ws x := by
  induction ws using List.reverseRecOn with
  | nil => exact iff_of_true rfl fun before w after heq => by simp at heq
  | append_singleton ws w ih =>
    have hbefore : ∀ w' ∈ ws, Inside sectorSize base.length w' := fun w' h =>
      hws w' (List.mem_append_left _ h)
    have hw := hws w (by simp)
    have hsize := (shadowAfter_keeps hpos hbefore).1
    obtain ⟨hsize', hlength⟩ := writtenAfter_keeps hpos hbefore
    have hstart : w.sector * sectorSize ≤ (writtenAfter sectorSize hpos base ws).file.length := by
      have := hw.sectors
      rw [Nat.add_mul] at this
      omega
    rw [harmlessAt_snoc, shadowAfter_snoc, writtenAfter_snoc, content_write,
      byteAt_write (by rw [hsize']; exact hstart), hsize, hsize']
    by_cases hreach : Reaches sectorSize w x
    · rw [if_pos hreach, if_pos hreach]
      by_cases hann : Announced sectorSize w x
      · rw [if_pos hann]
        exact iff_of_true rfl (.inl hann)
      · rw [if_neg hann]
        exact ⟨fun h => .inr h.symm, fun h => (h.resolve_left hann).symm⟩
    · rw [if_neg hreach, if_neg hreach, if_neg fun h => hreach (h.reaches hw)]
      exact ih hbefore

/-- **The two images are interchangeable exactly when**, for every byte of the image whose
last write reaches it only with data beyond the announced sectors, that data is what the
shadow image shows there. -/
theorem interchangeable_iff (hws : ∀ w ∈ ws, Inside sectorSize base.length w) :
    Interchangeable sectorSize hpos base ws ↔
      ∀ x < base.length, HarmlessAt sectorSize hpos base ws x := by
  rw [interchangeable_iff_content hpos hws]
  exact forall₂_congr fun x _ => content_eq_iff hpos hws x

end Runs

/-- Two sectors of four bytes. -/
def twoSectors : List UInt8 := [0, 0, 0, 0, 0, 0, 0, 0]

/-- A write of one sector with exactly its bytes. -/
theorem interchangeable_exact :
    Interchangeable 4 (by decide) twoSectors [⟨0, 1, [1, 1, 1, 1]⟩] := by
  have hws : ∀ w ∈ [(⟨0, 1, [1, 1, 1, 1]⟩ : Write)], Inside 4 twoSectors.length w := by
    intro w hw
    rw [List.mem_singleton.mp hw]
    exact ⟨by decide, by decide⟩
  refine (interchangeable_iff _ hws).mpr fun x _ before w after heq hreach hnot _ => ?_
  have hw : w = ⟨0, 1, [1, 1, 1, 1]⟩ := by
    have hmem : w ∈ [(⟨0, 1, [1, 1, 1, 1]⟩ : Write)] := by rw [heq]; simp
    exact List.mem_singleton.mp hmem
  rw [hw] at hreach hnot
  exact absurd hreach hnot

/-- A write of one sector with the bytes of two. -/
theorem not_interchangeable_excess :
    Inside 4 twoSectors.length ⟨0, 1, [1, 1, 1, 1, 1, 1, 1, 1]⟩ ∧
      ¬ Interchangeable 4 (by decide) twoSectors [⟨0, 1, [1, 1, 1, 1, 1, 1, 1, 1]⟩] := by
  refine ⟨⟨by decide, by decide⟩, fun h => ?_⟩
  have hread := h 4 1 (by decide)
  revert hread
  decide

end LoPhi.Ntfs.Images
