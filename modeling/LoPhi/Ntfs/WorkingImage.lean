import LoPhi.Lib.Window
import LoPhi.Ntfs.Refresh

/-! # The working image

A write reaches the working image only if it touches, at the time it arrives, a record of
the `$MFT` that can be opened. A write to a sector that becomes part of the `$MFT` later
is lost. -/

namespace LoPhi.Ntfs.WorkingImage
open LoPhi.Lib.Effect LoPhi.Lib.Window LoPhi.Ntfs.Volume LoPhi.Ntfs.Engine LoPhi.Ntfs.Refresh

variable {g : Geometry} {o : Outside}

/-- The write has `sector_count * SECTOR_SIZE` bytes. -/
def WellSized (g : Geometry) (w : Write) : Prop := w.data.length = w.sectorCount * g.sectorSize

/-- The write covers the sector. -/
def Covers (w : Write) (x : Nat) : Prop := w.sector ≤ x ∧ x < w.sector + w.sectorCount

instance (w : Write) (x : Nat) : Decidable (Covers w x) := inferInstanceAs (Decidable (_ ∧ _))

/-- The bytes of a sector of an image. -/
def sectorBytes (g : Geometry) (img : Nat → UInt8) (x : Nat) : List UInt8 :=
  window img (x * g.sectorSize) g.sectorSize

/-- The bytes a write has for a sector. -/
def writtenBytes (g : Geometry) (w : Write) (x : Nat) : List UInt8 :=
  (w.data.drop ((x - w.sector) * g.sectorSize)).take g.sectorSize

/-- The bytes of the last write to a sector, or the original ones. -/
def lastBytes (g : Geometry) (img : Nat → UInt8) (ws : List Write) (x : Nat) : List UInt8 :=
  match ws.reverse.find? (fun w => Covers w x) with
  | none => sectorBytes g img x
  | some w => writtenBytes g w x

/-- The write touches a record of the `$MFT`, as the engine knows it, that can be opened. -/
def Touches (g : Geometry) (e : SevNtfsSparse) (w : Write) : Prop :=
  ∃ runs, mftDataruns e.fileSystem = some runs ∧
    ∃ r ∈ getRecordsFromSectors g runs (List.range' w.sector w.sectorCount),
      (e.fileSystem.openMeta r).isSome

/-! ## One write -/

theorem openEntries_eq_nil {fs : FileSystem} {inodes : List Nat} :
    openEntries fs inodes = [] ↔ ∀ r ∈ inodes, ¬ (fs.openMeta r).isSome := by
  simp [openEntries, List.filterMap_eq_nil_iff]

/-- The image stays. -/
def SameImage (e e' : SevNtfsSparse) : Prop := e'.img = e.img

theorem composes_sameImage : Composes SameImage := ⟨fun _ => rfl, fun h h' => h'.trans h⟩

theorem reopenFileSystem_img : Keeps SameImage (reopenFileSystem o) := by
  refine keeps_bind composes_sameImage (keeps_get composes_sameImage) fun e => ?_
  refine keeps_bind composes_sameImage (keeps_orRaise composes_sameImage _ _) fun fs => ?_
  refine keeps_bind composes_sameImage (keeps_modify fun _ => rfl) fun _ => ?_
  refine keeps_bind composes_sameImage (keeps_orRaise composes_sameImage _ _) fun mftFile => ?_
  refine keeps_bind composes_sameImage (keeps_orRaise composes_sameImage _ _) fun raw => ?_
  exact keeps_modify fun _ => rfl

theorem refresh_img (w : Write) (entries : Entries) : Keeps SameImage (refresh g o w entries) :=
  fun e => (refresh_refreshed o w entries e).img

/-- A write once the records it touches are known. -/
theorem applyWrite_eq {w : Write} {e : SevNtfsSparse} {runs : List Run}
    (hruns : mftDataruns e.fileSystem = some runs) :
    applyWrite g o w e =
      (updateIfTouched g o w (openEntries e.fileSystem
          (getRecordsFromSectors g runs (List.range' w.sector w.sectorCount))) >>= fun _ =>
        refresh g o w (openEntries e.fileSystem
          (getRecordsFromSectors g runs (List.range' w.sector w.sectorCount))))
        { e with lastInum := e.fileSystem.lastInum } := by
  have htouched : touchedEntries g w e = (.ok (openEntries e.fileSystem
      (getRecordsFromSectors g runs (List.range' w.sector w.sectorCount))), e) := by
    show (orRaise NtfsError.ioError (mftDataruns e.fileSystem) >>= fun runs =>
      (pure (openEntries e.fileSystem
        (getRecordsFromSectors g runs (List.range' w.sector w.sectorCount))) :
          Method Entries)) e = _
    rw [hruns]
    rfl
  exact bind_ok htouched

theorem applyWrite_error {w : Write} {e : SevNtfsSparse}
    (hruns : mftDataruns e.fileSystem = none) : applyWrite g o w e = (.error .ioError, e) := by
  have htouched : touchedEntries g w e = (.error .ioError, e) := by
    show (orRaise NtfsError.ioError (mftDataruns e.fileSystem) >>= _ : Method Entries) e = _
    rw [hruns]
    rfl
  exact bind_error htouched

theorem img_getAccess_touches {w : Write} {e : SevNtfsSparse} (h : Touches g e w) :
    (getAccess g o w e).img = writeImage e.img (w.sector * g.sectorSize) w.data := by
  obtain ⟨runs, hruns, r, hr, hopen⟩ := h
  show (applyWrite g o w e).2.img = _
  rw [applyWrite_eq hruns, updateIfTouched,
    if_neg fun hnil => openEntries_eq_nil.mp hnil r hr hopen]
  exact keeps_bind composes_sameImage reopenFileSystem_img (fun _ => refresh_img w _)
    { e with
      lastInum := e.fileSystem.lastInum
      oldMftRaw := e.mftRaw
      img := writeImage e.img (w.sector * g.sectorSize) w.data }

theorem img_getAccess_misses {w : Write} {e : SevNtfsSparse} (h : ¬ Touches g e w) :
    (getAccess g o w e).img = e.img := by
  show (applyWrite g o w e).2.img = _
  cases hruns : mftDataruns e.fileSystem with
  | none => rw [applyWrite_error hruns]
  | some runs =>
    have hnil : openEntries e.fileSystem
        (getRecordsFromSectors g runs (List.range' w.sector w.sectorCount)) = [] :=
      openEntries_eq_nil.mpr fun r hr hopen => h ⟨runs, hruns, r, hr, hopen⟩
    rw [applyWrite_eq hruns, hnil, updateIfTouched, if_pos rfl]
    exact refresh_img w [] { e with lastInum := e.fileSystem.lastInum }

/-! ## Sectors -/

section Sectors
variable {w : Write} {x : Nat} (hw : WellSized g w) (img : Nat → UInt8)
include hw

/-- A write gives the sectors it covers its bytes. -/
theorem sectorBytes_covered (hx : Covers w x) :
    sectorBytes g (writeImage img (w.sector * g.sectorSize) w.data) x = writtenBytes g w x := by
  have hoff : x * g.sectorSize = w.sector * g.sectorSize + (x - w.sector) * g.sectorSize := by
    rw [← Nat.add_mul, Nat.add_sub_cancel' hx.1]
  have hend : (x - w.sector) * g.sectorSize + g.sectorSize ≤ w.data.length := by
    rw [hw, ← Nat.succ_mul]
    obtain ⟨hle, hlt⟩ := hx
    exact Nat.mul_le_mul_right _ (by omega)
  refine List.ext_getElem? fun i => ?_
  unfold sectorBytes writtenBytes
  by_cases hi : i < g.sectorSize
  · rw [getElem?_window hi, List.getElem?_take_of_lt hi, List.getElem?_drop, writeImage,
      if_pos (by omega), hoff, Nat.add_assoc, Nat.add_sub_cancel_left, List.getD_eq_getElem?_getD,
      List.getElem?_eq_getElem (by omega)]
    rfl
  · rw [List.getElem?_eq_none (by simpa using hi), List.getElem?_eq_none]
    rw [List.length_take]
    omega

/-- It leaves the others alone. -/
theorem sectorBytes_uncovered (hx : ¬ Covers w x) :
    sectorBytes g (writeImage img (w.sector * g.sectorSize) w.data) x = sectorBytes g img x := by
  refine window_congr fun y hy hy' => ?_
  unfold writeImage
  split
  · rename_i hle
    have hafter : w.sector + w.sectorCount ≤ x := by
      by_contra hlt
      have hbefore : x + 1 ≤ w.sector := by
        by_contra hge
        exact hx ⟨by omega, by omega⟩
      have := Nat.mul_le_mul_right g.sectorSize hbefore
      rw [Nat.succ_mul] at this
      omega
    have hend := Nat.mul_le_mul_right g.sectorSize hafter
    rw [Nat.add_mul] at hend
    rw [List.getD_eq_getElem?_getD, List.getElem?_eq_none (by rw [hw]; omega)]
    rfl
  · rfl

end Sectors

/-! ## Runs of writes -/

theorem writes_append (e : SevNtfsSparse) (ws ws' : List Write) :
    writes g o e (ws ++ ws') = writes g o (writes g o e ws) ws' := by
  induction ws generalizing e with
  | nil => rfl
  | cons w ws ih => exact ih _

/-- A sector that no write covers stays. -/
theorem sectorBytes_writes {ws : List Write} (hsized : ∀ w ∈ ws, WellSized g w) {x : Nat}
    (hx : ∀ w ∈ ws, ¬ Covers w x) (e : SevNtfsSparse) :
    sectorBytes g (writes g o e ws).img x = sectorBytes g e.img x := by
  induction ws generalizing e with
  | nil => rfl
  | cons w ws ih =>
    have hrest := ih (fun w' h => hsized w' (by simp [h])) (fun w' h => hx w' (by simp [h]))
      (getAccess g o w e)
    rw [writes, hrest]
    by_cases htouch : Touches g e w
    · rw [img_getAccess_touches htouch]
      exact sectorBytes_uncovered (hsized w (by simp)) e.img (hx w (by simp))
    · rw [img_getAccess_misses htouch]

/-- A sector whose last write is `w`. -/
theorem sectorBytes_last {before after : List Write} {w : Write}
    (hsized : ∀ w' ∈ before ++ w :: after, WellSized g w') {x : Nat} (hw : Covers w x)
    (hafter : ∀ w' ∈ after, ¬ Covers w' x) (e : SevNtfsSparse) :
    sectorBytes g (writes g o e (before ++ w :: after)).img x = writtenBytes g w x ↔
      Touches g (writes g o e before) w ∨
        sectorBytes g (writes g o e before).img x = writtenBytes g w x := by
  rw [writes_append, writes, sectorBytes_writes (fun w' h => hsized w' (by simp [h])) hafter]
  by_cases htouch : Touches g (writes g o e before) w
  · rw [img_getAccess_touches htouch, sectorBytes_covered (hsized w (by simp)) _ hw]
    exact ⟨fun _ => .inl htouch, fun _ => rfl⟩
  · rw [img_getAccess_misses htouch]
    exact ⟨.inr, fun h => h.resolve_left htouch⟩

theorem lastBytes_none {img : Nat → UInt8} {ws : List Write} {x : Nat}
    (h : ∀ w ∈ ws, ¬ Covers w x) : lastBytes g img ws x = sectorBytes g img x := by
  unfold lastBytes
  rw [List.find?_eq_none.mpr fun w hw => by simpa using h w (List.mem_reverse.mp hw)]

theorem lastBytes_last {img : Nat → UInt8} {before after : List Write} {w : Write} {x : Nat}
    (hw : Covers w x) (hafter : ∀ w' ∈ after, ¬ Covers w' x) :
    lastBytes g img (before ++ w :: after) x = writtenBytes g w x := by
  have hfind : (before ++ w :: after).reverse.find? (fun w => Covers w x) = some w := by
    rw [List.find?_eq_some_iff_append]
    refine ⟨by simpa using hw, after.reverse, before.reverse, by simp, fun w' hw' => ?_⟩
    simpa using hafter w' (List.mem_reverse.mp hw')
  unfold lastBytes
  rw [hfind]

/-- Some write is the last one that covers the sector, or none covers it. -/
theorem exists_last_write (ws : List Write) (x : Nat) :
    (∀ w ∈ ws, ¬ Covers w x) ∨ ∃ before w after, ws = before ++ w :: after ∧ Covers w x ∧
      ∀ w' ∈ after, ¬ Covers w' x := by
  induction ws with
  | nil => exact .inl (by simp)
  | cons w ws ih =>
    obtain hnone | ⟨before, w', after, rfl, hw', hafter⟩ := ih
    · by_cases hw : Covers w x
      · exact .inr ⟨[], w, ws, rfl, hw, hnone⟩
      · refine .inl fun w' hw' => ?_
        obtain rfl | hw' := List.mem_cons.mp hw'
        · exact hw
        · exact hnone w' hw'
    · exact .inr ⟨w :: before, w', after, rfl, hw', hafter⟩

theorem start_img {img : Nat → UInt8} {e : SevNtfsSparse} (h : start g o img = some e) :
    e.img = img := by
  obtain ⟨fs, -, rfl⟩ := Option.map_eq_some_iff.mp h
  exact (loadFileSystem_refreshed _).img

/-- Every sector of the `$MFT`, as the engine reports it, holds the bytes of the last write
to it. -/
def MftCurrent (g : Geometry) (img : Nat → UInt8) (ws : List Write) (e : SevNtfsSparse) : Prop :=
  ∀ runs, mftDataruns e.fileSystem = some runs → ∀ x, InRuns g runs x →
    sectorBytes g e.img x = lastBytes g img ws x

/-- **The `$MFT` of the working image is current exactly when**, for every sector of it, the
last write to the sector touched a record that could be opened when it arrived, or wrote
what the image held already. -/
theorem mftCurrent_iff {img : Nat → UInt8} {e : SevNtfsSparse} (hstart : start g o img = some e)
    {ws : List Write} (hsized : ∀ w ∈ ws, WellSized g w) :
    MftCurrent g img ws (writes g o e ws) ↔
      ∀ runs, mftDataruns (writes g o e ws).fileSystem = some runs → ∀ x, InRuns g runs x →
        ∀ before w after, ws = before ++ w :: after → Covers w x →
          (∀ w' ∈ after, ¬ Covers w' x) →
          Touches g (writes g o e before) w ∨
            sectorBytes g (writes g o e before).img x = writtenBytes g w x := by
  constructor
  · rintro h runs hruns x hx before w after rfl hw hafter
    have hbytes := h runs hruns x hx
    rw [lastBytes_last hw hafter] at hbytes
    exact (sectorBytes_last hsized hw hafter e).mp hbytes
  · intro h runs hruns x hx
    obtain hnone | ⟨before, w, after, rfl, hw, hafter⟩ := exists_last_write ws x
    · rw [lastBytes_none hnone, sectorBytes_writes hsized hnone, start_img hstart]
    · rw [lastBytes_last hw hafter]
      exact (sectorBytes_last hsized hw hafter e).mpr
        (h runs hruns x hx before w after rfl hw hafter)

/-! ## A `$MFT` that grows -/

/-- The first byte of record 0, in block 1, says whether the `$MFT` has a second run, in
block 4. -/
def growingMft (img : Nat → UInt8) : FileSystem where
  lastInum := if img 1024 = 1 then 1 else 0
  rootInum := 5
  openMeta n :=
    if n = 0 then
      some { attributes := [⟨true, if img 1024 = 1 then [⟨1, 1⟩, ⟨1, 4⟩] else [⟨1, 1⟩]⟩]
             content := some [] }
    else if n = 1 ∧ img 1024 = 1 then some { attributes := [] }
    else none
  openDir _ := some []

def growing : Outside where
  fsInfo img := some (growingMft img)
  order keys := keys
  renamed _ e := e.inodeToPath

/-- Record 0 with the second run, and what is written to that run. -/
def addRunWrite : Write := ⟨2, 2, 1 :: List.replicate 1023 0⟩

def newRunWrite : Write := ⟨8, 2, List.replicate 1024 7⟩

def blankImage (_ : Nat) : UInt8 := 0

/-- The engine on a blank image. -/
def blankEngine : SevNtfsSparse :=
  (loadFileSystem tinyVolume
    { img := blankImage, fileSystem := growingMft blankImage, rootInum := 5, lastInum := 0 }).2

theorem mftCurrent_iff_growing :
    MftCurrent tinyVolume blankImage [addRunWrite, newRunWrite]
        (writes tinyVolume growing blankEngine [addRunWrite, newRunWrite]) ↔
      ∀ runs, mftDataruns (writes tinyVolume growing blankEngine
          [addRunWrite, newRunWrite]).fileSystem = some runs → ∀ x, InRuns tinyVolume runs x →
        ∀ before w after, [addRunWrite, newRunWrite] = before ++ w :: after → Covers w x →
          (∀ w' ∈ after, ¬ Covers w' x) →
          Touches tinyVolume (writes tinyVolume growing blankEngine before) w ∨
            sectorBytes tinyVolume (writes tinyVolume growing blankEngine before).img x =
              writtenBytes tinyVolume w x := by
  refine mftCurrent_iff (o := growing) (e := blankEngine) rfl fun w hw => ?_
  simp only [List.mem_cons, List.not_mem_nil, or_false] at hw
  obtain rfl | rfl := hw
  · show (1 :: List.replicate 1023 (0 : UInt8)).length = 2 * 512
    rw [List.length_cons, List.length_replicate]
  · show (List.replicate 1024 (7 : UInt8)).length = 2 * 512
    rw [List.length_replicate]

/-- The write to the second run arrives before the write that adds it, and is lost. -/
theorem mftCurrent_lost_write :
    ¬ MftCurrent tinyVolume blankImage [newRunWrite, addRunWrite]
      (writes tinyVolume growing blankEngine [newRunWrite, addRunWrite]) := by
  intro h
  have hruns : mftDataruns (writes tinyVolume growing blankEngine
      [newRunWrite, addRunWrite]).fileSystem = some [⟨1, 1⟩, ⟨1, 4⟩] := by
    decide +kernel
  have hbyte : (writes tinyVolume growing blankEngine [newRunWrite, addRunWrite]).img 4096 = 0 := by
    decide +kernel
  have hlast : lastBytes tinyVolume blankImage [newRunWrite, addRunWrite] 8 =
      writtenBytes tinyVolume newRunWrite 8 :=
    @lastBytes_last tinyVolume blankImage [] [addRunWrite] newRunWrite 8 (by decide) (by decide)
  generalize writes tinyVolume growing blankEngine [newRunWrite, addRunWrite] = e
    at h hruns hbyte
  have hbytes := h _ hruns 8 ⟨⟨1, 4⟩, by simp, by decide⟩
  rw [hlast] at hbytes
  have himage : (sectorBytes tinyVolume e.img 8).head? = some 0 := by
    rw [List.head?_eq_getElem?, sectorBytes, getElem?_window tinyVolume.sector_pos]
    exact congrArg some hbyte
  have hwritten : (writtenBytes tinyVolume newRunWrite 8).head? = some 7 := rfl
  rw [hbytes, hwritten] at himage
  cases himage

end LoPhi.Ntfs.WorkingImage
