import Mathlib.Data.List.GetD
import LoPhi.Lib.Window

/-! # Files

A file is the list of its bytes. Reading from an offset stops at the end of the file;
writing at an offset replaces what is there and makes the file longer where it has to. -/

namespace LoPhi.Lib.File
open LoPhi.Lib.Window

/-- `seek(off)` and `read(length)`. -/
def readAt (file : List UInt8) (off length : Nat) : List UInt8 := (file.drop off).take length

/-- `seek(off)` and `write(data)`. A gap after the old end is filled with zeros. -/
def writeAt (file : List UInt8) (off : Nat) (data : List UInt8) : List UInt8 :=
  file.take off ++ List.replicate (off - file.length) 0 ++ data ++ file.drop (off + data.length)

/-- The byte at an offset. -/
def byteAt (file : List UInt8) (x : Nat) : UInt8 := file.getD x 0

variable {file data : List UInt8} {off length x : Nat}

theorem readAt_eq_window (h : off + length ≤ file.length) :
    readAt file off length = window (byteAt file) off length := by
  refine List.ext_getElem? fun i => ?_
  unfold readAt
  by_cases hi : i < length
  · rw [getElem?_window hi, List.getElem?_take_of_lt hi, List.getElem?_drop,
      List.getElem?_eq_getElem (by omega), byteAt, List.getD_eq_getElem _ _ (by omega)]
  · rw [List.getElem?_eq_none (by rw [List.length_take]; omega),
      List.getElem?_eq_none (by simpa using hi)]

theorem length_writeAt (h : off ≤ file.length) :
    (writeAt file off data).length = max file.length (off + data.length) := by
  unfold writeAt
  simp only [List.length_append, List.length_take, List.length_replicate, List.length_drop]
  omega

theorem byteAt_writeAt_inside (h : off ≤ file.length) (hx : off ≤ x)
    (hx' : x < off + data.length) : byteAt (writeAt file off data) x = data.getD (x - off) 0 := by
  have hbefore : (file.take off ++ List.replicate (off - file.length) 0).length = off := by
    simp only [List.length_append, List.length_take, List.length_replicate]
    omega
  unfold byteAt writeAt
  rw [List.getD_append _ _ _ _ (by rw [List.length_append, hbefore]; omega),
    List.getD_append_right _ _ _ _ (by rw [hbefore]; exact hx), hbefore]

theorem byteAt_writeAt_outside (h : off ≤ file.length) (hx : x < off ∨ off + data.length ≤ x) :
    byteAt (writeAt file off data) x = byteAt file x := by
  have hbefore : (file.take off ++ List.replicate (off - file.length) 0).length = off := by
    simp only [List.length_append, List.length_take, List.length_replicate]
    omega
  unfold byteAt writeAt
  cases hx with
  | inl hx =>
    rw [List.append_assoc, List.append_assoc, List.getD_append _ _ _ _ (by
      rw [List.length_take]; omega), List.getD_eq_getElem?_getD, List.getElem?_take_of_lt hx,
      ← List.getD_eq_getElem?_getD]
  | inr hx =>
    rw [List.getD_append_right _ _ _ _ (by rw [List.length_append, hbefore]; exact hx),
      List.getD_eq_getElem?_getD, List.getElem?_drop, List.length_append, hbefore,
      Nat.add_sub_cancel' hx, ← List.getD_eq_getElem?_getD]

end LoPhi.Lib.File
