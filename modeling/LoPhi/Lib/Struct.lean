import LoPhi.Lib.Python

/-! # Packing of unsigned items

The part of Python's `struct` the sources use: formats with the `!` prefix and
unsigned items of one, two, four or eight bytes. A format is the list of the
widths of its items. Native items, without the prefix, are little-endian on the
machines in question. -/

namespace LoPhi.Lib.Struct
open LoPhi.Lib.Python

/-- The number a string of bytes stands for, most significant byte first. -/
def beNat (bytes : List UInt8) : Nat := bytes.foldl (fun acc b => acc * 256 + b.toNat) 0

/-- The `width` bytes of a number, most significant byte first. -/
def beBytes : Nat → Nat → List UInt8
  | 0, _ => []
  | width + 1, value => beBytes width (value / 256) ++ [UInt8.ofNat value]

@[simp] theorem beBytes_length (width value : Nat) : (beBytes width value).length = width := by
  induction width generalizing value with
  | zero => rfl
  | succ width ih => simp [beBytes, ih]

/-- The items of a format, read one after the other. -/
def items : List Nat → List UInt8 → List Nat
  | [], _ => []
  | width :: fmt, bytes => beNat (bytes.take width) :: items fmt (bytes.drop width)

/-- `struct.unpack`: the string must have exactly the size of the format. -/
def unpack (fmt : List Nat) (bytes : List UInt8) : Except PyError (List Nat) :=
  if bytes.length = fmt.sum then .ok (items fmt bytes) else .error .structError

@[simp] theorem beNat_append_singleton (bytes : List UInt8) (b : UInt8) :
    beNat (bytes ++ [b]) = beNat bytes * 256 + b.toNat := by
  simp [beNat]

/-- Packing keeps the value modulo what fits. -/
theorem beNat_beBytes (width value : Nat) : beNat (beBytes width value) = value % 256 ^ width := by
  induction width generalizing value with
  | zero => simp [beBytes, beNat, Nat.mod_one]
  | succ width ih =>
    have hb : (UInt8.ofNat value).toNat = value % 256 := by simp
    rw [beBytes, beNat_append_singleton, ih, hb, Nat.pow_succ, Nat.mul_comm (256 ^ width),
      Nat.mod_mul, Nat.mul_comm 256, Nat.add_comm]

/-- Reading a packed item gives its value back. -/
theorem items_beBytes {width value : Nat} (h : value < 256 ^ width) (fmt : List Nat)
    (rest : List UInt8) :
    items (width :: fmt) (beBytes width value ++ rest) = value :: items fmt rest := by
  rw [items, List.take_left' (beBytes_length width value),
    List.drop_left' (beBytes_length width value), beNat_beBytes, Nat.mod_eq_of_lt h]

theorem items_last {width value : Nat} (h : value < 256 ^ width) :
    items [width] (beBytes width value) = [value] := by
  have := items_beBytes h [] []
  rwa [List.append_nil] at this

/-! ## Little-endian items -/

def leBytes (width value : Nat) : List UInt8 := (beBytes width value).reverse

def leNat (bytes : List UInt8) : Nat := beNat bytes.reverse

@[simp] theorem leBytes_length (width value : Nat) : (leBytes width value).length = width := by
  simp [leBytes]

theorem leNat_leBytes {width value : Nat} (h : value < 256 ^ width) :
    leNat (leBytes width value) = value := by
  rw [leNat, leBytes, List.reverse_reverse, beNat_beBytes, Nat.mod_eq_of_lt h]

/-- `struct.pack` of native items: each must fit. -/
def packNative : List (Nat × Nat) → Except PyError (List UInt8)
  | [] => .ok []
  | (width, value) :: rest =>
    if value < 256 ^ width then
      match packNative rest with
      | .error e => .error e
      | .ok bytes => .ok (leBytes width value ++ bytes)
    else .error .structError

theorem packNative_ok {items : List (Nat × Nat)} (h : ∀ item ∈ items, item.2 < 256 ^ item.1) :
    packNative items = .ok (items.flatMap fun item => leBytes item.1 item.2) := by
  induction items with
  | nil => rfl
  | cons item items ih =>
    unfold packNative
    rw [if_pos (h item (by simp)), ih fun i hi => h i (by simp [hi])]
    rfl

theorem packNative_error {items : List (Nat × Nat)}
    (h : ∃ item ∈ items, ¬ item.2 < 256 ^ item.1) : packNative items = .error .structError := by
  induction items with
  | nil =>
    obtain ⟨item, hmem, -⟩ := h
    cases hmem
  | cons item items ih =>
    unfold packNative
    split
    · rename_i hfits
      obtain ⟨other, hmem, hbig⟩ := h
      obtain rfl | hmem := List.mem_cons.mp hmem
      · exact absurd hfits hbig
      · rw [ih ⟨other, hmem, hbig⟩]
    · rfl

end LoPhi.Lib.Struct
