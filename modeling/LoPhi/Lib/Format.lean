import Mathlib.Tactic.Positivity
import LoPhi.Lib.Struct

/-! # Formats of one value

A format of Python's `struct` that takes one value: its size, how a value is packed into
that many bytes and how a value is read from them. Packing need not invert reading (pad
bytes are not kept, every byte but 0 is read as `True`), but what has been read can always
be packed, and to the same number of bytes. -/

namespace LoPhi.Lib.Struct

/-- A format for one value. `pack` gives nothing where `struct.pack` raises. -/
structure Format (α : Type) where
  size : Nat
  pack : α → Option (List UInt8)
  unpack : List UInt8 → α
  length_pack : ∀ {a bytes}, pack a = some bytes → bytes.length = size
  isSome_pack_unpack : ∀ {bytes}, bytes.length = size → (pack (unpack bytes)).isSome

/-- `x` before and after a format: bytes that are skipped, and packed as zeros. -/
def Format.padded {α : Type} (before after : Nat) (fmt : Format α) : Format α where
  size := before + fmt.size + after
  pack a := (fmt.pack a).map fun bytes =>
    List.replicate before 0 ++ bytes ++ List.replicate after 0
  unpack bytes := fmt.unpack ((bytes.drop before).take fmt.size)
  length_pack h := by
    obtain ⟨bytes, hpack, rfl⟩ := Option.map_eq_some_iff.mp h
    simp [fmt.length_pack hpack, Nat.add_assoc]
  isSome_pack_unpack h := by
    rw [Option.isSome_map]
    refine fmt.isSome_pack_unpack ?_
    rw [List.length_take, List.length_drop]
    omega

theorem Format.padded_pack_none {α : Type} (fmt : Format α) (a : α) :
    (fmt.padded 0 0).pack a = fmt.pack a := by
  have hbytes : (fun bytes => List.replicate 0 0 ++ bytes ++ List.replicate 0 0) =
      (id : List UInt8 → List UInt8) := by
    funext bytes
    exact List.append_nil bytes
  unfold Format.padded
  simp only [hbytes, Option.map_id_fun, id]

/-! ## Numbers of a byte order -/

/-- The prefixes `@`, `=`, `<`, and `>` or `!`. The machines in question are
little-endian. -/
inductive ByteOrder where
  | native
  | standard
  | little
  | big
  deriving DecidableEq

def ByteOrder.bytes (order : ByteOrder) (width value : Nat) : List UInt8 :=
  if order = .big then beBytes width value else leBytes width value

def ByteOrder.nat (order : ByteOrder) (bytes : List UInt8) : Nat :=
  if order = .big then beNat bytes else leNat bytes

@[simp] theorem ByteOrder.length_bytes (order : ByteOrder) (width value : Nat) :
    (order.bytes width value).length = width := by
  unfold ByteOrder.bytes
  split
  · exact beBytes_length width value
  · exact leBytes_length width value

theorem beNat_lt (bytes : List UInt8) : beNat bytes < 256 ^ bytes.length := by
  induction bytes using List.reverseRec with
  | nil => exact Nat.one_pos
  | append_singleton bytes b ih =>
    have hb : b.toNat < 256 := b.toNat_lt
    rw [beNat_append_singleton, List.length_append, List.length_singleton, Nat.pow_succ]
    omega

theorem ByteOrder.nat_lt (order : ByteOrder) (bytes : List UInt8) :
    order.nat bytes < 256 ^ bytes.length := by
  unfold ByteOrder.nat
  split
  · exact beNat_lt bytes
  · have h := beNat_lt bytes.reverse
    rwa [List.length_reverse] at h

/-! ## Floats

A double and a single are their bits. -/

/-- A number divided by a power of two, to the nearest, and to even in the middle. -/
def roundShift (n shift : Nat) : Nat :=
  let q := n / 2 ^ shift
  let r := n % 2 ^ shift
  if 2 * r > 2 ^ shift ∨ 2 * r = 2 ^ shift ∧ q % 2 = 1 then q + 1 else q

/-- The exponent and the fraction of a double, from those of a single. -/
def widenMagnitude (exponent fraction : Nat) : Nat :=
  if exponent = 255 then
    -- a NaN becomes a quiet one
    0x7ff * 2 ^ 52 + (if fraction = 0 then 0 else 2 ^ 51 + fraction % 2 ^ 22 * 2 ^ 29)
  else if exponent = 0 then
    if fraction = 0 then 0
    else (874 + fraction.log2) * 2 ^ 52 + (fraction * 2 ^ (52 - fraction.log2) - 2 ^ 52)
  else (exponent + 896) * 2 ^ 52 + fraction * 2 ^ 29

/-- The double of a single. -/
def widen (bits : UInt32) : UInt64 :=
  UInt64.ofNat (bits.toNat / 2 ^ 31 * 2 ^ 63 +
    widenMagnitude (bits.toNat / 2 ^ 23 % 2 ^ 8) (bits.toNat % 2 ^ 23))

/-- The single nearest to a double. Where that is infinite and the double is not, the
native conversion takes it and the others raise. -/
def narrow (order : ByteOrder) (bits : UInt64) : Option UInt32 :=
  let sign := bits.toNat / 2 ^ 63 * 2 ^ 31
  let magnitude := bits.toNat % 2 ^ 63
  let exponent := magnitude / 2 ^ 52
  let fraction := magnitude % 2 ^ 52
  if exponent = 0x7ff then
    let payload := if fraction = 0 then 0 else 2 ^ 22 + fraction / 2 ^ 29 % 2 ^ 22
    some (UInt32.ofNat (sign + 0xff * 2 ^ 23 + payload))
  else if magnitude ≥ 0x47effffff0000000 then
    if order = .native then some (UInt32.ofNat (sign + 0xff * 2 ^ 23)) else none
  else if exponent ≥ 897 then
    some (UInt32.ofNat (sign + (exponent - 896) * 2 ^ 23 + roundShift fraction 29))
  else some (UInt32.ofNat (sign + roundShift (2 ^ 52 + fraction) (926 - exponent)))

/-- `int(x)`. -/
def truncate (bits : UInt64) : Option Int :=
  let magnitude := bits.toNat % 2 ^ 63
  let exponent := magnitude / 2 ^ 52
  let significand := 2 ^ 52 + magnitude % 2 ^ 52
  if exponent = 0x7ff then none
  else
    let n : Nat := significand * 2 ^ (exponent - 1075) / 2 ^ (1075 - exponent)
    some (if bits.toNat < 2 ^ 63 then (n : Int) else -(n : Int))

/-- `float(n)`. -/
def doubleOfInt (n : Int) : Option UInt64 :=
  let sign := if n < 0 then 2 ^ 63 else 0
  let size := n.natAbs.log2
  let magnitude :=
    if n = 0 then 0
    else (size + 1022) * 2 ^ 52 + roundShift (n.natAbs * 2 ^ (52 - size)) (size - 52)
  if magnitude < 0x7ff * 2 ^ 52 then some (UInt64.ofNat (sign + magnitude)) else none

/-- A finite single gives a double below the ones that are too large. -/
theorem widenMagnitude_bound {exponent fraction : Nat} (he : exponent < 2 ^ 8)
    (hf : fraction < 2 ^ 23) :
    widenMagnitude exponent fraction < 2 ^ 63 ∧
      (widenMagnitude exponent fraction / 2 ^ 52 = 0x7ff ∨
        widenMagnitude exponent fraction < 0x47effffff0000000) := by
  unfold widenMagnitude
  split
  · split
    · omega
    · omega
  split
  · split
    · omega
    · rename_i hpos
      have hlog : fraction.log2 ≤ 22 := by
        have := (Nat.log2_lt hpos).mpr hf
        omega
      have hup : fraction * 2 ^ (52 - fraction.log2) < 2 ^ 53 := by
        calc fraction * 2 ^ (52 - fraction.log2)
            < 2 ^ (fraction.log2 + 1) * 2 ^ (52 - fraction.log2) :=
              Nat.mul_lt_mul_of_pos_right Nat.lt_log2_self (Nat.two_pow_pos _)
          _ = 2 ^ 53 := by
              rw [← Nat.pow_add]
              congr 1
              omega
      omega
  · omega

/-- Every single is a double, and no double a single is turned into is too large. -/
theorem isSome_narrow_widen (order : ByteOrder) (bits : UInt32) :
    (narrow order (widen bits)).isSome := by
  have hbits : bits.toNat < 2 ^ 32 := bits.toNat_lt
  obtain ⟨hlt, hbound⟩ := widenMagnitude_bound
    (show bits.toNat / 2 ^ 23 % 2 ^ 8 < 2 ^ 8 by omega)
    (show bits.toNat % 2 ^ 23 < 2 ^ 23 by omega)
  have hmagnitude : (widen bits).toNat % 2 ^ 63 =
      widenMagnitude (bits.toNat / 2 ^ 23 % 2 ^ 8) (bits.toNat % 2 ^ 23) := by
    rw [widen, UInt64.toNat_ofNat']
    omega
  unfold narrow
  simp only [hmagnitude]
  generalize widenMagnitude (bits.toNat / 2 ^ 23 % 2 ^ 8) (bits.toNat % 2 ^ 23) = magnitude at *
  split
  · rfl
  · rename_i hexp
    rw [if_neg (by omega)]
    split
    · rfl
    · rfl

/-! ## The values -/

/-- What a format takes and gives. A float is the bits of a double. -/
inductive Scalar where
  | int (n : Int)
  | bool (b : Bool)
  | float (bits : UInt64)
  | str (s : List UInt8)
  deriving DecidableEq

/-- The integer an integer format packs. -/
def Scalar.toInt : Scalar → Option Int
  | .int n => some n
  | .bool b => some b.toInt
  | .float bits => truncate bits
  | .str _ => none

def Scalar.toDouble : Scalar → Option UInt64
  | .int n => doubleOfInt n
  | .bool b => doubleOfInt b.toInt
  | .float bits => some bits
  | .str _ => none

def Scalar.truth : Scalar → Bool
  | .int n => n != 0
  | .bool b => b
  -- both zeros are false
  | .float bits => bits &&& 0x7fffffffffffffff != 0
  | .str s => !s.isEmpty

/-! ## The codes -/

/-- `B`, `H`, `I`, `L`, `Q`: an integer of `width` bytes, not negative. -/
def unsigned (order : ByteOrder) (width : Nat) : Format Scalar where
  size := width
  pack a := a.toInt.bind fun n =>
    if 0 ≤ n ∧ n < 256 ^ width then some (order.bytes width n.toNat) else none
  unpack bytes := .int (order.nat bytes)
  length_pack h := by
    obtain ⟨n, -, hn⟩ := Option.bind_eq_some_iff.mp h
    split at hn
    · cases hn
      exact order.length_bytes width n.toNat
    · cases hn
  isSome_pack_unpack {bytes} h := by
    have hlt := order.nat_lt bytes
    rw [h] at hlt
    have hfits : (0 : Int) ≤ order.nat bytes ∧ (order.nat bytes : Int) < 256 ^ width :=
      ⟨by omega, by exact_mod_cast hlt⟩
    simp only [Scalar.toInt, Option.bind_some, if_pos hfits, Option.isSome_some]

theorem unsigned_pack {order : ByteOrder} {width value : Nat} (h : value < 256 ^ width) :
    (unsigned order width).pack (.int value) = some (order.bytes width value) :=
  if_pos ⟨Int.natCast_nonneg value, by exact_mod_cast h⟩

/-- `b`, `h`, `i`, `l`, `q`: an integer of `width` bytes in two's complement. -/
def signed (order : ByteOrder) (width : Nat) : Format Scalar where
  size := width
  pack a := a.toInt.bind fun n =>
    if -(256 ^ width : Int) ≤ 2 * n ∧ 2 * n < 256 ^ width then
      some (order.bytes width (n % 256 ^ width).toNat)
    else none
  unpack bytes :=
    if 2 * order.nat bytes < 256 ^ width then .int (order.nat bytes)
    else .int (order.nat bytes - 256 ^ width)
  length_pack h := by
    obtain ⟨n, -, hn⟩ := Option.bind_eq_some_iff.mp h
    split at hn
    · cases hn
      exact order.length_bytes width _
    · cases hn
  isSome_pack_unpack {bytes} h := by
    have hlt : (order.nat bytes : Int) < 256 ^ width := by
      have := order.nat_lt bytes
      rw [h] at this
      exact_mod_cast this
    have hpos : (0 : Int) < 256 ^ width := by positivity
    split
    · rename_i hsmall
      have hsmall : (2 * order.nat bytes : Int) < 256 ^ width := by exact_mod_cast hsmall
      simp only [Scalar.toInt, Option.bind_some]
      rw [if_pos ⟨by omega, hsmall⟩]
      rfl
    · rename_i hlarge
      have hlarge : ¬ (2 * order.nat bytes : Int) < 256 ^ width := by exact_mod_cast hlarge
      simp only [Scalar.toInt, Option.bind_some]
      rw [if_pos ⟨by omega, by omega⟩]
      rfl

/-- `f`: a double rounded to a single. -/
def single (order : ByteOrder) : Format Scalar where
  size := 4
  pack a := a.toDouble.bind fun bits =>
    (narrow order bits).map fun bits => order.bytes 4 bits.toNat
  unpack bytes := .float (widen (UInt32.ofNat (order.nat bytes)))
  length_pack h := by
    obtain ⟨bits, -, hbits⟩ := Option.bind_eq_some_iff.mp h
    obtain ⟨bits, -, rfl⟩ := Option.map_eq_some_iff.mp hbits
    exact order.length_bytes 4 _
  isSome_pack_unpack {bytes} _ := by
    rw [Scalar.toDouble, Option.bind_some, Option.isSome_map]
    exact isSome_narrow_widen order _

theorem single_pack_float (order : ByteOrder) (bits : UInt64) :
    (single order).pack (.float bits) =
      (narrow order bits).map fun bits => order.bytes 4 bits.toNat := rfl

/-- `d`. -/
def double (order : ByteOrder) : Format Scalar where
  size := 8
  pack a := a.toDouble.map fun bits => order.bytes 8 bits.toNat
  unpack bytes := .float (UInt64.ofNat (order.nat bytes))
  length_pack h := by
    obtain ⟨bits, -, rfl⟩ := Option.map_eq_some_iff.mp h
    exact order.length_bytes 8 _
  isSome_pack_unpack _ := rfl

/-- `?`: one byte, 1 or 0; any byte but 0 is read as `True`. -/
def boolean : Format Scalar where
  size := 1
  pack a := some [if a.truth then 1 else 0]
  unpack bytes := .bool (bytes.any (· != 0))
  length_pack h := by
    cases h
    rfl
  isSome_pack_unpack _ := rfl

/-- `c`: a string of one byte. -/
def char : Format Scalar where
  size := 1
  pack
    | .str s => if s.length = 1 then some s else none
    | _ => none
  unpack bytes := .str bytes
  length_pack {a bytes} h := by
    cases a with
    | str s =>
      simp only [Option.ite_none_right_eq_some, Option.some.injEq] at h
      rw [← h.2, h.1]
    | _ => cases h
  isSome_pack_unpack h := by
    simp only [if_pos h, Option.isSome_some]

/-- `ns`: the first `n` bytes of a string, filled up with zeros. -/
def chars (n : Nat) : Format Scalar where
  size := n
  pack
    | .str s => some (s.take n ++ List.replicate (n - s.length) 0)
    | _ => none
  unpack bytes := .str bytes
  length_pack {a bytes} h := by
    cases a with
    | str s =>
      cases h
      simp only [List.length_append, List.length_take, List.length_replicate]
      omega
    | _ => cases h
  isSome_pack_unpack _ := rfl

/-- `np`: a byte with the length, then a string of at most `n - 1` and at most 255
bytes. -/
def pascal (n : Nat) : Format Scalar where
  size := n
  pack
    | .str s =>
      some ((UInt8.ofNat (min (min (n - 1) 255) s.length) ::
        (s.take (n - 1) ++ List.replicate (n - 1 - s.length) 0)).take n)
    | _ => none
  unpack
    | [] => .str []
    | len :: bytes => .str (bytes.take len.toNat)
  length_pack {a bytes} h := by
    cases a with
    | str s =>
      cases h
      simp only [List.length_take, List.length_cons, List.length_append, List.length_replicate]
      omega
    | _ => cases h
  isSome_pack_unpack {bytes} _ := by
    cases bytes with
    | nil => rfl
    | cons len bytes => rfl

/-! ## Format strings

Without a standard prefix `l` and `L` have the size of a C long, and a value starts at a
multiple of its size. -/

inductive Code where
  | c | b | B | bool | h | H | i | I | l | L | q | Q | f | d
  | s (n : Nat)
  | p (n : Nat)
  deriving DecidableEq

def ByteOrder.longSize : ByteOrder → Nat
  | .native => 8
  | _ => 4

def Code.format (order : ByteOrder) : Code → Format Scalar
  | .c => char
  | .b => signed order 1
  | .B => unsigned order 1
  | .bool => boolean
  | .h => signed order 2
  | .H => unsigned order 2
  | .i => signed order 4
  | .I => unsigned order 4
  | .l => signed order order.longSize
  | .L => unsigned order order.longSize
  | .q => signed order 8
  | .Q => unsigned order 8
  | .f => single order
  | .d => double order
  | .s n => chars n
  | .p n => pascal n

/-- What a native value's offset is a multiple of: strings are not aligned. -/
def Code.align : Code → Nat
  | .s _ => 1
  | .p _ => 1
  | code => (code.format .native).size

/-- A format string with one value: a prefix, `before` pad bytes, the code, `after` pad
bytes. -/
def formatString (order : ByteOrder) (before : Nat) (code : Code)
    (after : Nat) : Format Scalar :=
  let before :=
    if order = .native then (before + code.align - 1) / code.align * code.align
    else before
  (code.format order).padded before after

/-! ## Several values -/

/-- A format for any number of values: its size, how a list of values is packed, if it can be, and
the values that are read. -/
structure Layout (α : Type) where
  size : Nat
  pack : List α → Option (List UInt8)
  unpack : List UInt8 → List α

/-- A format of one value takes one argument. -/
def Format.layout {α : Type} (fmt : Format α) : Layout α where
  size := fmt.size
  pack
    | [a] => fmt.pack a
    | _ => none
  unpack bytes := [fmt.unpack bytes]

/-- A format with a repeat count takes that many. -/
def Format.times {α : Type} (fmt : Format α) (count : Nat) : Layout α where
  size := count * fmt.size
  pack args := if args.length = count then (args.mapM fmt.pack).map List.flatten else none
  unpack bytes :=
    (List.range count).map fun i => fmt.unpack ((bytes.drop (i * fmt.size)).take fmt.size)

/-- What is packed has the size of the format: `struct.calcsize(fmt)`. -/
def Layout.Sized {α : Type} (fmt : Layout α) : Prop :=
  ∀ {args : List α} {bytes : List UInt8}, fmt.pack args = some bytes → bytes.length = fmt.size

theorem Format.layout_sized {α : Type} (fmt : Format α) : fmt.layout.Sized := by
  intro args bytes h
  match args with
  | [a] => exact fmt.length_pack h

theorem Format.length_mapM_pack {α : Type} {fmt : Format α} {args : List α}
    {parts : List (List UInt8)} (h : args.mapM fmt.pack = some parts) :
    parts.flatten.length = args.length * fmt.size := by
  induction args generalizing parts with
  | nil =>
    rw [List.mapM_nil] at h
    cases h
    exact (Nat.zero_mul _).symm
  | cons a args ih =>
    rw [List.mapM_cons] at h
    obtain ⟨bytes, hbytes, h⟩ := Option.bind_eq_some_iff.mp h
    obtain ⟨rest, hrest, h⟩ := Option.bind_eq_some_iff.mp h
    cases h
    rw [List.flatten_cons, List.length_append, fmt.length_pack hbytes, ih hrest, List.length_cons,
      Nat.succ_mul, Nat.add_comm]

theorem Format.times_sized {α : Type} (fmt : Format α) (count : Nat) :
    (fmt.times count).Sized := by
  intro args bytes h
  unfold Format.times at h
  dsimp only at h
  split at h
  · rename_i hcount
    obtain ⟨parts, hparts, rfl⟩ := Option.map_eq_some_iff.mp h
    rw [Format.length_mapM_pack hparts, hcount]
    rfl
  · cases h

end LoPhi.Lib.Struct
