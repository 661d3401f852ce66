import LoPhi.Data.Assignment

/-! # Comparing a packet with a buffer

`__eq__` walks the fields with their offsets and compares a slice of the packed buffer with the
same slice of the other. The slice ends at the size of the field and not at its offset and size, so
of every field but the first it covers too little or nothing. -/

namespace LoPhi.Data.Comparison
open LoPhi.Lib.Python LoPhi.Lib.Struct
open LoPhi.Data.Assignment
open LoPhi.Data.DataStruct (Value Instance blank)

variable {α : Type}

/-- A subclass whose formats pack into as many bytes as they say. -/
structure Packet (α : Type) extends Subclass α where
  sized : ∀ entry ∈ STRUCT, entry.2.Sized

def Packet.len (cls : Packet α) (o : Instance α) : Nat :=
  match o.data with
  | none => cls.structSize
  | some data => cls.structSize + data.length

/-- `xs[start:stop]`. -/
def slice (xs : List UInt8) (start stop : Nat) : List UInt8 := (xs.take stop).drop start

/-- The loop of `__eq__`. An instance without a buffer has no attribute of that name. -/
def eqFields (o : Instance α) (comp : List UInt8) :
    List (String × Layout α) → Nat → Except PyError Bool
  | [], _ => .ok true
  | (key, fmt) :: rest, offset =>
    match o.fields key with
    | .none => eqFields o comp rest (offset + fmt.size)
    | _ =>
      match o.structRawData with
      | none => .error .attributeError
      | some raw =>
        if slice raw offset fmt.size ≠ slice comp offset fmt.size then .ok false
        else eqFields o comp rest (offset + fmt.size)

def Packet.eq (cls : Packet α) (o : Instance α) (comp : List UInt8) : Except PyError Bool :=
  if comp.length ≠ cls.len o then .ok false else eqFields o comp cls.STRUCT 0

/-! ## The fields and their places -/

/-- A field with its offset. -/
structure Place (α : Type) where
  offset : Nat
  key : String
  fmt : Layout α

def places : List (String × Layout α) → Nat → List (Place α)
  | [], _ => []
  | (key, fmt) :: rest, offset => ⟨offset, key, fmt⟩ :: places rest (offset + fmt.size)

/-- The fields that are not `None`. -/
def Packet.SetAt (cls : Packet α) (o : Instance α) (place : Place α) : Prop :=
  place ∈ places cls.STRUCT 0 ∧ o.fields place.key ≠ .none

/-- The buffer has the length of the packet, and at every field that is not `None` it has the bytes
the field is packed into. -/
def Packet.SameFields (cls : Packet α) (o : Instance α) (comp : List UInt8) : Prop :=
  comp.length = cls.len o ∧ ∀ place, cls.SetAt o place →
    packField place.fmt (o.fields place.key) = .ok ((comp.drop place.offset).take place.fmt.size)

/-- Comparing with any buffer returns, and says whether the fields are the same. -/
def Packet.Compares (cls : Packet α) (o : Instance α) : Prop :=
  ∀ comp, ∃ result, cls.eq o comp = .ok result ∧ (result = true ↔ cls.SameFields o comp)

section Places
variable {entries : List (String × Layout α)} {offset : Nat} {p q : Place α}

theorem mem_places (h : p ∈ places entries offset) :
    offset ≤ p.offset ∧ (p.key, p.fmt) ∈ entries ∧
      p.offset + p.fmt.size ≤ offset + (entries.map fun entry => entry.2.size).sum := by
  induction entries generalizing offset with
  | nil => cases h
  | cons entry entries ih =>
    rw [List.map_cons, List.sum_cons]
    rcases List.mem_cons.mp h with rfl | hrest
    · refine ⟨Nat.le_refl _, List.mem_cons_self, ?_⟩
      dsimp only
      omega
    · obtain ⟨hfrom, hmem, hto⟩ := ih hrest
      exact ⟨by omega, List.mem_cons_of_mem _ hmem, by omega⟩

theorem exists_place (entry : String × Layout α) (h : entry ∈ entries) (offset : Nat) :
    ∃ p ∈ places entries offset, p.key = entry.1 ∧ p.fmt = entry.2 := by
  induction entries generalizing offset with
  | nil => cases h
  | cons first entries ih =>
    rcases List.mem_cons.mp h with rfl | hrest
    · exact ⟨_, List.mem_cons_self, rfl, rfl⟩
    · obtain ⟨p, hp, hkey⟩ := ih hrest (offset + first.2.size)
      exact ⟨p, List.mem_cons_of_mem _ hp, hkey⟩

/-- One lies before the other. -/
def Apart (p q : Place α) : Prop :=
  p.offset + p.fmt.size ≤ q.offset ∨ q.offset + q.fmt.size ≤ p.offset

theorem apart_of_mem (hp : p ∈ places entries offset) (hq : q ∈ places entries offset)
    (hne : p ≠ q) : Apart p q := by
  induction entries generalizing offset with
  | nil => cases hp
  | cons entry entries ih =>
    rcases List.mem_cons.mp hp with rfl | hp <;> rcases List.mem_cons.mp hq with rfl | hq
    · exact absurd rfl hne
    · exact .inl (mem_places hq).1
    · exact .inr (mem_places hp).1
    · exact ih hp hq

end Places

/-- A slice up to a given end is decided by the bytes in it. -/
theorem slice_eq_iff {xs ys : List UInt8} {start stop : Nat} :
    slice xs start stop = slice ys start stop ↔
      ∀ k, start ≤ k → k < stop → xs[k]? = ys[k]? := by
  constructor
  · intro h k hstart hstop
    have hk := congrArg (·[k - start]?) h
    simp only [slice, List.getElem?_drop, Nat.add_sub_cancel' hstart,
      List.getElem?_take_of_lt hstop] at hk
    exact hk
  · intro h
    refine List.ext_getElem? fun i => ?_
    simp only [slice, List.getElem?_drop, List.getElem?_take]
    split
    · exact h _ (Nat.le_add_right _ _) ‹_›
    · rfl

/-- The packed buffer; an instance without one has only fields that are `None`. -/
def rawData (o : Instance α) : List UInt8 := o.structRawData.getD []

/-- What `__eq__` compares: the slices of the fields that are not `None`. -/
def Packet.SameSlices (cls : Packet α) (o : Instance α) (comp : List UInt8) : Prop :=
  comp.length = cls.len o ∧ ∀ place, cls.SetAt o place → ∀ k, place.offset ≤ k →
    k < place.fmt.size → (rawData o)[k]? = comp[k]?

/-- A field that is not `None` decides, or the rest does. -/
theorem eqFields_set {o : Instance α} {raw : List UInt8} (hraw : o.structRawData = some raw)
    {entry : String × Layout α} (hset : o.fields entry.1 ≠ .none) (comp : List UInt8)
    (entries : List (String × Layout α)) (offset : Nat) :
    eqFields o comp (entry :: entries) offset =
      if slice raw offset entry.2.size ≠ slice comp offset entry.2.size then .ok false
      else eqFields o comp entries (offset + entry.2.size) := by
  rw [eqFields, hraw]
  cases hvalue : o.fields entry.1 with
  | none => exact absurd hvalue hset
  | one a => rfl
  | many as => rfl

theorem eqFields_spec {o : Instance α} {entries : List (String × Layout α)}
    (h : o.structRawData = none → ∀ entry ∈ entries, o.fields entry.1 = .none)
    (comp : List UInt8) (offset : Nat) :
    ∃ result, eqFields o comp entries offset = .ok result ∧
      (result = true ↔ ∀ place ∈ places entries offset, o.fields place.key ≠ .none →
        slice (rawData o) place.offset place.fmt.size =
          slice comp place.offset place.fmt.size) := by
  induction entries generalizing offset with
  | nil => exact ⟨true, rfl, iff_of_true rfl fun _ hplace => absurd hplace List.not_mem_nil⟩
  | cons entry entries ih =>
    obtain ⟨result, hrest, hiff⟩ :=
      ih (fun hraw other hother => h hraw other (List.mem_cons_of_mem _ hother))
        (offset + entry.2.size)
    simp only [places, List.forall_mem_cons]
    by_cases hnone : o.fields entry.1 = .none
    · refine ⟨result, ?_, ?_⟩
      · rw [eqFields, hnone]
        exact hrest
      · rw [hiff]
        exact ⟨fun hall => ⟨fun hset => absurd hnone hset, hall⟩, And.right⟩
    · cases hraw : o.structRawData with
      | none => exact absurd (h hraw entry List.mem_cons_self) hnone
      | some raw =>
        have hdata : rawData o = raw := congrArg (·.getD []) hraw
        rw [hdata] at hiff ⊢
        rw [eqFields_set hraw hnone]
        by_cases hsame : slice raw offset entry.2.size = slice comp offset entry.2.size
        · refine ⟨result, (if_neg (not_not_intro hsame)).trans hrest, ?_⟩
          rw [hiff]
          exact ⟨fun hall => ⟨fun _ => hsame, hall⟩, And.right⟩
        · exact ⟨false, if_pos hsame,
            iff_of_false Bool.false_ne_true fun hall => hsame (hall.1 hnone)⟩

/-! ## Instances -/

/-- An instance without a buffer has no field, and a buffer that is too short ends where a field
cannot be packed. -/
structure Invariant (cls : Packet α) (o : Instance α) : Prop where
  unset : o.structRawData = none → ∀ entry ∈ cls.STRUCT, o.fields entry.1 = .none
  cut : o.structRawData ≠ none → (rawData o).length < cls.structSize →
    ∃ entry ∈ cls.STRUCT, ∃ e, packField entry.2 (o.fields entry.1) = .error e

theorem length_packField {fmt : Layout α} (hsized : fmt.Sized) {value : Value α}
    {bytes : List UInt8} (h : packField fmt value = .ok bytes) : bytes.length = fmt.size := by
  have hstruct : ∀ args, structPack fmt args = .ok bytes → bytes.length = fmt.size := by
    intro args hargs
    unfold structPack at hargs
    split at hargs
    · rename_i hpack
      cases hargs
      exact hsized hpack
    · cases hargs
  cases value with
  | none =>
    cases h
    exact List.length_replicate
  | one a => exact hstruct [a] h
  | many as =>
    simp only [packField] at h
    split at h
    · cases h
    · exact hstruct as h

theorem length_packedBefore {fields : String → Value α} {entries : List (String × Layout α)}
    (hsized : ∀ entry ∈ entries, entry.2.Sized)
    (h : (packedBefore fields entries).length < (entries.map fun entry => entry.2.size).sum) :
    ∃ entry ∈ entries, ∃ e, packField entry.2 (fields entry.1) = .error e := by
  induction entries with
  | nil => exact absurd h (Nat.not_lt_zero _)
  | cons entry entries ih =>
    rw [packedBefore] at h
    cases hpack : packField entry.2 (fields entry.1) with
    | error e => exact ⟨entry, List.mem_cons_self, e, hpack⟩
    | ok bytes =>
      have hlen := length_packField (hsized entry List.mem_cons_self) hpack
      rw [hpack] at h
      dsimp only at h
      rw [List.length_append, List.map_cons, List.sum_cons, hlen] at h
      obtain ⟨other, hother, e, he⟩ :=
        ih (fun other hother => hsized other (List.mem_cons_of_mem _ hother)) (by omega)
      exact ⟨other, List.mem_cons_of_mem _ hother, e, he⟩

theorem invariant_full {cls : Packet α} {o : Instance α} {raw : List UInt8}
    (h : o.structRawData = some raw) (hlen : raw.length = cls.structSize) : Invariant cls o where
  unset hnone := by
    rw [h] at hnone
    cases hnone
  cut _ hshort := by
    rw [rawData, h, Option.getD_some, hlen] at hshort
    exact absurd hshort (Nat.lt_irrefl _)

theorem invariant_unpack {cls : Packet α} {o : Instance α} (h : Invariant cls o)
    (data : List UInt8) : Invariant cls (cls.unpack o data) := by
  unfold Subclass.unpack
  split
  · exact h
  · refine invariant_full rfl ?_
    rw [List.length_take]
    omega

/-- What holds of every instance. -/
theorem reachable_invariant {cls : Packet α} {o : Instance α}
    (h : Reachable cls.toSubclass o) : Invariant cls o := by
  induction h with
  | init data =>
    cases data with
    | none => exact invariant_full rfl List.length_replicate
    | some data =>
      exact invariant_unpack ⟨fun _ _ _ => rfl, fun hraw => absurd rfl hraw⟩ data
  | unpack data _ ih => exact invariant_unpack ih data
  | field key value hkey _ _ =>
    obtain ⟨result, -, hset⟩ := setattr_cases hkey value _
    rw [hset]
    exact ⟨fun hnone => absurd hnone (Option.some_ne_none _),
      fun _ hshort => length_packedBefore cls.sized hshort⟩
  | data data _ ih => exact ⟨ih.unset, ih.cut⟩

theorem eq_spec {cls : Packet α} {o : Instance α} (h : Invariant cls o) (comp : List UInt8) :
    ∃ result, cls.eq o comp = .ok result ∧ (result = true ↔ cls.SameSlices o comp) := by
  unfold Packet.eq
  by_cases hlen : comp.length = cls.len o
  · obtain ⟨result, hresult, hiff⟩ := eqFields_spec h.unset comp 0
    refine ⟨result, (if_neg (not_not_intro hlen)).trans hresult, hiff.trans ?_⟩
    simp only [slice_eq_iff]
    exact ⟨fun hall => ⟨hlen, fun place hset => hall place hset.1 hset.2⟩,
      fun hsame place hplace hset => hsame.2 place ⟨hplace, hset⟩⟩
  · exact ⟨false, if_pos hlen, iff_of_false Bool.false_ne_true fun hsame => hlen hsame.1⟩

theorem compares_iff_same {cls : Packet α} {o : Instance α} (h : Invariant cls o) :
    cls.Compares o ↔ ∀ comp, cls.SameSlices o comp ↔ cls.SameFields o comp := by
  refine forall_congr' fun comp => ?_
  obtain ⟨result, hresult, hiff⟩ := eq_spec h comp
  constructor
  · rintro ⟨other, hother, hsame⟩
    rw [hresult] at hother
    cases hother
    exact hiff.symm.trans hsame
  · exact fun hsame => ⟨result, hresult, hiff.trans hsame⟩

/-! ## What is compared -/

section Compares
variable {cls : Packet α} {o : Instance α}

theorem structSize_le_len (cls : Packet α) (o : Instance α) : cls.structSize ≤ cls.len o := by
  unfold Packet.len
  split
  · exact Nat.le_refl _
  · exact Nat.le_add_right _ _

theorem setAt_bound {place : Place α} (h : cls.SetAt o place) :
    place.offset + place.fmt.size ≤ cls.len o := by
  have hplace := (mem_places h.1).2.2
  rw [Nat.zero_add] at hplace
  exact hplace.trans (structSize_le_len cls o)

/-- A field that is not `None` begins before the end of its slice, and the packed buffer does not
reach that end. -/
def Packet.Short (cls : Packet α) (o : Instance α) : Prop :=
  ∃ place, cls.SetAt o place ∧ place.offset < place.fmt.size ∧
    (rawData o).length < place.fmt.size

/-- A field that is not `None` and not of size zero is the first of the buffer, and the packed
buffer has there what it is packed into. -/
def Packet.FirstOnly (cls : Packet α) (o : Instance α) : Prop :=
  ∀ place, cls.SetAt o place → (0 < place.fmt.size → place.offset = 0) ∧
    packField place.fmt (o.fields place.key) = .ok ((rawData o).take place.fmt.size)

/-- The packed buffer, cut or filled up to the length of the packet. -/
def Packet.filled (cls : Packet α) (o : Instance α) : List UInt8 :=
  (List.range (cls.len o)).map fun k => (rawData o)[k]?.getD 0

theorem length_filled : (cls.filled o).length = cls.len o := by
  rw [Packet.filled, List.length_map, List.length_range]

theorem getElem?_filled {k : Nat} (hraw : k < (rawData o).length) (hlen : k < cls.len o) :
    (cls.filled o)[k]? = (rawData o)[k]? := by
  rw [Packet.filled, List.getElem?_map, List.getElem?_range hlen, Option.map_some,
    List.getElem?_eq_getElem hraw, Option.getD_some]

theorem sameSlices_filled (h : ¬ cls.Short o) : cls.SameSlices o (cls.filled o) := by
  refine ⟨length_filled, fun place hset k hfrom hto => ?_⟩
  have hbound := setAt_bound hset
  have hraw : place.fmt.size ≤ (rawData o).length :=
    Nat.le_of_not_lt fun hshort => h ⟨place, hset, by omega, hshort⟩
  exact (getElem?_filled (by omega) (by omega)).symm

theorem not_sameSlices_of_short (h : cls.Short o) (comp : List UInt8) :
    ¬ cls.SameSlices o comp := by
  rintro ⟨hlen, hsame⟩
  obtain ⟨place, hset, hbegin, hshort⟩ := h
  have hbound := setAt_bound hset
  have hlast := hsame place hset (place.fmt.size - 1) (by omega) (by omega)
  rw [List.getElem?_eq_none (by omega), List.getElem?_eq_getElem (by omega)] at hlast
  cases hlast

theorem not_sameFields_of_short (hinv : Invariant cls o) (h : cls.Short o) (comp : List UInt8) :
    ¬ cls.SameFields o comp := by
  rintro ⟨-, hsame⟩
  obtain ⟨place, hset, -, hshort⟩ := h
  have hplace := (mem_places hset.1).2
  have hraw : o.structRawData ≠ none :=
    fun hnone => hset.2 (hinv.unset hnone _ hplace.1)
  obtain ⟨entry, hentry, e, he⟩ := hinv.cut hraw (by
    unfold Subclass.structSize
    omega)
  obtain ⟨other, hother, hkey, hfmt⟩ := exists_place entry hentry 0
  rw [← hkey, ← hfmt] at he
  have hvalue : o.fields other.key ≠ .none := by
    intro hnone
    rw [hnone] at he
    cases he
  rw [hsame other ⟨hother, hvalue⟩] at he
  cases he

/-- Where only the first field matters its slice is its whole place. -/
theorem same_of_firstOnly (h : cls.FirstOnly o) (comp : List UInt8) :
    cls.SameSlices o comp ↔ cls.SameFields o comp := by
  refine and_congr_right fun _ => forall₂_congr fun place hset => ?_
  obtain ⟨hfirst, hpack⟩ := h place hset
  rw [← slice_eq_iff, hpack, Except.ok.injEq]
  rcases Nat.eq_zero_or_pos place.fmt.size with hzero | hpos
  · simp [slice, hzero]
  · simp [slice, hfirst hpos]

/-- The last byte of a field that is not the first is in no slice. -/
theorem last_uncompared {place : Place α} (hset : cls.SetAt o place) (hpos : 0 < place.fmt.size)
    (hlater : 0 < place.offset) {other : Place α} (hother : cls.SetAt o other)
    (hto : place.offset + place.fmt.size - 1 < other.fmt.size) :
    ¬ other.offset ≤ place.offset + place.fmt.size - 1 := by
  intro hfrom
  by_cases hsame : other = place
  · subst hsame
    omega
  · rcases apart_of_mem hother.1 hset.1 hsame with h | h <;> omega

/-- Then a buffer that differs there compares equal too. -/
theorem offset_eq_zero (hnot : ¬ cls.Short o)
    (h : ∀ comp, cls.SameSlices o comp → cls.SameFields o comp) {place : Place α}
    (hset : cls.SetAt o place) (hpos : 0 < place.fmt.size) : place.offset = 0 := by
  by_contra hlater
  have hbound := setAt_bound hset
  have hfilled := sameSlices_filled hnot
  generalize hlast : place.offset + place.fmt.size - 1 = last at *
  set other := (cls.filled o).set last ((cls.filled o)[last]?.getD 0 + 1) with hotherdef
  have hother : cls.SameSlices o other := by
    refine ⟨by rw [hotherdef, List.length_set, length_filled], fun p hp k hfrom hto => ?_⟩
    have hne : last ≠ k := by
      rintro rfl
      subst hlast
      exact last_uncompared hset hpos (by omega) hp hto hfrom
    rw [hotherdef, List.getElem?_set_ne hne]
    exact hfilled.2 p hp k hfrom hto
  have hone := (h _ hfilled).2 place hset
  have htwo := (h _ hother).2 place hset
  rw [hone, Except.ok.injEq] at htwo
  have hbyte := congrArg (·[place.fmt.size - 1]?) htwo
  have hindex : place.offset + (place.fmt.size - 1) = last := by omega
  have hin : last < (cls.filled o).length := by
    rw [length_filled]
    omega
  simp only [List.getElem?_take_of_lt (Nat.sub_one_lt_of_lt hpos), List.getElem?_drop, hindex,
    hotherdef, List.getElem?_set_self hin, List.getElem?_eq_getElem hin, Option.getD_some,
    Option.some.injEq] at hbyte
  exact absurd hbyte (by simp)

theorem firstOnly_of_same (hnot : ¬ cls.Short o)
    (h : ∀ comp, cls.SameSlices o comp → cls.SameFields o comp) : cls.FirstOnly o := by
  intro place hset
  refine ⟨offset_eq_zero hnot h hset, ?_⟩
  have hbound := setAt_bound hset
  rw [(h _ (sameSlices_filled hnot)).2 place hset, Except.ok.injEq]
  rcases Nat.eq_zero_or_pos place.fmt.size with hzero | hpos
  · simp [hzero]
  · have hfirst := offset_eq_zero hnot h hset hpos
    have hraw : place.fmt.size ≤ (rawData o).length :=
      Nat.le_of_not_lt fun hshort => hnot ⟨place, hset, by omega, hshort⟩
    rw [hfirst, List.drop_zero]
    refine (slice_eq_iff : slice _ 0 _ = slice _ 0 _ ↔ _).mpr fun k _ hk => ?_
    exact getElem?_filled (by omega) (by omega)

end Compares

/-- **Comparing a packet with buffers compares every field if and only if** none but the first of
the fields is set, and the buffer of the packet has its packed bytes, or an assignment that raised
has cut the buffer off within the slice of a field that is set: then nothing is equal. -/
theorem compares_iff (cls : Packet α) (o : Instance α) (h : Reachable cls.toSubclass o) :
    cls.Compares o ↔ cls.Short o ∨ cls.FirstOnly o := by
  have hinv := reachable_invariant h
  rw [compares_iff_same hinv]
  constructor
  · intro hsame
    by_cases hshort : cls.Short o
    · exact .inl hshort
    · exact .inr (firstOnly_of_same hshort fun comp => (hsame comp).mp)
  · rintro (hshort | hfirst) comp
    · exact iff_of_false (not_sameSlices_of_short hshort comp)
        (not_sameFields_of_short hinv hshort comp)
    · exact same_of_firstOnly hfirst comp

/-- `SATAFrame`. -/
def sataFrame : Packet Scalar where
  STRUCT := [("seqn_num", (unsigned .big 2).layout), ("direction", (unsigned .big 2).layout)]
  free := by decide
  sized := by
    intro entry hentry
    simp only [List.mem_cons, List.not_mem_nil, or_false] at hentry
    rcases hentry with rfl | rfl <;> exact Format.layout_sized _

/-- A frame with a sequence number and no direction yet. -/
def numbered : Instance Scalar :=
  (sataFrame.setattr "seqn_num" (.one (.int 1)) (sataFrame.init none)).2

theorem numbered_reachable : Reachable sataFrame.toSubclass numbered := by
  unfold numbered
  exact .field _ _ (by decide) (.init none)

theorem sataFrame_numbered_compares : sataFrame.Compares numbered :=
  (compares_iff sataFrame numbered numbered_reachable).mpr (.inr (by
      have hraw : rawData numbered = [0, 1, 0, 0] := rfl
      have hnumber : numbered.fields "seqn_num" = .one (.int 1) := rfl
      have hdirection : numbered.fields "direction" = .none := rfl
      have hpack : packField (unsigned .big 2).layout (.one (.int 1)) = .ok [0, 1] := rfl
      rintro place ⟨hplace, hset⟩
      simp only [sataFrame, places, List.mem_cons, List.not_mem_nil, or_false] at hplace
      rcases hplace with rfl | rfl
      · rw [hnumber, hpack, hraw]
        exact ⟨fun _ => rfl, rfl⟩
      · exact absurd hdirection hset))

/-- `station`, whose address is a format of six values. -/
def stationPacket : Packet Scalar where
  toSubclass := station
  sized := by
    intro entry hentry
    simp only [station, List.mem_cons, List.not_mem_nil, or_false] at hentry
    rcases hentry with rfl | rfl
    · exact Format.times_sized _ 6
    · exact Format.layout_sized _

/-- The assignment of an address of two bytes has cut the buffer off before it. -/
example : stationPacket.Short (station.setattr "mac" twoBytes (station.init none)).2 := by
  have hmac : (station.setattr "mac" twoBytes (station.init none)).2.fields "mac" = twoBytes := rfl
  have hraw : rawData (station.setattr "mac" twoBytes (station.init none)).2 = [] := rfl
  refine ⟨⟨0, "mac", (unsigned .big 1).times 6⟩, ⟨.head _, ?_⟩, by decide, ?_⟩
  · rw [hmac]
    exact fun hnone => by cases hnone
  · rw [hraw]
    decide

/-- Two frames that differ in their direction compare equal. -/
theorem sataFrame_direction_uncompared :
    ¬ ∀ (cls : Packet Scalar) (o : Instance Scalar), Reachable cls.toSubclass o →
      cls.Compares o := by
  intro h
  obtain ⟨result, hresult, hiff⟩ :=
    h sataFrame (sataFrame.init (some [0, 1, 0, 0])) (.init _) [0, 1, 0, 1]
  have hequal : sataFrame.eq (sataFrame.init (some [0, 1, 0, 0])) [0, 1, 0, 1] = .ok true := rfl
  rw [hequal, Except.ok.injEq] at hresult
  have hvalue : (sataFrame.init (some [0, 1, 0, 0])).fields "direction" = .one (.int 0) := rfl
  have hsame := (hiff.mp hresult.symm).2 ⟨2, "direction", (unsigned .big 2).layout⟩
    ⟨.tail _ (.head _), fun hnone => by rw [hvalue] at hnone; cases hnone⟩
  rw [hvalue] at hsame
  have hpack : packField (unsigned .big 2).layout (.one (.int 0)) = .ok [0, 0] := rfl
  rw [hpack, Except.ok.injEq] at hsame
  exact absurd hsame (by decide)

end LoPhi.Data.Comparison
