import LoPhi.Lib.Effect
import LoPhi.Lib.Format

/-! # C-style structs

`DataStruct` of `data.py`. A class lists its fields with their formats; an instance keeps a
value for each field, the packed buffer of them all, and the data that follows the struct.
Every assignment to a field packs the whole buffer again. -/

namespace LoPhi.Data.DataStruct
open LoPhi.Lib.Effect LoPhi.Lib.Python LoPhi.Lib.Struct

variable {α : Type}

/-- The value of a field: `None`, one value, or a list or tuple of values. -/
inductive Value (α : Type) where
  | none
  | one (a : α)
  | many (as : List α)

/-- What an instance has besides its fields. -/
def ownAttributes : List String :=
  ["STRUCT", "STRUCT_SIZE", "struct_name", "struct_raw_data", "data", "__init__", "__setattr__",
    "__getitem__", "__iter__", "__len__", "__eq__", "__repr__", "__str__", "_unpack", "_pack",
    "keys", "values"]

/-- A subclass of `DataStruct`. -/
structure Class (α : Type) where
  STRUCT : List (String × Format α)
  distinct : (STRUCT.map Prod.fst).Nodup
  free : ∀ key ∈ STRUCT.map Prod.fst, key ∉ ownAttributes

/-- An instance. The buffer is not there when `__init__` was given too little data. -/
structure Instance (α : Type) where
  fields : String → Value α
  structRawData : Option (List UInt8)
  data : Option (List UInt8)

/-- `STRUCT_SIZE`. -/
def Class.structSize (cls : Class α) : Nat := (cls.STRUCT.map fun entry => entry.2.size).sum

/-- The loop of `_unpack`. -/
def unpackFields (raw : List UInt8) :
    List (String × Format α) → Nat → (String → Value α) → String → Value α
  | [], _, fields => fields
  | (key, fmt) :: rest, offset, fields =>
    let v := fmt.unpack ((raw.drop offset).take fmt.size)
    unpackFields raw rest (offset + fmt.size) (Function.update fields key (.one v))

def Class.unpack (cls : Class α) (o : Instance α) (data : List UInt8) : Instance α :=
  if data.length < cls.structSize then o
  else
    let rest := if data.length > cls.structSize then some (data.drop cls.structSize) else o.data
    let raw := data.take cls.structSize
    { fields := unpackFields raw cls.STRUCT 0 o.fields
      structRawData := some raw
      data := rest }

/-- What `__init__` has set before it looks at the data. -/
def blank : Instance α := { fields := fun _ => .none, structRawData := none, data := none }

def Class.init (cls : Class α) : Option (List UInt8) → Instance α
  | some data => cls.unpack blank data
  | none => { blank with structRawData := some (List.replicate cls.structSize 0) }

/-- `struct.pack(fmt, *args)`: a format with one value takes one argument. -/
def structPack (fmt : Format α) : List α → Except PyError (List UInt8)
  | [a] =>
    match fmt.pack a with
    | some bytes => .ok bytes
    | none => .error .structError
  | _ => .error .structError

/-- What `_pack` adds to the buffer for one field. The message about a list of the wrong
length lacks two of its arguments, so making it raises. -/
def packField (fmt : Format α) : Value α → Except PyError (List UInt8)
  | .none => .ok (List.replicate fmt.size 0)
  | .one a => structPack fmt [a]
  | .many as => if as.length ≠ fmt.size then .error .typeError else structPack fmt as

/-- The body of the loop of `_pack`. -/
def packEntry (entry : String × Format α) : Prog PyError (Instance α) PUnit := do
  let o ← get
  let bytes ← ofExcept (packField entry.2 (o.fields entry.1))
  modify fun o => { o with structRawData := some (o.structRawData.getD [] ++ bytes) }

def Class.pack (cls : Class α) : Prog PyError (Instance α) Bool := do
  modify fun o => { o with structRawData := some [] }
  cls.STRUCT.forM packEntry
  return true

/-- The loop of `__setattr__`: `success = (success and self._pack())` at every entry of
the name. -/
def Class.packMatching (cls : Class α) (key : String) :
    List (String × Format α) → Bool → Prog PyError (Instance α) Bool
  | [], success => pure success
  | (key2, _) :: rest, success =>
    if key = key2 then do
      let success ← if success then cls.pack else pure false
      cls.packMatching key rest success
    else cls.packMatching key rest success

/-- `__setattr__` for a field. -/
def Class.setattr (cls : Class α) (key : String) (value : Value α) :
    Prog PyError (Instance α) Unit := do
  let o ← get
  let tmp := o.fields key
  modify fun o => { o with fields := Function.update o.fields key value }
  let success ← cls.packMatching key cls.STRUCT true
  if success then pure ()
  else modify fun o => { o with fields := Function.update o.fields key tmp }

/-- A sequence of assignments to fields. -/
def Class.assign (cls : Class α) (assignments : List (String × Value α)) :
    Prog PyError (Instance α) PUnit :=
  assignments.forM fun (key, value) => cls.setattr key value

def Class.len (cls : Class α) (o : Instance α) : Nat :=
  match o.data with
  | none => cls.structSize
  | some data => cls.structSize + data.length

def Instance.repr (o : Instance α) : Except PyError (List UInt8) :=
  match o.structRawData with
  | none => .error .attributeError
  | some raw =>
    match o.data with
    | none => .ok raw
    | some data => .ok (raw ++ data)

/-! ## What is packed -/

/-- The format takes the value. -/
def Fits (fmt : Format α) (value : Value α) : Prop := ∃ bytes, packField fmt value = .ok bytes

instance (fmt : Format α) (value : Value α) : Decidable (Fits fmt value) :=
  match h : packField fmt value with
  | .ok bytes => isTrue ⟨bytes, h⟩
  | .error e => isFalse fun ⟨bytes, hbytes⟩ => by
    rw [h] at hbytes
    cases hbytes

/-- The bytes of a value that fits. -/
def packedValue (fmt : Format α) (value : Value α) : List UInt8 :=
  match packField fmt value with
  | .ok bytes => bytes
  | .error _ => []

/-- The fields' packed values in the order of `STRUCT`. -/
def Class.packed (cls : Class α) (fields : String → Value α) : List UInt8 :=
  cls.STRUCT.flatMap fun entry => packedValue entry.2 (fields entry.1)

/-- Every field has a value that fits. -/
def Class.AllFit (cls : Class α) (fields : String → Value α) : Prop :=
  ∀ entry ∈ cls.STRUCT, Fits entry.2 (fields entry.1)

theorem packField_eq {fmt : Format α} {value : Value α} (h : Fits fmt value) :
    packField fmt value = .ok (packedValue fmt value) := by
  obtain ⟨bytes, hbytes⟩ := h
  rw [packedValue, hbytes]

theorem packField_one {fmt : Format α} {a : α} {bytes : List UInt8} (h : fmt.pack a = some bytes) :
    packField fmt (.one a) = .ok bytes := by
  simp only [packField, structPack, h]

theorem length_structPack {fmt : Format α} {args : List α} {bytes : List UInt8}
    (h : structPack fmt args = .ok bytes) : bytes.length = fmt.size := by
  unfold structPack at h
  split at h
  · split at h
    · rename_i hpack
      cases h
      exact fmt.length_pack hpack
    · cases h
  · cases h

theorem length_packField {fmt : Format α} {value : Value α} {bytes : List UInt8}
    (h : packField fmt value = .ok bytes) : bytes.length = fmt.size := by
  cases value with
  | none =>
    cases h
    exact List.length_replicate
  | one a =>
    simp only [packField] at h
    exact length_structPack h
  | many as =>
    simp only [packField] at h
    split at h
    · cases h
    · exact length_structPack h

/-- What fits is packed into as many bytes as `STRUCT_SIZE` says. -/
theorem Class.length_packed {cls : Class α} {fields : String → Value α} (h : cls.AllFit fields) :
    (cls.packed fields).length = cls.structSize := by
  unfold Class.packed Class.structSize
  rw [List.length_flatMap]
  refine congrArg List.sum (List.map_congr_left fun entry hentry => ?_)
  exact length_packField (packField_eq (h entry hentry))

theorem fits_none (fmt : Format α) : Fits fmt .none := ⟨_, rfl⟩

/-- A value that was read can be packed. -/
theorem fits_unpack {fmt : Format α} {bytes : List UInt8} (h : bytes.length = fmt.size) :
    Fits fmt (.one (fmt.unpack bytes)) := by
  obtain ⟨packed, hpacked⟩ := Option.isSome_iff_exists.mp (fmt.isSome_pack_unpack h)
  exact ⟨packed, packField_one hpacked⟩

/-! ## Assignments -/

theorem packEntry_eq {entry : String × Format α} {o : Instance α} {done : List UInt8}
    (hdone : o.structRawData = some done) (h : Fits entry.2 (o.fields entry.1)) :
    packEntry entry o = (.ok ⟨⟩, { o with
      structRawData := some (done ++ packedValue entry.2 (o.fields entry.1)) }) := by
  obtain ⟨fields, raw, data⟩ := o
  cases hdone
  exact (bind_ok rfl).trans ((bind_ok (congrArg (·, _) (packField_eq h))).trans rfl)

/-- The loop of `_pack` adds the fields' bytes one after the other. -/
theorem forM_packEntry {entries : List (String × Format α)} {o : Instance α} {done : List UInt8}
    (hdone : o.structRawData = some done)
    (h : ∀ entry ∈ entries, Fits entry.2 (o.fields entry.1)) :
    entries.forM packEntry o = (.ok ⟨⟩, { o with
      structRawData := some (done ++ entries.flatMap fun entry =>
        packedValue entry.2 (o.fields entry.1)) }) := by
  induction entries generalizing o done with
  | nil =>
    rw [List.flatMap_nil, List.append_nil, ← hdone]
    rfl
  | cons entry entries ih =>
    have hfirst := packEntry_eq hdone (h entry (by simp))
    have hrest := ih (o := { o with
      structRawData := some (done ++ packedValue entry.2 (o.fields entry.1)) }) rfl
      fun other hother => h other (by simp [hother])
    rw [List.flatMap_cons, ← List.append_assoc]
    exact (bind_ok hfirst).trans hrest

theorem Class.pack_eq {cls : Class α} {o : Instance α} (h : cls.AllFit o.fields) :
    cls.pack o = (.ok true, { o with structRawData := some (cls.packed o.fields) }) := by
  have hloop := forM_packEntry (o := { o with structRawData := some [] }) rfl h
  exact (bind_ok rfl).trans ((bind_ok hloop).trans rfl)

theorem Class.packMatching_absent {cls : Class α} {key : String}
    {entries : List (String × Format α)} (h : key ∉ entries.map Prod.fst) (success : Bool) :
    cls.packMatching key entries success = pure success := by
  induction entries with
  | nil => rfl
  | cons entry entries ih =>
    rw [List.map_cons, List.mem_cons, not_or] at h
    rw [Class.packMatching, if_neg h.1, ih h.2]

/-- A field's name stands once in `STRUCT`, so the buffer is packed once. -/
theorem Class.packMatching_eq {cls : Class α} {key : String}
    {entries : List (String × Format α)} (hdistinct : (entries.map Prod.fst).Nodup)
    (h : key ∈ entries.map Prod.fst) (o : Instance α) (hfit : cls.AllFit o.fields) :
    cls.packMatching key entries true o = cls.pack o := by
  induction entries with
  | nil => cases h
  | cons entry entries ih =>
    rw [List.map_cons, List.nodup_cons] at hdistinct
    unfold Class.packMatching
    by_cases hkey : key = entry.1
    · have habsent : cls.packMatching key entries true = pure true :=
        cls.packMatching_absent (hkey ▸ hdistinct.1) true
      rw [if_pos hkey, if_pos rfl]
      refine (bind_ok (cls.pack_eq hfit)).trans ((congrFun habsent _).trans ?_)
      exact (cls.pack_eq hfit).symm
    · rw [if_neg hkey]
      exact ih hdistinct.2 (List.mem_of_ne_of_mem hkey h)

theorem Class.setattr_eq {cls : Class α} {key : String} {value : Value α} {o : Instance α}
    (hkey : key ∈ cls.STRUCT.map Prod.fst)
    (hfit : cls.AllFit (Function.update o.fields key value)) :
    cls.setattr key value o =
      (.ok (), { o with
        fields := Function.update o.fields key value
        structRawData := some (cls.packed (Function.update o.fields key value)) }) := by
  have hpack := (cls.packMatching_eq cls.distinct hkey
    { o with fields := Function.update o.fields key value } hfit).trans (cls.pack_eq hfit)
  exact (bind_ok rfl).trans ((bind_ok rfl).trans ((bind_ok hpack).trans rfl))

/-! ## What an instance reads -/

/-- What the loop of `_unpack` leaves in a field: nothing else than what it read there. -/
theorem unpackFields_fit {raw : List UInt8} {entries : List (String × Format α)} {offset : Nat}
    {fields : String → Value α}
    (hraw : offset + (entries.map fun entry => entry.2.size).sum ≤ raw.length)
    (hdistinct : (entries.map Prod.fst).Nodup) {entry : String × Format α}
    (hentry : entry ∈ entries ∨ entry.1 ∉ entries.map Prod.fst ∧ Fits entry.2 (fields entry.1)) :
    Fits entry.2 (unpackFields raw entries offset fields entry.1) := by
  induction entries generalizing offset fields with
  | nil =>
    cases hentry with
    | inl hmem => cases hmem
    | inr hfits => exact hfits.2
  | cons first entries ih =>
    rw [List.map_cons, List.sum_cons] at hraw
    rw [List.map_cons, List.nodup_cons] at hdistinct
    refine ih (by omega) hdistinct.2 ?_
    cases hentry with
    | inl hmem =>
      obtain rfl | hmem := List.mem_cons.mp hmem
      · refine Or.inr ⟨hdistinct.1, ?_⟩
        rw [Function.update_self]
        refine fits_unpack ?_
        rw [List.length_take, List.length_drop]
        omega
      · exact Or.inl hmem
    | inr hfits =>
      rw [List.map_cons, List.mem_cons, not_or] at hfits
      refine Or.inr ⟨hfits.1.2, ?_⟩
      rw [Function.update_of_ne hfits.1.1]
      exact hfits.2

theorem Class.unpack_short {cls : Class α} {o : Instance α} {data : List UInt8}
    (h : data.length < cls.structSize) : cls.unpack o data = o := if_pos h

theorem Class.unpack_long {cls : Class α} {o : Instance α} {data : List UInt8}
    (h : cls.structSize ≤ data.length) :
    cls.unpack o data =
      { fields := unpackFields (data.take cls.structSize) cls.STRUCT 0 o.fields
        structRawData := some (data.take cls.structSize)
        data := if data.length > cls.structSize then some (data.drop cls.structSize)
          else o.data } :=
  if_neg (by omega)

theorem Class.unpack_allFit {cls : Class α} {o : Instance α} {data : List UInt8}
    (h : cls.structSize ≤ data.length) : cls.AllFit (cls.unpack o data).fields := by
  intro entry hentry
  rw [cls.unpack_long h]
  refine unpackFields_fit ?_ cls.distinct (Or.inl hentry)
  rw [List.length_take]
  unfold Class.structSize at h ⊢
  omega

theorem Class.init_allFit (cls : Class α) (start : Option (List UInt8)) :
    cls.AllFit (cls.init start).fields := by
  cases start with
  | none => exact fun entry _ => fits_none entry.2
  | some data =>
    rw [Class.init]
    by_cases hlen : data.length < cls.structSize
    · rw [cls.unpack_short hlen]
      exact fun entry _ => fits_none entry.2
    · exact cls.unpack_allFit (Nat.le_of_not_lt hlen)

/-- An instance made from a string of bytes stands for that string. -/
theorem Class.repr_init {cls : Class α} {data : List UInt8} (h : cls.structSize ≤ data.length) :
    (cls.init (some data)).repr = .ok data := by
  rw [Class.init, cls.unpack_long h]
  unfold Instance.repr
  by_cases hlen : data.length > cls.structSize
  · simp only [if_pos hlen, List.take_append_drop]
  · simp only [if_neg hlen, List.take_of_length_le (Nat.le_of_not_lt hlen), blank]

theorem Class.len_init {cls : Class α} {data : List UInt8} (h : cls.structSize ≤ data.length) :
    cls.len (cls.init (some data)) = data.length := by
  rw [Class.init, cls.unpack_long h]
  unfold Class.len
  by_cases hlen : data.length > cls.structSize
  · simp only [if_pos hlen, List.length_drop]
    omega
  · simp only [if_neg hlen, blank]
    omega

/-! ## Sequences of assignments -/

/-- The last value assigned to a field, or the one it had before. -/
def lastValue (key : String) (before : Value α) : List (String × Value α) → Value α
  | [] => before
  | (name, value) :: rest => lastValue key (if key = name then value else before) rest

/-- The assignment is to a field, and with a value that fits. -/
def Class.Proper (cls : Class α) (assignment : String × Value α) : Prop :=
  assignment.1 ∈ cls.STRUCT.map Prod.fst ∧
    ∀ entry ∈ cls.STRUCT, entry.1 = assignment.1 → Fits entry.2 assignment.2

instance (cls : Class α) (assignment : String × Value α) : Decidable (cls.Proper assignment) :=
  inferInstanceAs (Decidable (_ ∧ _))

theorem Class.allFit_update {cls : Class α} {fields : String → Value α}
    {assignment : String × Value α} (hfit : cls.AllFit fields) (h : cls.Proper assignment) :
    cls.AllFit (Function.update fields assignment.1 assignment.2) := by
  intro entry hentry
  by_cases hkey : entry.1 = assignment.1
  · rw [hkey, Function.update_self]
    exact h.2 entry hentry hkey
  · rw [Function.update_of_ne hkey]
    exact hfit entry hentry

/-- What a sequence of assignments leaves. -/
theorem Class.assign_eq {cls : Class α} {assignments : List (String × Value α)}
    {o : Instance α} (hfit : cls.AllFit o.fields)
    (h : ∀ assignment ∈ assignments, cls.Proper assignment) :
    cls.AllFit (fun key => lastValue key (o.fields key) assignments) ∧
    cls.assign assignments o = (.ok ⟨⟩, { o with
      fields := fun key => lastValue key (o.fields key) assignments
      structRawData :=
        if assignments = [] then o.structRawData
        else some (cls.packed fun key => lastValue key (o.fields key) assignments) }) := by
  induction assignments generalizing o with
  | nil => exact ⟨hfit, rfl⟩
  | cons first assignments ih =>
    have hproper := h first (by simp)
    have hupdated := cls.allFit_update hfit hproper
    have hlast : (fun key => lastValue key (Function.update o.fields first.1 first.2 key)
        assignments) = fun key => lastValue key (o.fields key) (first :: assignments) := by
      funext key
      rw [lastValue]
      by_cases hkey : key = first.1
      · rw [if_pos hkey, hkey, Function.update_self]
      · rw [if_neg hkey, Function.update_of_ne hkey]
    obtain ⟨hrest, hassign⟩ := ih (o := { o with
      fields := Function.update o.fields first.1 first.2
      structRawData := some (cls.packed (Function.update o.fields first.1 first.2)) })
      hupdated fun other hother => h other (by simp [hother])
    simp only [hlast] at hrest hassign
    refine ⟨hrest, (bind_ok (cls.setattr_eq hproper.1 hupdated)).trans (hassign.trans ?_)⟩
    rw [if_neg (List.cons_ne_nil _ _)]
    split
    · rename_i hnil
      subst hnil
      rw [← hlast]
      rfl
    · rfl

/-- The buffer after assignments to a new instance. A struct that has never been packed
has `None` in every field. -/
theorem Class.assign_init {cls : Class α} {start : Option (List UInt8)}
    {assignments : List (String × Value α)} (hstart : start = none ∨ assignments ≠ [])
    (h : ∀ assignment ∈ assignments, cls.Proper assignment) :
    cls.assign assignments (cls.init start) = (.ok ⟨⟩, { cls.init start with
      fields := fun key => lastValue key ((cls.init start).fields key) assignments
      structRawData := some (cls.packed fun key =>
        lastValue key ((cls.init start).fields key) assignments) }) := by
  obtain ⟨-, hassign⟩ := cls.assign_eq (cls.init_allFit start) h
  rw [hassign]
  split
  · rename_i hnil
    subst hnil
    obtain rfl := hstart.resolve_right fun hne => hne rfl
    have hzeros : List.replicate cls.structSize 0 = cls.packed fun _ => (.none : Value α) := by
      unfold Class.structSize Class.packed
      induction cls.STRUCT with
      | nil => rfl
      | cons entry entries ih =>
        rw [List.map_cons, List.sum_cons, List.replicate_add, ih]
        rfl
    simp only [Class.init, blank, lastValue, hzeros]
  · rfl

/-- A buffer of the right length and any data are read back as they are. -/
theorem Class.repr_init_repr {cls : Class α} {p : Instance α} {raw : List UInt8}
    (hraw : p.structRawData = some raw) (hlen : raw.length = cls.structSize) :
    ∃ bytes, p.repr = .ok bytes ∧ (cls.init (some bytes)).repr = .ok bytes := by
  unfold Instance.repr
  rw [hraw]
  cases p.data with
  | none => exact ⟨raw, rfl, cls.repr_init hlen.ge⟩
  | some data =>
    refine ⟨raw ++ data, rfl, cls.repr_init ?_⟩
    rw [List.length_append, hlen]
    exact Nat.le_add_right _ _

/-- **`DataStruct` is a faithful codec**: an instance made from enough bytes stands for
them; after any assignments that fit, the buffer is the packed last values of the fields in
the order of `STRUCT`; and an instance with a buffer, and any data, is read back from its
representation. -/
theorem dataStruct_codec (cls : Class α) :
    (∀ d : List UInt8, cls.structSize ≤ d.length →
      (cls.init (some d)).repr = .ok d ∧ cls.len (cls.init (some d)) = d.length) ∧
    (∀ (start : Option (List UInt8)) (assignments : List (String × Value α)),
      start = none ∨ assignments ≠ [] →
      (∀ assignment ∈ assignments, cls.Proper assignment) →
      ∃ p raw, cls.assign assignments (cls.init start) = (.ok ⟨⟩, p) ∧
        p.structRawData = some raw ∧ raw.length = cls.structSize ∧
        raw = cls.STRUCT.flatMap fun entry => packedValue entry.2
          (lastValue entry.1 ((cls.init start).fields entry.1) assignments)) ∧
    (∀ (start : Option (List UInt8)) (assignments : List (String × Value α)),
      (∀ d, start = some d → cls.structSize ≤ d.length ∨ assignments ≠ []) →
      (∀ assignment ∈ assignments, cls.Proper assignment) →
      ∃ p, cls.assign assignments (cls.init start) = (.ok ⟨⟩, p) ∧
        ∀ data : Option (List UInt8), ∃ bytes, { p with data := data }.repr = .ok bytes ∧
          (cls.init (some bytes)).repr = .ok bytes) := by
  have hpacked : ∀ (start : Option (List UInt8)) (assignments : List (String × Value α)),
      (∀ assignment ∈ assignments, cls.Proper assignment) →
      (cls.packed fun key => lastValue key ((cls.init start).fields key) assignments).length =
        cls.structSize := fun start assignments hproper =>
    cls.length_packed (cls.assign_eq (cls.init_allFit start) hproper).1
  refine ⟨fun d hd => ⟨cls.repr_init hd, cls.len_init hd⟩, ?_, ?_⟩
  · intro start assignments hstart hproper
    exact ⟨_, _, cls.assign_init hstart hproper, rfl, hpacked start assignments hproper, rfl⟩
  · intro start assignments hstart hproper
    by_cases hpack : start = none ∨ assignments ≠ []
    · refine ⟨_, cls.assign_init hpack hproper, fun data => ?_⟩
      exact cls.repr_init_repr rfl (hpacked start assignments hproper)
    · -- nothing was assigned: the buffer is the first part of what was parsed
      rw [not_or, not_not] at hpack
      obtain ⟨hsome, rfl⟩ := hpack
      obtain ⟨d, rfl⟩ := Option.ne_none_iff_exists'.mp hsome
      have hd := (hstart d rfl).resolve_right fun hne => hne rfl
      refine ⟨_, rfl, fun data => ?_⟩
      rw [Class.init, cls.unpack_long hd]
      refine cls.repr_init_repr rfl ?_
      rw [List.length_take]
      omega

/-! ## The packets of the disk sensor -/

def diskSensorPacket : Class Scalar where
  STRUCT :=
    [("sector", formatString .native 0 .Q 0), ("num_sectors", formatString .native 0 .I 0),
      ("disk_operation", formatString .native 0 .I 0), ("size", formatString .native 0 .I 0)]
  distinct := by decide
  free := by decide

/-- A packet of 21 bytes, and two assignments to a new packet. -/
theorem dataStruct_codec_diskSensorPacket :
    (diskSensorPacket.init (some (List.replicate 21 5))).repr = .ok (List.replicate 21 5) ∧
    (∃ p raw, diskSensorPacket.assign [("sector", .one (.int 258)), ("size", .one (.int 7))]
        (diskSensorPacket.init none) = (.ok ⟨⟩, p) ∧ p.structRawData = some raw ∧
      raw = [2, 1, 0, 0, 0, 0, 0, 0] ++ List.replicate 8 0 ++ [7, 0, 0, 0]) ∧
    ∃ p, diskSensorPacket.assign [("sector", .one (.int 258))]
        (diskSensorPacket.init (some (List.replicate 21 5))) = (.ok ⟨⟩, p) ∧
      ∃ bytes, { p with data := some [9] }.repr = .ok bytes ∧
        (diskSensorPacket.init (some bytes)).repr = .ok bytes := by
  obtain ⟨hread, hassign, hround⟩ := dataStruct_codec diskSensorPacket
  refine ⟨(hread _ (by decide)).1, ?_, ?_⟩
  · obtain ⟨p, raw, hp, hraw, -, hbytes⟩ := hassign none
      [("sector", .one (.int 258)), ("size", .one (.int 7))] (Or.inl rfl) (by decide)
    exact ⟨p, raw, hp, hraw, hbytes.trans (by decide)⟩
  · obtain ⟨p, hp, hdata⟩ := hround (some (List.replicate 21 5)) [("sector", .one (.int 258))]
      (fun d _ => Or.inr (by simp)) (by decide)
    exact ⟨p, hp, hdata (some [9])⟩

end LoPhi.Data.DataStruct
