import LoPhi.Data.DataStruct

/-! # Assignments that raise

`DataStruct` with formats of any number of values. An assignment stores the value and then packs
the buffer from the beginning; a value that cannot be packed ends it there, with the new value in
its field and the buffer cut off before the first field that cannot be packed. The branch that
puts the old value back needs `_pack` to return `False`, and the message it logs before that
lacks two of its arguments. -/

namespace LoPhi.Data.Assignment
open LoPhi.Lib.Effect LoPhi.Lib.Python LoPhi.Lib.Struct
open LoPhi.Data.DataStruct (Value Instance Class ownAttributes blank)

variable {α : Type}

/-- A subclass of `DataStruct`. A name may stand in it more than once. -/
structure Subclass (α : Type) where
  STRUCT : List (String × Layout α)
  free : ∀ key ∈ STRUCT.map Prod.fst, key ∉ ownAttributes

def Subclass.structSize (cls : Subclass α) : Nat := (cls.STRUCT.map fun entry => entry.2.size).sum

/-- One value stands for itself, several are a tuple. -/
def ofValues : List α → Value α
  | [a] => .one a
  | as => .many as

/-- The loop of `_unpack`. -/
def unpackFields (raw : List UInt8) :
    List (String × Layout α) → Nat → (String → Value α) → String → Value α
  | [], _, fields => fields
  | (key, fmt) :: rest, offset, fields =>
    let v := fmt.unpack ((raw.drop offset).take fmt.size)
    unpackFields raw rest (offset + fmt.size) (Function.update fields key (ofValues v))

def Subclass.unpack (cls : Subclass α) (o : Instance α) (data : List UInt8) : Instance α :=
  if data.length < cls.structSize then o
  else
    let rest := if data.length > cls.structSize then some (data.drop cls.structSize) else o.data
    let raw := data.take cls.structSize
    { fields := unpackFields raw cls.STRUCT 0 o.fields
      structRawData := some raw
      data := rest }

def Subclass.init (cls : Subclass α) : Option (List UInt8) → Instance α
  | some data => cls.unpack blank data
  | none => { blank with structRawData := some (List.replicate cls.structSize 0) }

/-- `struct.pack(fmt, *args)`. -/
def structPack (fmt : Layout α) (args : List α) : Except PyError (List UInt8) :=
  match fmt.pack args with
  | some bytes => .ok bytes
  | none => .error .structError

/-- What `_pack` adds to the buffer for one field. The message about a list of the wrong length
lacks two of its arguments, so making it raises. -/
def packField (fmt : Layout α) : Value α → Except PyError (List UInt8)
  | .none => .ok (List.replicate fmt.size 0)
  | .one a => structPack fmt [a]
  | .many as => if as.length ≠ fmt.size then .error .typeError else structPack fmt as

/-- The body of the loop of `_pack`. -/
def packEntry (entry : String × Layout α) : Prog PyError (Instance α) PUnit := do
  let o ← get
  let bytes ← ofExcept (packField entry.2 (o.fields entry.1))
  modify fun o => { o with structRawData := some (o.structRawData.getD [] ++ bytes) }

def Subclass.pack (cls : Subclass α) : Prog PyError (Instance α) Bool := do
  modify fun o => { o with structRawData := some [] }
  cls.STRUCT.forM packEntry
  return true

/-- The loop of `__setattr__`. -/
def Subclass.packMatching (cls : Subclass α) (key : String) :
    List (String × Layout α) → Bool → Prog PyError (Instance α) Bool
  | [], success => pure success
  | (key2, _) :: rest, success =>
    if key = key2 then do
      let success ← if success then cls.pack else pure false
      cls.packMatching key rest success
    else cls.packMatching key rest success

/-- `__setattr__` for a field. -/
def Subclass.setattr (cls : Subclass α) (key : String) (value : Value α) :
    Prog PyError (Instance α) Unit := do
  let o ← get
  let tmp := o.fields key
  modify fun o => { o with fields := Function.update o.fields key value }
  let success ← cls.packMatching key cls.STRUCT true
  if success then pure ()
  else modify fun o => { o with fields := Function.update o.fields key tmp }

/-- The instances that parsing and assignments, to fields and to the data, can lead to. An
assignment that raises counts: its exception may be caught. -/
inductive Reachable (cls : Subclass α) : Instance α → Prop where
  | init (data : Option (List UInt8)) : Reachable cls (cls.init data)
  | unpack {o : Instance α} (data : List UInt8) (h : Reachable cls o) :
      Reachable cls (cls.unpack o data)
  | field {o : Instance α} (key : String) (value : Value α) (hkey : key ∈ cls.STRUCT.map Prod.fst)
      (h : Reachable cls o) : Reachable cls (cls.setattr key value o).2
  | data {o : Instance α} (data : Option (List UInt8)) (h : Reachable cls o) :
      Reachable cls { o with data := data }

/-! ## What an assignment leaves -/

/-- The fields' bytes up to the first field that cannot be packed. -/
def packedBefore (fields : String → Value α) : List (String × Layout α) → List UInt8
  | [] => []
  | (key, fmt) :: rest =>
    match packField fmt (fields key) with
    | .ok bytes => bytes ++ packedBefore fields rest
    | .error _ => []

/-- Every field can be packed. -/
def AllFit (cls : Subclass α) (fields : String → Value α) : Prop :=
  ∀ entry ∈ cls.STRUCT, ∃ bytes, packField entry.2 (fields entry.1) = .ok bytes

section Pack
variable {cls : Subclass α} {o : Instance α}

theorem packEntry_ok {entry : String × Layout α} {done bytes : List UInt8}
    (hdone : o.structRawData = some done) (h : packField entry.2 (o.fields entry.1) = .ok bytes) :
    packEntry entry o = (.ok ⟨⟩, { o with structRawData := some (done ++ bytes) }) := by
  obtain ⟨fields, raw, data⟩ := o
  cases hdone
  exact (bind_ok rfl).trans ((bind_ok (congrArg (·, _) h)).trans rfl)

theorem packEntry_error {entry : String × Layout α} {e : PyError}
    (h : packField entry.2 (o.fields entry.1) = .error e) :
    packEntry entry o = (.error e, o) :=
  (bind_ok rfl).trans (bind_error (congrArg (·, _) h))

/-- The loop of `_pack` gets as far as the first field that cannot be packed. -/
theorem forM_packEntry_state {entries : List (String × Layout α)} {done : List UInt8}
    (hdone : o.structRawData = some done) :
    (entries.forM packEntry o).2 =
      { o with structRawData := some (done ++ packedBefore o.fields entries) } := by
  induction entries generalizing o done with
  | nil =>
    rw [packedBefore, List.append_nil, ← hdone]
    rfl
  | cons entry entries ih =>
    rw [packedBefore]
    cases hpack : packField entry.2 (o.fields entry.1) with
    | error e =>
      dsimp only
      rw [List.append_nil, ← hdone]
      exact congrArg Prod.snd (bind_error (packEntry_error hpack))
    | ok bytes =>
      dsimp only
      rw [← List.append_assoc]
      exact (congrArg Prod.snd (bind_ok (packEntry_ok hdone hpack))).trans (ih rfl)

theorem forM_packEntry_ok {entries : List (String × Layout α)} {done : List UInt8}
    (hdone : o.structRawData = some done)
    (h : ∀ entry ∈ entries, ∃ bytes, packField entry.2 (o.fields entry.1) = .ok bytes) :
    (entries.forM packEntry o).1 = .ok ⟨⟩ := by
  induction entries generalizing o done with
  | nil => rfl
  | cons entry entries ih =>
    obtain ⟨bytes, hpack⟩ := h entry (by simp)
    refine (congrArg Prod.fst (bind_ok (packEntry_ok hdone hpack))).trans ?_
    exact ih rfl fun other hother => h other (by simp [hother])

/-- `_pack` returns `True` or raises, and cuts the buffer off where it stops. -/
theorem pack_cases (cls : Subclass α) (o : Instance α) :
    ∃ result, (result = .ok true ∨ ¬ AllFit cls o.fields ∧ ∃ e, result = .error e) ∧
      cls.pack o =
        (result, { o with structRawData := some (packedBefore o.fields cls.STRUCT) }) := by
  have hstate : (cls.STRUCT.forM packEntry { o with structRawData := some [] }).2 =
      { o with structRawData := some (packedBefore o.fields cls.STRUCT) } :=
    forM_packEntry_state (o := { o with structRawData := some [] }) rfl
  cases hloop : cls.STRUCT.forM packEntry { o with structRawData := some [] } with
  | mk result o' =>
    rw [hloop] at hstate
    obtain rfl := hstate
    cases result with
    | ok u => exact ⟨.ok true, .inl rfl, (bind_ok rfl).trans ((bind_ok hloop).trans rfl)⟩
    | error e =>
      refine ⟨.error e, .inr ⟨fun hfit => ?_, e, rfl⟩, (bind_ok rfl).trans (bind_error hloop)⟩
      have hok := forM_packEntry_ok (o := { o with structRawData := some [] }) rfl hfit
      rw [hloop] at hok
      cases hok

theorem packMatching_absent {key : String} {entries : List (String × Layout α)}
    (h : key ∉ entries.map Prod.fst) (success : Bool) :
    cls.packMatching key entries success = pure success := by
  induction entries with
  | nil => rfl
  | cons entry entries ih =>
    rw [List.map_cons, List.mem_cons, not_or] at h
    rw [Subclass.packMatching, if_neg h.1, ih h.2]

/-- The loop of `__setattr__` packs until it stops, and packing again changes nothing. -/
theorem packMatching_cases (cls : Subclass α) {key : String}
    {entries : List (String × Layout α)} (hkey : key ∈ entries.map Prod.fst) (o : Instance α) :
    ∃ result, (result = .ok true ∨ ¬ AllFit cls o.fields ∧ ∃ e, result = .error e) ∧
      cls.packMatching key entries true o =
        (result, { o with structRawData := some (packedBefore o.fields cls.STRUCT) }) := by
  induction entries generalizing o with
  | nil => cases hkey
  | cons entry entries ih =>
    unfold Subclass.packMatching
    by_cases hfirst : key = entry.1
    · rw [if_pos hfirst, if_pos rfl]
      obtain ⟨result, hresult, hpack⟩ := pack_cases cls o
      rcases hresult with rfl | ⟨hunfit, e, rfl⟩
      · by_cases hagain : key ∈ entries.map Prod.fst
        · obtain ⟨result, hresult, hrest⟩ := ih hagain
            { o with structRawData := some (packedBefore o.fields cls.STRUCT) }
          exact ⟨result, hresult, (bind_ok hpack).trans hrest⟩
        · refine ⟨.ok true, .inl rfl, (bind_ok hpack).trans ?_⟩
          exact congrFun (packMatching_absent hagain true) _
      · exact ⟨.error e, .inr ⟨hunfit, e, rfl⟩, bind_error hpack⟩
    · rw [if_neg hfirst]
      exact ih (List.mem_of_ne_of_mem hfirst hkey) o

/-- An assignment to a field stores the value and cuts the buffer off at the first field that
cannot be packed, and raises only if there is one. -/
theorem setattr_cases {key : String} (hkey : key ∈ cls.STRUCT.map Prod.fst) (value : Value α)
    (o : Instance α) :
    ∃ result, (result = .ok () ∨
        ¬ AllFit cls (Function.update o.fields key value) ∧ ∃ e, result = .error e) ∧
      cls.setattr key value o = (result, { o with
        fields := Function.update o.fields key value
        structRawData := some
          (packedBefore (Function.update o.fields key value) cls.STRUCT) }) := by
  obtain ⟨result, hresult, hpack⟩ := packMatching_cases cls hkey
    { o with fields := Function.update o.fields key value }
  rcases hresult with rfl | ⟨hunfit, e, rfl⟩
  · exact ⟨.ok (), .inl rfl,
      (bind_ok rfl).trans ((bind_ok rfl).trans ((bind_ok hpack).trans rfl))⟩
  · exact ⟨.error e, .inr ⟨hunfit, e, rfl⟩,
      (bind_ok rfl).trans ((bind_ok rfl).trans (bind_error hpack))⟩

theorem setattr_unchanged_iff {key : String} (hkey : key ∈ cls.STRUCT.map Prod.fst)
    (value : Value α) (o : Instance α) :
    (cls.setattr key value o).2 = o ↔
      o.fields key = value ∧ o.structRawData = some (packedBefore o.fields cls.STRUCT) := by
  obtain ⟨result, -, hset⟩ := setattr_cases hkey value o
  obtain ⟨fields, raw, data⟩ := o
  rw [hset, Instance.mk.injEq, Function.update_eq_self_iff]
  constructor
  · rintro ⟨rfl, hraw, -⟩
    rw [Function.update_eq_self] at hraw
    exact ⟨rfl, hraw.symm⟩
  · rintro ⟨rfl, hraw⟩
    rw [Function.update_eq_self]
    exact ⟨rfl, hraw.symm, rfl⟩

/-- Assigning what is there raises only where something else cannot be packed. -/
theorem not_allFit_of_raise {key : String} (hkey : key ∈ cls.STRUCT.map Prod.fst) {e : PyError}
    (hraise : (cls.setattr key (o.fields key) o).1 = .error e) : ¬ AllFit cls o.fields := by
  obtain ⟨result, hresult, hset⟩ := setattr_cases hkey (o.fields key) o
  rw [hset] at hraise
  rw [Function.update_eq_self] at hresult
  rcases hresult with rfl | ⟨hunfit, -⟩
  · cases hraise
  · exact hunfit

end Pack

/-- **An assignment that raises leaves an instance as it was if and only if** the field had the
value before and the buffer stopped already before the first field that cannot be packed; so it
never does where every field can be packed. -/
theorem raising_unchanged_iff (cls : Subclass α) (o : Instance α) (key : String)
    (value : Value α) (hkey : key ∈ cls.STRUCT.map Prod.fst) (e : PyError)
    (hraise : (cls.setattr key value o).1 = .error e) :
    ((cls.setattr key value o).2 = o ↔
      o.fields key = value ∧ o.structRawData = some (packedBefore o.fields cls.STRUCT)) ∧
    (AllFit cls o.fields → (cls.setattr key value o).2 ≠ o) := by
  have hiff := setattr_unchanged_iff hkey value o
  refine ⟨hiff, fun hfit hsame => ?_⟩
  obtain ⟨rfl, -⟩ := hiff.mp hsame
  exact not_allFit_of_raise hkey hraise hfit

/-- A hardware address and a length. -/
def station : Subclass Scalar where
  STRUCT := [("mac", (unsigned .big 1).times 6), ("len", (unsigned .big 2).layout)]
  free := by decide

/-- Two bytes for an address. -/
def twoBytes : Value Scalar := .many [.int 1, .int 2]

/-- An address of two bytes, assigned a second time. -/
theorem raising_twice_unchanged :
    (station.setattr "mac" twoBytes (station.setattr "mac" twoBytes (station.init none)).2).2 =
      (station.setattr "mac" twoBytes (station.init none)).2 :=
  (raising_unchanged_iff station (station.setattr "mac" twoBytes (station.init none)).2 "mac"
    twoBytes (by decide) .typeError rfl).1.mpr ⟨rfl, rfl⟩

/-- A length that does not fit: the field keeps it, and the buffer is cut off before it. -/
theorem raising_assignment_stays :
    ¬ ∀ (cls : Subclass Scalar) (o : Instance Scalar) (key : String) (value : Value Scalar),
      Reachable cls o → key ∈ cls.STRUCT.map Prod.fst →
      (∃ e, (cls.setattr key value o).1 = .error e) → (cls.setattr key value o).2 = o := by
  intro h
  have hsame := h station (station.init none) "len" (.one (.int 65536)) (.init none) (by decide)
    ⟨.structError, rfl⟩
  have hraw := congrArg Instance.structRawData hsame
  exact absurd hraw (by decide)

/-! ## Formats of one value -/

section Single
variable {cls : Class α}

/-- A class whose formats take one value each. -/
def general (cls : Class α) : Subclass α where
  STRUCT := cls.STRUCT.map fun entry => (entry.1, entry.2.layout)
  free key hkey := cls.free key (by
    rw [List.map_map] at hkey
    exact hkey)

theorem packField_layout (fmt : Format α) (value : Value α) :
    packField fmt.layout value = DataStruct.packField fmt value := by
  have hpack : ∀ args, structPack fmt.layout args = DataStruct.structPack fmt args := by
    intro args
    unfold structPack DataStruct.structPack Format.layout
    cases args with
    | nil => rfl
    | cons a rest =>
      cases rest with
      | nil => rfl
      | cons b rest => rfl
  cases value with
  | none => rfl
  | one a => exact hpack [a]
  | many as => exact congrArg (ite _ _) (hpack as)

theorem packEntry_layout (entry : String × Format α) :
    packEntry (entry.1, entry.2.layout) = DataStruct.packEntry entry := by
  unfold packEntry DataStruct.packEntry
  simp only [packField_layout]

theorem forM_layout (entries : List (String × Format α)) :
    (entries.map fun entry => (entry.1, entry.2.layout)).forM packEntry =
      entries.forM DataStruct.packEntry := by
  induction entries with
  | nil => rfl
  | cons entry entries ih =>
    show (packEntry (entry.1, entry.2.layout) >>= fun _ =>
      (entries.map fun entry => (entry.1, entry.2.layout)).forM packEntry) =
        (DataStruct.packEntry entry >>= fun _ => entries.forM DataStruct.packEntry)
    rw [packEntry_layout, ih]

theorem pack_general (cls : Class α) : (general cls).pack = cls.pack := by
  unfold Subclass.pack Class.pack
  rw [← forM_layout]
  rfl

theorem packMatching_general (key : String) (entries : List (String × Format α))
    (success : Bool) :
    (general cls).packMatching key (entries.map fun entry => (entry.1, entry.2.layout)) success =
      cls.packMatching key entries success := by
  induction entries generalizing success with
  | nil => rfl
  | cons entry entries ih =>
    rw [List.map_cons]
    unfold Subclass.packMatching Class.packMatching
    simp only [ih, pack_general]

/-- On such a class an assignment is the one of `DataStruct`. -/
theorem setattr_general (cls : Class α) (key : String) (value : Value α) :
    (general cls).setattr key value = cls.setattr key value := by
  unfold Subclass.setattr Class.setattr
  simp only [← packMatching_general]
  rfl

theorem structSize_general (cls : Class α) : (general cls).structSize = cls.structSize := by
  unfold Subclass.structSize Class.structSize general
  rw [List.map_map]
  rfl

theorem unpackFields_layout (raw : List UInt8) (entries : List (String × Format α)) (offset : Nat)
    (fields : String → Value α) :
    unpackFields raw (entries.map fun entry => (entry.1, entry.2.layout)) offset fields =
      DataStruct.unpackFields raw entries offset fields := by
  induction entries generalizing offset fields with
  | nil => rfl
  | cons entry entries ih => exact ih _ _

theorem unpack_general (cls : Class α) (o : Instance α) (data : List UInt8) :
    (general cls).unpack o data = cls.unpack o data := by
  unfold Subclass.unpack Class.unpack
  simp only [structSize_general, ← unpackFields_layout]
  rfl

theorem init_general (cls : Class α) (data : Option (List UInt8)) :
    (general cls).init data = cls.init data := by
  cases data with
  | none =>
    unfold Subclass.init Class.init
    rw [structSize_general]
  | some data => exact unpack_general cls blank data

theorem allFit_general (fields : String → Value α) :
    AllFit (general cls) fields ↔ cls.AllFit fields := by
  unfold AllFit Class.AllFit general DataStruct.Fits
  simp only [List.forall_mem_map, packField_layout]

/-- An instance of such a class has fields that can all be packed, or is what an assignment that
raised has left. -/
theorem reachable_fits {o : Instance α} (h : Reachable (general cls) o) :
    AllFit (general cls) o.fields ∨
      o.structRawData = some (packedBefore o.fields (general cls).STRUCT) := by
  induction h with
  | init data =>
    rw [init_general, allFit_general]
    exact .inl (cls.init_allFit data)
  | unpack data _ ih =>
    rw [unpack_general]
    by_cases hlen : data.length < cls.structSize
    · rw [cls.unpack_short hlen]
      exact ih
    · rw [allFit_general]
      exact .inl (cls.unpack_allFit (Nat.le_of_not_lt hlen))
  | field key value hkey _ _ =>
    obtain ⟨result, -, hset⟩ := setattr_cases hkey value _
    rw [hset]
    exact .inr rfl
  | data data _ ih => exact ih

/-- **An assignment to a field of a class of one-value formats that raises leaves the instance as
it was if and only if the field had the value before.** -/
theorem single_unchanged_iff {o : Instance α} (h : Reachable (general cls) o) {key : String}
    {value : Value α} (hkey : key ∈ (general cls).STRUCT.map Prod.fst) {e : PyError}
    (hraise : ((general cls).setattr key value o).1 = .error e) :
    ((general cls).setattr key value o).2 = o ↔ o.fields key = value := by
  rw [setattr_unchanged_iff hkey]
  refine ⟨And.left, ?_⟩
  rintro rfl
  exact ⟨rfl, (reachable_fits h).resolve_left (not_allFit_of_raise hkey hraise)⟩

end Single

end LoPhi.Data.Assignment
