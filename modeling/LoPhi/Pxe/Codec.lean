import Mathlib.Data.List.Pairwise
import LoPhi.Pxe.Wire

/-! # What is encoded is decoded

A packet that was built by setting and deleting options is read back as it was, header and
options, unless one of two options is set: `pad`, whose code is skipped by the reader, and
`nb_node_type`, whose code has another name there. Of what anyone else sends the reader takes the
last record of each code it has a name for. -/

namespace LoPhi.Pxe.Codec
open LoPhi.Lib LoPhi.Lib.Tlv LoPhi.Pxe.Dhcpd LoPhi.Pxe.Wire

variable {p q : Packet} {name name' : String} {value : List Nat} {code : Nat} {data : List UInt8}
  {b : Bool}

/-! ## The tables -/

set_option maxRecDepth 4000 in
theorem codes_increase : (dhcpOptions.map Prod.snd).IsChain (· < ·) := by decide

set_option maxRecDepth 8000 in
/-- The code of an option that can be set is read as its name, but for one. -/
theorem names_agree : ∀ o ∈ dhcpOptions, o.2 < 121 → nameOf o.2 = o.1 ∨ o.1 = "nb_node_type" := by
  decide

set_option maxRecDepth 8000 in
theorem names_read : ∀ name ∈ dhcpOptionsList.drop 1, name ≠ "pad" ∧ name ≠ "nb_node_type" := by
  decide

set_option maxRecDepth 4000 in
theorem types_unset : ∀ t ∈ dhcpOptionsTypes.drop 121, fieldsSpecs t = none := by decide

theorem length_types : dhcpOptionsTypes.length = 246 := by rfl

set_option maxRecDepth 4000 in
theorem length_names : dhcpOptionsList.length = 256 := by rfl

theorem fields_apart : dhcpFields.Pairwise fun f g =>
    f.2.1 + f.2.2 ≤ g.2.1 ∨ g.2.1 + g.2.2 ≤ f.2.1 := by decide

theorem fields_within : ∀ f ∈ dhcpFields, f.2.1 + f.2.2 ≤ 236 := by decide

theorem codeOf_mem (h : codeOf name = some code) : (name, code) ∈ dhcpOptions := by
  obtain ⟨l₁, l₂, hsplit, -⟩ := List.lookup_eq_some_iff.mp h
  rw [hsplit]
  simp

/-- No two options have one code. -/
theorem codeOf_injective (h : codeOf name = some code)
    (h' : codeOf name' = some code) : name = name' := by
  have hchain : (dhcpOptions.map Prod.snd).Pairwise (· < ·) :=
    List.isChain_iff_pairwise.mp codes_increase
  have hnodup : (dhcpOptions.map Prod.snd).Nodup := hchain.imp Nat.ne_of_lt
  exact congrArg Prod.fst
    (List.inj_on_of_nodup_map hnodup (codeOf_mem h) (codeOf_mem h') rfl)

/-- An option that `SetOption` knows how to check. -/
def Settable (code : Nat) : Prop := (dhcpOptionsTypes[code]?.bind fieldsSpecs).isSome

theorem Settable.lt (h : Settable code) : code < 121 := by
  by_contra hle
  unfold Settable at h
  cases htype : dhcpOptionsTypes[code]? with
  | none =>
    rw [htype] at h
    cases h
  | some t =>
    have hmem : t ∈ dhcpOptionsTypes.drop 121 := by
      refine List.mem_of_getElem? (i := code - 121) ?_
      rw [List.getElem?_drop, show 121 + (code - 121) = code by omega, htype]
    rw [htype, Option.bind_some, types_unset t hmem] at h
    cases h

theorem nameOf_codeOf (h : codeOf name = some code) (hset : Settable code)
    (hname : name ≠ "nb_node_type") : nameOf code = name :=
  (names_agree (name, code) (codeOf_mem h) hset.lt).resolve_right hname

theorem codeOf_pad : codeOf "pad" = some 0 := rfl

/-- A code that is read has a name, and it is not one of two. -/
theorem nameOf_read (hpad : code ≠ 0) (htype : dhcpOptionsTypes[code]?.isSome) :
    nameOf code ≠ "pad" ∧ nameOf code ≠ "nb_node_type" := by
  have hcode : code < 246 := by
    obtain ⟨t, ht⟩ := Option.isSome_iff_exists.mp htype
    rw [← length_types]
    exact (List.getElem?_eq_some_iff.mp ht).1
  refine names_read _ (List.mem_of_getElem? (i := code - 1) ?_)
  have hlength := length_names
  rw [List.getElem?_drop, show 1 + (code - 1) = code by omega, nameOf, List.getD_eq_getElem?_getD,
    List.getElem?_eq_getElem (by omega), Option.getD_some]

/-! ## Packets that are built -/

/-- A new packet on which options were set and deleted. -/
inductive Built : Packet → Prop
  | new : Built .new
  | set {p q : Packet} {name : String} {value : List Nat} {b : Bool} :
      Built p → setOption p name value = .ok (q, b) → Built q
  | delete {p : Packet} (name : String) : Built p → Built (deleteOption p name)

/-- A full header with its cookie, and options that can be set. -/
structure WellFormed (p : Packet) : Prop where
  length : p.packetData.length = 240
  cookie : p.packetData.drop 236 = magicCookie
  settable : ∀ name value, p.optionsData.get? name = some value →
    ∃ code, codeOf name = some code ∧ Settable code

section Slices
variable {xs ys : List Nat} {first last : Nat}

theorem length_setSlice (hfirst : first ≤ last) (hlast : last ≤ xs.length)
    (hys : ys.length = last - first) : (setSlice xs first last ys).length = xs.length := by
  unfold setSlice
  rw [List.length_append, List.length_append, List.length_take, List.length_drop, hys]
  omega

/-- What is behind a slice stays. -/
theorem drop_setSlice {n : Nat} (hfirst : first ≤ last) (hlast : last ≤ xs.length)
    (hys : ys.length = last - first) (hn : last ≤ n) :
    (setSlice xs first last ys).drop n = xs.drop n := by
  unfold setSlice
  have hlength : (xs.take first ++ ys).length = last := by
    rw [List.length_append, List.length_take, hys]
    omega
  rw [List.drop_append, hlength, List.drop_of_length_le (by omega), List.nil_append,
    List.drop_drop]
  congr 1
  omega

end Slices

theorem field_mem {place size : Nat} (h : dhcpFields.lookup name = some (place, size)) :
    (name, place, size) ∈ dhcpFields := by
  obtain ⟨l₁, l₂, hsplit, -⟩ := List.lookup_eq_some_iff.mp h
  rw [hsplit]
  simp

theorem field_place {place size : Nat} (h : dhcpFields.lookup name = some (place, size)) :
    place + size ≤ 236 := by
  exact fields_within (name, place, size) (field_mem h)

theorem WellFormed.slice (h : WellFormed p) {place size : Nat}
    (hfield : dhcpFields.lookup name = some (place, size)) (hvalue : value.length = size) :
    WellFormed { p with packetData := setSlice p.packetData place (place + size) value } := by
  have hplace := field_place hfield
  have hlength := h.length
  refine ⟨?_, ?_, h.settable⟩
  · rw [length_setSlice (by omega) (by omega) (by omega), hlength]
  · rw [drop_setSlice (by omega) (by omega) (by omega) hplace, h.cookie]

theorem Built.wellFormed (h : Built p) : WellFormed p := by
  induction h with
  | new =>
    refine ⟨?_, List.drop_left' (List.length_replicate ..), nofun⟩
    rw [Packet.new, List.length_append, List.length_replicate]
    rfl
  | @delete p name _ ih =>
    unfold deleteOption
    split
    · rename_i place size hfield
      exact ih.slice hfield (List.length_replicate ..)
    · refine ⟨ih.length, ih.cookie, fun name' value hget => ?_⟩
      rw [Dict.get?_erase] at hget
      split at hget
      · cases hget
      · exact ih.settable name' value hget
  | @set p q name value b _ hset ih =>
    unfold setOption at hset
    split at hset
    · rename_i place size hfield
      split at hset
      · cases hset
        exact ih
      · rename_i hvalue
        cases hset
        exact ih.slice hfield (not_not.mp hvalue)
    · split at hset
      · cases hset
        exact ih
      · rename_i code hcode
        split at hset
        · cases hset
        · rename_i specs hspecs
          split at hset
          · cases hset
            refine ⟨ih.length, ih.cookie, fun name' value' hget => ?_⟩
            rw [Dict.get?_insert] at hget
            split at hget
            · rename_i hname
              rw [hname]
              exact ⟨code, hcode, by rw [Settable, hspecs]; rfl⟩
            · exact ih.settable name' value' hget
          · cases hset
            exact ih

/-! ## Getting what was set -/

/-- Two fields do not overlap. -/
theorem fields_disjoint {place size place' size' : Nat}
    (h : dhcpFields.lookup name = some (place, size))
    (h' : dhcpFields.lookup name' = some (place', size')) (hne : name ≠ name') :
    place + size ≤ place' ∨ place' + size' ≤ place := by
  have hsymm : Std.Symm fun f g : String × Nat × Nat =>
      f.2.1 + f.2.2 ≤ g.2.1 ∨ g.2.1 + g.2.2 ≤ f.2.1 := ⟨fun _ _ h => h.symm⟩
  exact fields_apart.forall (field_mem h) (field_mem h') fun heq => hne (congrArg Prod.fst heq)

/-- The header after a field of it was written. -/
theorem getOption_slice (h : WellFormed p) {place size : Nat}
    (hfield : dhcpFields.lookup name = some (place, size)) (hvalue : value.length = size)
    (name' : String) :
    getOption { p with packetData := setSlice p.packetData place (place + size) value } name' =
      if name' = name then value else getOption p name' := by
  have hplace := field_place hfield
  have hlength := h.length
  have htake : (p.packetData.take place).length = place := by
    rw [List.length_take]
    omega
  by_cases hname : name' = name
  · rw [if_pos hname, hname, getOption, hfield]
    dsimp only
    unfold setSlice
    rw [List.append_assoc, List.drop_left' htake, List.take_left' hvalue]
  · rw [if_neg hname]
    unfold getOption
    cases hfield' : dhcpFields.lookup name' with
    | none => rfl
    | some f =>
      obtain ⟨place', size'⟩ := f
      dsimp only
      rcases fields_disjoint hfield hfield' (Ne.symm hname) with hbehind | hbefore
      · rw [drop_setSlice (by omega) (by omega) (by omega) hbehind]
      · unfold setSlice
        rw [List.append_assoc, List.drop_append_of_le_length (by omega),
          List.take_append_of_le_length (by rw [List.length_drop]; omega), List.drop_take,
          List.take_take, Nat.min_eq_left (by omega)]

/-- What is set is got, and nothing else has changed. -/
theorem getOption_setOption (h : WellFormed p) (hset : setOption p name value = .ok (q, b))
    (name' : String) :
    getOption q name' = if b = true ∧ name' = name then value else getOption p name' := by
  unfold setOption at hset
  split at hset
  · rename_i place size hfield
    split at hset
    · cases hset
      simp
    · rename_i hvalue
      cases hset
      rw [getOption_slice h hfield (not_not.mp hvalue)]
      simp
  · rename_i hfield
    split at hset
    · cases hset
      simp
    · rename_i code hcode
      split at hset
      · cases hset
      · split at hset
        · cases hset
          unfold getOption
          by_cases hname : name' = name
          · rw [if_pos ⟨rfl, hname⟩, hname, hfield]
            dsimp only
            rw [Dict.get?_insert, if_pos rfl, Option.getD_some]
          · rw [if_neg fun h => hname h.2]
            split
            · rfl
            · rw [Dict.get?_insert, if_neg hname]
        · cases hset
          simp

theorem getOption_deleteOption (h : WellFormed p) (hname : name' ≠ name) :
    getOption (deleteOption p name) name' = getOption p name' := by
  unfold deleteOption
  split
  · rename_i place size hfield
    rw [getOption_slice h hfield (List.length_replicate ..), if_neg hname]
  · unfold getOption
    split
    · rfl
    · rw [Dict.get?_erase, if_neg hname]

/-- Only the option that is set can come into the dictionary. -/
theorem get?_setOption (hset : setOption p name value = .ok (q, b))
    (hname : name' ≠ name) : q.optionsData.get? name' = p.optionsData.get? name' := by
  unfold setOption at hset
  split at hset
  · split at hset
    · cases hset
      rfl
    · cases hset
      rfl
  · split at hset
    · cases hset
      rfl
    · split at hset
      · cases hset
      · split at hset
        · cases hset
          rw [Dict.get?_insert, if_neg hname]
        · cases hset
          rfl

theorem get?_deleteOption (h : p.optionsData.get? name' = none) :
    (deleteOption p name).optionsData.get? name' = none := by
  unfold deleteOption
  split
  · exact h
  · rw [Dict.get?_erase]
    split
    · rfl
    · exact h

/-! ## What is on the wire -/

/-- The options of a packet as records. -/
def records (p : Packet) : List Record :=
  p.optionsData.items.map fun o => ((codeOf o.1).getD 0, o.2)

theorem WellFormed.has_code (h : WellFormed p) {o : String × List Nat}
    (ho : o ∈ p.optionsData.items) :
    ∃ code, codeOf o.1 = some code ∧ Settable code :=
  h.settable o.1 o.2 (Dict.get?_eq_some_iff.mpr ho)

theorem coded_eq (h : WellFormed p) : coded p.optionsData.items = some (records p) := by
  have hall : ∀ items : List (String × List Nat), (∀ o ∈ items, ∃ code, codeOf o.1 = some code) →
      coded items = some (items.map fun o => ((codeOf o.1).getD 0, o.2)) := by
    intro items hitems
    induction items with
    | nil => rfl
    | cons o items ih =>
      obtain ⟨code, hcode⟩ := hitems o List.mem_cons_self
      have hrest := ih fun o' ho' => hitems o' (List.mem_cons_of_mem o ho')
      unfold coded at hrest ⊢
      rw [List.mapM_cons, hcode, hrest, List.map_cons, hcode]
      rfl
  exact hall _ fun o ho => (h.has_code ho).imp fun code hcode => hcode.1

theorem mem_records (h : WellFormed p) {r : Record} :
    r ∈ records p ↔ ∃ name, codeOf name = some r.1 ∧ p.optionsData.get? name = some r.2 := by
  unfold records
  rw [List.mem_map]
  constructor
  · rintro ⟨o, ho, rfl⟩
    obtain ⟨code, hcode, -⟩ := h.has_code ho
    refine ⟨o.1, ?_, Dict.get?_eq_some_iff.mpr ho⟩
    dsimp only
    rw [hcode, Option.getD_some]
  · rintro ⟨name, hcode, hget⟩
    refine ⟨(name, r.2), Dict.get?_eq_some_iff.mp hget, ?_⟩
    rw [hcode, Option.getD_some]

theorem nodup_records (h : WellFormed p) : ((records p).map Prod.fst).Nodup := by
  have hmap : (records p).map Prod.fst =
      (p.optionsData.items.map Prod.fst).map fun name => (codeOf name).getD 0 := by
    simp [records]
  rw [hmap]
  refine List.Nodup.map_on ?_ p.optionsData.nodup
  intro name hname name' hname' heq
  obtain ⟨o, ho, rfl⟩ := List.mem_map.mp hname
  obtain ⟨o', ho', rfl⟩ := List.mem_map.mp hname'
  obtain ⟨code, hcode, -⟩ := h.has_code ho
  obtain ⟨code', hcode', -⟩ := h.has_code ho'
  rw [hcode, hcode', Option.getD_some, Option.getD_some] at heq
  exact codeOf_injective hcode (heq ▸ hcode')

theorem mem_ordered {rs : List Record} (h : (rs.map Prod.fst).Nodup) {r : Record} :
    r ∈ ordered rs ↔ r ∈ rs := by
  unfold ordered
  rw [List.mem_insertionSort, ← Dict.get?_foldl_insert_iff h, Dict.get?_eq_some_iff]

theorem nodup_ordered (rs : List Record) : ((ordered rs).map Prod.fst).Nodup := by
  unfold ordered
  exact ((List.perm_insertionSort _ _).map Prod.fst).nodup_iff.mpr (Dict.nodup _)

theorem chr_ok {packet : List Nat} (h : chr packet = .ok data) :
    data.map UInt8.toNat = packet := by
  unfold chr at h
  split at h
  · rename_i hbytes
    cases h
    rw [List.map_map]
    refine (List.map_congr_left fun b hb => ?_).trans (List.map_id packet)
    have hlt : b < 256 := by simpa using List.all_eq_true.mp hbytes b hb
    simp only [Function.comp, id, UInt8.toNat_ofNat']
    exact Nat.mod_eq_of_lt hlt
  · cases h

theorem encodePacket_eq (h : WellFormed p) : encodePacket p =
    chr (p.packetData ++ write (ordered (records p)) ++ [255]) := by
  unfold encodePacket
  rw [coded_eq h, List.take_of_length_le (Nat.le_of_eq h.length)]

/-! ## What is read -/

/-- The reader has a name for the code. -/
def named (r : Record) : Bool := dhcpOptionsTypes[r.1]?.isSome

/-- The options in a datagram, as records. -/
def recordsIn (data : List UInt8) : List Record × End :=
  read 0 255 (afterCookie ((data.map UInt8.toNat).drop 236))

/-- The records with a name, under their names. -/
def underNames (rs : List Record) : List (String × List Nat) :=
  (rs.filter named).map fun r => (nameOf r.1, r.2)

theorem parseOptions_eq (fuel : Nat) (bytes : List Nat) (options : Dict String (List Nat)) :
    parseOptions fuel bytes options =
      if (readAux 0 255 fuel bytes).2 = .cut then .error .indexError
      else .ok ((underNames (readAux 0 255 fuel bytes).1).foldl
        (fun d o => d.insert o.1 o.2) options) := by
  induction fuel generalizing bytes options with
  | zero => rfl
  | succ fuel ih =>
    cases bytes with
    | nil => rfl
    | cons code rest =>
      unfold parseOptions readAux
      by_cases hpad : code = 0
      · rw [if_pos hpad, if_pos hpad, ih]
      · rw [if_neg hpad, if_neg hpad]
        by_cases hstop : code = 255
        · rw [if_pos hstop, if_pos hstop]
          rfl
        · rw [if_neg hstop, if_neg hstop]
          cases rest with
          | nil => rfl
          | cons size rest =>
            dsimp only
            by_cases hnamed : dhcpOptionsTypes[code]?.isSome
            · rw [if_pos hnamed, ih, underNames, underNames,
                List.filter_cons_of_pos (by exact hnamed), List.map_cons, List.foldl_cons]
            · rw [if_neg hnamed, ih, underNames, underNames,
                List.filter_cons_of_neg (by exact hnamed)]

theorem decodePacket_eq (data : List UInt8) : decodePacket data =
    if (recordsIn data).2 = .cut then .error .indexError
    else .ok ⟨(data.map UInt8.toNat).take 240,
      (underNames (recordsIn data).1).foldl (fun d o => d.insert o.1 o.2) .empty⟩ := by
  unfold decodePacket
  dsimp only
  rw [parseOptions_eq]
  unfold recordsIn Tlv.read
  split <;> rfl

/-! ## Round trip -/

theorem afterCookie_cookie (rest : List Nat) : afterCookie (magicCookie ++ rest) = rest := rfl

theorem bytes_encoded (h : WellFormed p) (henc : encodePacket p = .ok data) :
    data.map UInt8.toNat = p.packetData ++ (write (ordered (records p)) ++ [255]) := by
  rw [encodePacket_eq h] at henc
  rw [chr_ok henc, List.append_assoc]

theorem recordsIn_encoded (h : WellFormed p) (henc : encodePacket p = .ok data)
    (hpad : p.optionsData.get? "pad" = none) :
    recordsIn data = (ordered (records p), .stopped) := by
  unfold recordsIn
  rw [bytes_encoded h henc, List.drop_append_of_le_length (by rw [h.length]; decide), h.cookie,
    afterCookie_cookie]
  refine read_write (by decide) fun r hr => ?_
  obtain ⟨name, hcode, hget⟩ := (mem_records h).mp ((mem_ordered (nodup_records h)).mp hr)
  obtain ⟨code, hcode', hset⟩ := h.settable name r.2 hget
  obtain rfl := Option.some.inj (hcode.symm.trans hcode')
  refine ⟨fun hzero => ?_, Nat.ne_of_lt (Nat.lt_trans hset.lt (by decide))⟩
  rw [hzero] at hcode
  rw [codeOf_injective hcode codeOf_pad, hpad] at hget
  cases hget

/-- What is read under the names of two options is never one of these. -/
theorem not_mem_underNames {rs : List Record} (hpad : ∀ r ∈ rs, r.1 ≠ 0)
    {o : String × List Nat} (ho : o ∈ underNames rs) : o.1 ≠ "pad" ∧ o.1 ≠ "nb_node_type" := by
  obtain ⟨r, hr, rfl⟩ := List.mem_map.mp ho
  obtain ⟨hmem, hnamed⟩ := List.mem_filter.mp hr
  exact nameOf_read (hpad r hmem) hnamed

theorem decoded_unnamed (hdecode : decodePacket data = .ok q) :
    q.optionsData.get? "pad" = none ∧ q.optionsData.get? "nb_node_type" = none := by
  rw [decodePacket_eq] at hdecode
  split at hdecode
  · cases hdecode
  · cases hdecode
    have hkeys : ∀ name value,
        Dict.lookup (underNames (recordsIn data).1).reverse name = some value →
          name ≠ "pad" ∧ name ≠ "nb_node_type" := by
      intro name value hlookup
      have hmem := List.mem_reverse.mp (Dict.lookup_eq_some hlookup)
      exact not_mem_underNames (fun r hr => (tag_of_mem_readAux hr).1) hmem
    constructor
    · rw [Dict.get?_foldl_insert, Dict.get?_empty, Option.or_none]
      cases hlookup : Dict.lookup (underNames (recordsIn data).1).reverse "pad" with
      | none => rfl
      | some value => exact absurd rfl (hkeys _ _ hlookup).1
    · rw [Dict.get?_foldl_insert, Dict.get?_empty, Option.or_none]
      cases hlookup : Dict.lookup (underNames (recordsIn data).1).reverse "nb_node_type" with
      | none => rfl
      | some value => exact absurd rfl (hkeys _ _ hlookup).2

/-- A record that was written is read under the name it was set under. -/
theorem name_of_mem (h : WellFormed p) (hnode : p.optionsData.get? "nb_node_type" = none)
    {r : Record} (hr : r ∈ ordered (records p)) :
    codeOf (nameOf r.1) = some r.1 ∧ p.optionsData.get? (nameOf r.1) = some r.2 := by
  obtain ⟨name, hcode, hget⟩ := (mem_records h).mp ((mem_ordered (nodup_records h)).mp hr)
  obtain ⟨code, hcode', hset⟩ := h.settable name r.2 hget
  obtain rfl := Option.some.inj (hcode.symm.trans hcode')
  have hname : nameOf r.1 = name := nameOf_codeOf hcode hset fun heq => by
    rw [heq, hnode] at hget
    cases hget
  rw [hname]
  exact ⟨hcode, hget⟩

theorem mem_underNames_encoded (h : WellFormed p)
    (hnode : p.optionsData.get? "nb_node_type" = none) (name : String) (value : List Nat) :
    (name, value) ∈ underNames (ordered (records p)) ↔ p.optionsData.get? name = some value := by
  constructor
  · intro hmem
    obtain ⟨r, hr, heq⟩ := List.mem_map.mp hmem
    have hget := (name_of_mem h hnode (List.mem_filter.mp hr).1).2
    cases heq
    exact hget
  · intro hget
    obtain ⟨code, hcode, hset⟩ := h.settable name value hget
    have hmem : (code, value) ∈ ordered (records p) :=
      (mem_ordered (nodup_records h)).mpr ((mem_records h).mpr ⟨name, hcode, hget⟩)
    have hname : nameOf code = name :=
      codeOf_injective (name_of_mem h hnode hmem).1 hcode
    refine List.mem_map.mpr ⟨(code, value), List.mem_filter.mpr ⟨hmem, ?_⟩, by rw [hname]⟩
    · unfold Settable at hset
      unfold named
      dsimp only
      cases htype : dhcpOptionsTypes[code]? with
      | none =>
        rw [htype] at hset
        cases hset
      | some t => rfl

theorem nodup_underNames_encoded (h : WellFormed p)
    (hnode : p.optionsData.get? "nb_node_type" = none) :
    ((underNames (ordered (records p))).map Prod.fst).Nodup := by
  have hnames : (underNames (ordered (records p))).map Prod.fst =
      (((ordered (records p)).filter named).map Prod.fst).map nameOf := by
    simp [underNames]
  rw [hnames]
  refine List.Nodup.map_on ?_ ((nodup_ordered _).sublist (List.filter_sublist.map Prod.fst))
  intro code hcode code' hcode' heq
  obtain ⟨r, hr, rfl⟩ := List.mem_map.mp hcode
  obtain ⟨r', hr', rfl⟩ := List.mem_map.mp hcode'
  have hread := (name_of_mem h hnode (List.mem_filter.mp hr).1).1
  have hread' := (name_of_mem h hnode (List.mem_filter.mp hr').1).1
  rw [heq] at hread
  exact Option.some.inj (hread.symm.trans hread')

/-- Same header, and the same under every name. -/
def Same (p q : Packet) : Prop :=
  q.packetData = p.packetData ∧ ∀ name, q.optionsData.get? name = p.optionsData.get? name

theorem decode_encode (h : WellFormed p) (henc : encodePacket p = .ok data)
    (hpad : p.optionsData.get? "pad" = none)
    (hnode : p.optionsData.get? "nb_node_type" = none) :
    ∃ q, decodePacket data = .ok q ∧ Same p q := by
  rw [decodePacket_eq, recordsIn_encoded h henc hpad, if_neg (nofun : End.stopped ≠ .cut)]
  refine ⟨_, rfl, ?_, fun name => ?_⟩
  · dsimp only
    rw [bytes_encoded h henc, List.take_left' h.length]
  · ext value
    rw [Dict.get?_foldl_insert_iff (nodup_underNames_encoded h hnode)]
    exact mem_underNames_encoded h hnode name value

/-- A packet that was built and can be encoded is read back as it was if and only if neither
`pad` nor `nb_node_type` is set. -/
theorem decode_encode_iff (h : Built p) (henc : encodePacket p = .ok data) :
    (∃ q, decodePacket data = .ok q ∧ Same p q) ↔
      p.optionsData.get? "pad" = none ∧ p.optionsData.get? "nb_node_type" = none := by
  constructor
  · rintro ⟨q, hdecode, -, hoptions⟩
    rw [← hoptions, ← hoptions]
    exact decoded_unnamed hdecode
  · rintro ⟨hpad, hnode⟩
    exact decode_encode h.wellFormed henc hpad hnode

/-- A packet with a router. -/
def routerPacket : Packet :=
  { Packet.new with optionsData := Dict.empty.insert "router" [10, 0, 0, 1] }

theorem built_routerPacket : Built routerPacket := by
  have hset : setOption .new "router" [10, 0, 0, 1] = .ok (routerPacket, true) := by
    have hfield : dhcpFields.lookup "router" = none := rfl
    have hcode : codeOf "router" = some 3 := rfl
    have hspecs : dhcpOptionsTypes[3]?.bind fieldsSpecs = some (0, 4, 4) := rfl
    unfold setOption
    rw [hfield, hcode]
    dsimp only
    rw [hspecs]
    rfl
  exact Built.new.set hset

theorem decode_encode_router :
    (∃ q, decodePacket (List.replicate 236 0 ++ [99, 130, 83, 99, 3, 4, 10, 0, 0, 1, 255]) = .ok q ∧
      Same routerPacket q) ↔
      routerPacket.optionsData.get? "pad" = none ∧
        routerPacket.optionsData.get? "nb_node_type" = none :=
  decode_encode_iff built_routerPacket (by decide +kernel)

end LoPhi.Pxe.Codec
