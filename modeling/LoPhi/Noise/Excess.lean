import Mathlib.Data.List.Dedup
import LoPhi.Noise.Threshold
import LoPhi.Noise.Training

/-! # What is more than the filter counted

For a special plugin `apply_filter` is to keep the entries with a key when there are more of them
than any analysis had. It counts them in a set, where the same entry twice is one, while
`add_special_plugin` counts them in a list. -/

namespace LoPhi.Noise.Excess
open LoPhi.Lib LoPhi.Noise.Memory LoPhi.Noise.Training

/-! ## One category -/

section Counts
variable (key : Entry → Option Key) (filters : List FilterEntry)

/-- How many entries have a key, as `add_special_plugin` counts them. -/
def countKey (entries : List Entry) (k : Key) : Nat := entries.countP fun e => key e = some k

/-- There are more entries with the key of this one than the filter has for it. -/
def Exceeds (entries : List Entry) (entry : Entry) : Prop :=
  ∀ k, key entry = some k → ∀ c, .counted k c ∈ filters → c < countKey key entries k

/-- The entries that exceed the filter are kept as often as they occur, and no others. -/
def KeepsExcess (entries result : List Entry) : Prop :=
  ∀ entry, (Exceeds key filters entries entry → result.count entry = entries.count entry) ∧
    (¬ Exceeds key filters entries entry → result.count entry = 0)

/-- `apply_filter` can go through the list: it has strings only, and as soon as the filter has
anything, the filter has pairs only and every string has a key. -/
structure Readable (entries : List Entry) : Prop where
  text : ∀ entry ∈ entries, ∃ s, entry = .text s
  pairs : filters ≠ [] → ∀ f ∈ filters, ∃ k c, f = .counted k c
  keyed : filters ≠ [] → ∀ entry ∈ entries, (key entry).isSome

/-- What is repeated does not exceed the filter. -/
def RepeatsKnown (entries : List Entry) : Prop :=
  ∀ entry, 1 < entries.count entry →
    ∃ k c, key entry = some k ∧ .counted k c ∈ filters ∧ countKey key entries k ≤ c

variable {key filters} {entries result : List Entry} {set : List Str}

theorem not_exceeds_iff {entry : Entry} :
    ¬ Exceeds key filters entries entry ↔
      ∃ k c, key entry = some k ∧ .counted k c ∈ filters ∧ countKey key entries k ≤ c := by
  unfold Exceeds
  push Not
  constructor
  · rintro ⟨k, hk, c, hmem, hle⟩
    exact ⟨k, c, hk, hmem, by omega⟩
  · rintro ⟨k, c, hk, hmem, hle⟩
    exact ⟨k, hk, c, hmem, by omega⟩

/-! ### Sets -/

theorem toSet_spec (h : toSet entries = some set) :
    set.Nodup ∧ ∀ s, s ∈ set ↔ .text s ∈ entries := by
  induction entries generalizing set with
  | nil =>
    cases h
    simp
  | cons entry entries ih =>
    cases entry with
    | list parts => cases h
    | text t =>
      unfold toSet at h
      split at h
      · cases h
      · rename_i rest hrest
        cases h
        obtain ⟨hnodup, hmem⟩ := ih hrest
        refine ⟨hnodup.insert, fun s => ?_⟩
        rw [List.mem_insert_iff, List.mem_cons, hmem, Entry.text.injEq]

/-- A set is the list without what is repeated. -/
theorem toSet_perm (h : toSet entries = some set) : (set.map Entry.text).Perm entries.dedup := by
  obtain ⟨hnodup, hmem⟩ := toSet_spec h
  have htext := (isSome_toSet entries).mp (Option.isSome_iff_exists.mpr ⟨set, h⟩)
  have hinj : Function.Injective Entry.text := fun s t heq => Entry.text.inj heq
  refine (List.perm_ext_iff_of_nodup (hnodup.map hinj) entries.nodup_dedup).mpr fun entry => ?_
  rw [List.mem_dedup, List.mem_map]
  constructor
  · rintro ⟨s, hs, rfl⟩
    exact (hmem s).mp hs
  · intro hin
    obtain ⟨s, rfl⟩ := htext entry hin
    exact ⟨s, (hmem s).mpr hin, rfl⟩

/-- The list has as many entries with a key as the set exactly if none of them is repeated. -/
theorem countKey_dedup_le (k : Key) : countKey key entries.dedup k ≤ countKey key entries k :=
  (List.dedup_sublist entries).countP_le

theorem countKey_dedup_eq {k : Key} (h : ∀ entry, key entry = some k → entries.count entry ≤ 1) :
    countKey key entries.dedup k = countKey key entries k := by
  have hnodup : (entries.filter fun e => key e = some k).Nodup := by
    refine List.nodup_iff_count_le_one.mpr fun entry => ?_
    by_cases hk : key entry = some k
    · exact Nat.le_trans (List.filter_sublist.count_le entry) (h entry hk)
    · rw [List.count_eq_zero_of_not_mem fun hmem => hk (by simpa using (List.mem_filter.mp hmem).2)]
      omega
  unfold countKey
  rw [List.countP_eq_length_filter, List.countP_eq_length_filter]
  refine List.Perm.length_eq ((List.perm_ext_iff_of_nodup
    (entries.nodup_dedup.filter _) hnodup).mpr fun entry => ?_)
  rw [List.mem_filter, List.mem_filter, List.mem_dedup]

/-! ### The loop over the filter -/

theorem isSome_partitionKey (key : Entry → Option Key) (k : Key) (set : List Str) :
    (partitionKey key k set).isSome ↔ ∀ s ∈ set, (key (.text s)).isSome := by
  refine ⟨fun h => ?_, fun h => by rw [partitionKey_eq h]; rfl⟩
  induction set with
  | nil => simp
  | cons s set ih =>
    rw [List.forall_mem_cons]
    unfold partitionKey at h
    split at h
    · rename_i k' same others hk' hrest
      exact ⟨by rw [hk']; rfl, ih (by rw [hrest]; rfl)⟩
    · cases h

theorem isSome_filterSpecial (key : Entry → Option Key) (filters : List FilterEntry)
    (set : List Str) :
    (filterSpecial key filters set).isSome ↔ filters = [] ∨
      ((∀ f ∈ filters, ∃ k c, f = .counted k c) ∧ ∀ s ∈ set, (key (.text s)).isSome) := by
  induction filters generalizing set with
  | nil => simp [filterSpecial]
  | cons f filters ih =>
    rw [List.forall_mem_cons]
    cases f with
    | plain s => simp [filterSpecial]
    | counted k c =>
      unfold filterSpecial
      have hcounted : ∃ k' c', FilterEntry.counted k c = .counted k' c' := ⟨k, c, rfl⟩
      simp only [hcounted, true_and, reduceCtorEq, false_or]
      by_cases hkeyed : ∀ s ∈ set, (key (.text s)).isSome
      · rw [partitionKey_eq hkeyed]
        dsimp only
        rw [ih]
        have hless : ∀ s ∈ (if (set.filter fun s => key (.text s) = some k).length ≤ c
            then set.filter fun s => key (.text s) ≠ some k else set), (key (.text s)).isSome := by
          intro s hs
          split at hs
          · exact hkeyed s (List.mem_of_mem_filter hs)
          · exact hkeyed s hs
        constructor
        · rintro (rfl | ⟨h, -⟩)
          · exact ⟨by simp, hkeyed⟩
          · exact ⟨h, hkeyed⟩
        · rintro ⟨h, -⟩
          exact .inr ⟨h, hless⟩
      · have hnone : partitionKey key k set = none := by
          rw [← Option.not_isSome_iff_eq_none, isSome_partitionKey]
          exact hkeyed
        rw [hnone]
        simp [hkeyed]

/-- What is left of a set: the strings of which there are more, with the same key, than any
count of the filter. -/
theorem filterSpecial_spec (hpairs : ∀ f ∈ filters, ∃ k c, f = .counted k c)
    (hkeyed : ∀ s ∈ set, (key (.text s)).isSome) :
    ∃ left, filterSpecial key filters set = some left ∧ left.Sublist set ∧
      ∀ s ∈ set, s ∈ left ↔ ∀ k, key (.text s) = some k → ∀ c, .counted k c ∈ filters →
        c < set.countP fun t => key (.text t) = some k := by
  induction filters generalizing set with
  | nil => exact ⟨set, rfl, .refl set, fun s hs => by simp [hs]⟩
  | cons f filters ih =>
    rw [List.forall_mem_cons] at hpairs
    obtain ⟨⟨k, c, rfl⟩, hrest⟩ := hpairs
    unfold filterSpecial
    rw [partitionKey_eq hkeyed k]
    dsimp only
    rw [← List.countP_eq_length_filter]
    split
    · -- The strings with the key go, which leaves the counts of the other keys as they are.
      rename_i henough
      obtain ⟨left, hleft, hsub, hmem⟩ := @ih (set.filter fun s => key (.text s) ≠ some k) hrest
        fun s hs => hkeyed s (List.mem_of_mem_filter hs)
      refine ⟨left, hleft, hsub.trans List.filter_sublist, fun s hs => ?_⟩
      by_cases hk : key (.text s) = some k
      · constructor
        · intro hin
          have hother := (List.mem_filter.mp (hsub.subset hin)).2
          simp [hk] at hother
        · intro h
          exact absurd (h k hk c List.mem_cons_self) (Nat.not_lt.mpr henough)
      · rw [hmem s (List.mem_filter.mpr ⟨hs, by simpa using hk⟩)]
        refine forall_congr' fun k' => forall_congr' fun hk' => forall_congr' fun c' => ?_
        have hne : k' ≠ k := fun heq => hk (heq ▸ hk')
        have hcount : ((set.filter fun t => key (.text t) ≠ some k).countP
            fun t => key (.text t) = some k') = set.countP fun t => key (.text t) = some k' := by
          rw [List.countP_filter]
          refine List.countP_congr fun t _ => ?_
          by_cases ht : key (.text t) = some k'
          · simp [ht, hne]
          · simp [ht]
        rw [hcount, List.mem_cons]
        simp [hne]
    · -- There are more than this count, so that it changes nothing.
      rename_i hmore
      obtain ⟨left, hleft, hsub, hmem⟩ := ih hrest hkeyed
      refine ⟨left, hleft, hsub, fun s hs => ?_⟩
      rw [hmem s hs]
      constructor
      · intro h k' hk' c' hc'
        obtain heq | hin := List.mem_cons.mp hc'
        · cases heq
          exact Nat.not_le.mp hmore
        · exact h k' hk' c' hin
      · intro h k' hk' c' hc'
        exact h k' hk' c' (List.mem_cons_of_mem _ hc')

end Counts

/-! ### `apply_filter` of one category -/

/-- What the filter has counted in a category. -/
def filtersOf (d : Dict FilterEntry Nat) : List FilterEntry := d.items.map Prod.fst

section Category
variable {setting : Setting} {plugin : Str} {key : Entry → Option Key} {d : Dict FilterEntry Nat}
  {entries result : List Entry}

theorem perm_filters (order : Order) (d : Dict FilterEntry Nat) :
    ((order.iter d.items).map Prod.fst).Perm (filtersOf d) :=
  (order.perm d.items).map Prod.fst

theorem countKey_toSet {set : List Str} (h : toSet entries = some set) (k : Key) :
    (set.countP fun t => key (.text t) = some k) = countKey key entries.dedup k := by
  unfold countKey
  rw [← (toSet_perm h).countP_eq, List.countP_map]
  rfl

variable (hkey : keyOf setting.tcpStates plugin = some key)
include hkey

theorem applyCategory_special :
    applyCategory setting plugin d entries = (toSet entries).bind fun set =>
      (filterSpecial key ((setting.order.iter d.items).map Prod.fst) set).map
        (List.map Entry.text) := by
  unfold applyCategory
  cases toSet entries with
  | none => rfl
  | some set =>
    rw [hkey]
    dsimp only
    rw [Option.bind_some]
    cases filterSpecial key ((setting.order.iter d.items).map Prod.fst) set with
    | none => rfl
    | some left => rfl

/-- What is left: every entry once, if there are enough different ones with its key. -/
theorem applyCategory_spec (hread : Readable key (filtersOf d) entries) :
    ∃ result, applyCategory setting plugin d entries = some result ∧ result.Nodup ∧
      ∀ entry, entry ∈ result ↔
        entry ∈ entries ∧ Exceeds key (filtersOf d) entries.dedup entry := by
  obtain ⟨set, hset⟩ := Option.isSome_iff_exists.mp ((isSome_toSet entries).mpr hread.text)
  obtain ⟨hnodup, hmemset⟩ := toSet_spec hset
  have hperm := perm_filters setting.order d
  have hinj : Function.Injective Entry.text := fun s t heq => Entry.text.inj heq
  have hleft : ∃ left, filterSpecial key ((setting.order.iter d.items).map Prod.fst) set =
      some left ∧ left.Sublist set ∧
        ∀ s ∈ set, s ∈ left ↔ Exceeds key (filtersOf d) entries.dedup (.text s) := by
    by_cases hnil : filtersOf d = []
    · rw [hnil] at hperm
      rw [hperm.eq_nil]
      refine ⟨set, rfl, .refl set, fun s hs => ⟨fun _ k _ c hc => ?_, fun _ => hs⟩⟩
      rw [hnil] at hc
      cases hc
    · obtain ⟨left, hsome, hsub, hmem⟩ := filterSpecial_spec
        (fun f hf => hread.pairs hnil f (hperm.mem_iff.mp hf))
        (fun s hs => hread.keyed hnil _ ((hmemset s).mp hs))
      refine ⟨left, hsome, hsub, fun s hs => ?_⟩
      rw [hmem s hs]
      simp only [hperm.mem_iff, countKey_toSet hset]
      rfl
  obtain ⟨left, hsome, hsub, hmem⟩ := hleft
  refine ⟨left.map .text, ?_, (hsub.nodup hnodup).map hinj, fun entry => ?_⟩
  · rw [applyCategory_special hkey, hset, Option.bind_some, hsome]
    rfl
  · rw [List.mem_map]
    constructor
    · rintro ⟨s, hs, rfl⟩
      exact ⟨(hmemset s).mp (hsub.subset hs), (hmem s (hsub.subset hs)).mp hs⟩
    · rintro ⟨hin, hexceeds⟩
      obtain ⟨s, rfl⟩ := hread.text entry hin
      exact ⟨s, (hmem s ((hmemset s).mpr hin)).mpr hexceeds, rfl⟩

theorem readable_of_applyCategory (h : applyCategory setting plugin d entries = some result) :
    Readable key (filtersOf d) entries := by
  rw [applyCategory_special hkey] at h
  obtain ⟨set, hset, hfilter⟩ := Option.bind_eq_some_iff.mp h
  obtain ⟨left, hleft, -⟩ := Option.map_eq_some_iff.mp hfilter
  obtain ⟨-, hmemset⟩ := toSet_spec hset
  have htext := (isSome_toSet entries).mp (Option.isSome_iff_exists.mpr ⟨set, hset⟩)
  have hperm := perm_filters setting.order d
  have hgone := (isSome_filterSpecial _ _ _).mp (Option.isSome_iff_exists.mpr ⟨left, hleft⟩)
  have hboth : filtersOf d ≠ [] → (∀ f ∈ filtersOf d, ∃ k c, f = .counted k c) ∧
      ∀ s ∈ set, (key (.text s)).isSome := by
    intro hne
    obtain ⟨hpairs, hkeyed⟩ := hgone.resolve_left fun hnil => hne (by
      rw [hnil] at hperm
      exact hperm.symm.eq_nil)
    exact ⟨fun f hf => hpairs f (hperm.mem_iff.mpr hf), hkeyed⟩
  refine ⟨htext, fun hne => (hboth hne).1, fun hne entry hin => ?_⟩
  obtain ⟨s, rfl⟩ := htext entry hin
  exact (hboth hne).2 s ((hmemset s).mpr hin)

end Category

/-! ### A list that is read -/

section Kept
variable {key : Entry → Option Key} {filters : List FilterEntry} {entries result : List Entry}
  (hnodup : result.Nodup)
  (hmem : ∀ entry, entry ∈ result ↔ entry ∈ entries ∧ Exceeds key filters entries.dedup entry)
include hnodup hmem

/-- The excess is kept exactly if nothing that is repeated exceeds the filter. -/
theorem keepsExcess_iff : KeepsExcess key filters entries result ↔
    RepeatsKnown key filters entries := by
  constructor
  · intro h entry hrepeat
    rw [← not_exceeds_iff]
    intro hexceeds
    have hcount := (h entry).1 hexceeds
    have hone := List.nodup_iff_count_le_one.mp hnodup entry
    omega
  · intro h entry
    have hsame : Exceeds key filters entries entry ↔
        Exceeds key filters entries.dedup entry := by
      constructor
      · intro hexceeds k hk c hc
        rw [countKey_dedup_eq]
        · exact hexceeds k hk c hc
        · -- Another entry with this key exceeds the filter too, and so is not repeated.
          intro other hother
          by_contra hrepeat
          obtain ⟨k', c', hk', hc', hle⟩ := h other (Nat.lt_of_not_le hrepeat)
          rw [hother, Option.some.injEq] at hk'
          subst hk'
          exact Nat.not_lt.mpr hle (hexceeds k hk c' hc')
      · intro hexceeds k hk c hc
        exact Nat.lt_of_lt_of_le (hexceeds k hk c hc) (countKey_dedup_le k)
    constructor
    · intro hexceeds
      by_cases hin : entry ∈ entries
      · have hone : entries.count entry ≤ 1 := by
          by_contra hrepeat
          exact not_exceeds_iff.mpr (h entry (Nat.lt_of_not_le hrepeat)) hexceeds
        rw [List.count_eq_one_of_mem hnodup ((hmem entry).mpr ⟨hin, hsame.mp hexceeds⟩)]
        have hpos := List.count_pos_iff.mpr hin
        omega
      · rw [List.count_eq_zero_of_not_mem hin, List.count_eq_zero_of_not_mem fun hresult =>
          hin ((hmem entry).mp hresult).1]
    · intro hfew
      refine List.count_eq_zero_of_not_mem fun hresult => hfew ?_
      exact hsame.mpr ((hmem entry).mp hresult).2

omit hnodup in
/-- What is left exceeds the filter again. -/
theorem exceeds_again {entry : Entry} (hin : entry ∈ result) :
    Exceeds key filters result.dedup entry := by
  intro k hk c hc
  have hcount : countKey key result.dedup k = countKey key entries.dedup k := by
    unfold countKey
    rw [List.countP_eq_length_filter, List.countP_eq_length_filter]
    refine List.Perm.length_eq ((List.perm_ext_iff_of_nodup (result.nodup_dedup.filter _)
      (entries.nodup_dedup.filter _)).mpr fun other => ?_)
    simp only [List.mem_filter, List.mem_dedup, decide_eq_true_eq]
    refine and_congr_left fun hother => ?_
    rw [hmem]
    refine and_iff_left_of_imp fun _ k' hk' => ?_
    obtain rfl : k = k' := Option.some.inj (hother.symm.trans hk')
    exact ((hmem entry).mp hin).2 k hk
  rw [hcount]
  exact ((hmem entry).mp hin).2 k hk c hc

end Kept

/-! ## `apply_filter` -/

/-- The results of one category of one plugin. -/
def alone (plugin category : Str) (entries : List Entry) : Analysis :=
  .single plugin (.categories (.single category entries))

/-- The filter keeps exactly the excess of a list, whatever the order in which it is gone through,
and a second application changes nothing. -/
def FiltersExcess (setting : Setting) (f : MemoryFilter) (plugin category : Str)
    (key : Entry → Option Key) (filters : List FilterEntry) (entries : List Entry) : Prop :=
  ∃ result, applyFilter setting f (alone plugin category entries) =
      some (alone plugin category result) ∧
    KeepsExcess key filters entries result ∧
    (∀ order, ∃ other, applyFilter { setting with order := order } f
      (alone plugin category entries) = some (alone plugin category other) ∧
        other.Perm result) ∧
    ∃ again, applyFilter setting f (alone plugin category result) =
      some (alone plugin category again) ∧ again.Perm result

section Apply
variable {setting : Setting} {f : MemoryFilter} {plugin category : Str} {d : Dict FilterEntry Nat}
  {key : Entry → Option Key}

/-- The category of an analysis is filtered as if it were alone. -/
theorem applyKnown_category {known : Dict Str (Dict FilterEntry Nat)}
    (hknown : f.occurrencesDict.get? plugin = some known)
    (hd : f.category plugin category = some d) (entries : List Entry) :
    applyKnown setting plugin known category entries = applyCategory setting plugin d entries := by
  unfold MemoryFilter.category at hd
  rw [hknown, Option.bind_some] at hd
  unfold applyKnown
  rw [hd]

theorem applyFilter_alone (hd : f.category plugin category = some d) (entries : List Entry) :
    applyFilter setting f (alone plugin category entries) =
      (applyCategory setting plugin d entries).map (alone plugin category) := by
  obtain ⟨known, hknown, -⟩ := Option.bind_eq_some_iff.mp hd
  unfold applyFilter alone
  rw [Dict.traverse_single, hknown]
  dsimp only
  rw [applyPlugin_categories, Dict.traverse_single, applyKnown_category hknown hd]
  cases applyCategory setting plugin d entries with
  | none => rfl
  | some result => rfl

end Apply

/-! ## Two processes of one name -/

section Processes
open LoPhi.Noise.Threshold (firstProcess secondProcess svchost)

/-- One process of the name was counted, in one analysis. -/
def counts : Dict FilterEntry Nat := .single (.counted svchost 1) 1

def onceFilter : MemoryFilter :=
  ⟨.single "psscan".toList (.single "Added Entries".toList counts), 1⟩

theorem category_onceFilter :
    onceFilter.category "psscan".toList "Added Entries".toList = some counts := rfl

end Processes

end LoPhi.Noise.Excess
