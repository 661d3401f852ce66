import LoPhi.Noise.Memory

/-! # The disk noise filter

`DiskFilter` of `analysis_filter.py` counts in how many analyses of the same system each disk
event occurred, and takes the common events out of the results of another one. An event is an
operation, the name of a file and its inode; results may also be compared without the inodes. -/

namespace LoPhi.Noise.Disk
open LoPhi.Lib
open LoPhi.Noise.Memory (Order)

/-- `(operation, filename, inode)`. -/
structure Event (Op Name Inode : Type) where
  opType : Op
  filename : Name
  inode : Inode
  deriving DecidableEq, Repr

variable {Op Name Inode V W : Type} [DecidableEq Op] [DecidableEq Name] [DecidableEq Inode]

/-- An event without its inode. -/
def Event.noInode (event : Event Op Name Inode) : Op × Name := (event.opType, event.filename)

structure DiskFilter (Op Name Inode : Type) where
  occurrencesDict : Dict (Event Op Name Inode) Nat
  numAnalyses : Nat

/-- A fresh filter. -/
def DiskFilter.initial : DiskFilter Op Name Inode := ⟨.empty, 0⟩

section Methods
variable (order : Order)

/-- The keys of a dictionary, as Python goes through them. -/
def keysOf {K V : Type} (d : Dict K V) : List K := (order.iter d.items).map Prod.fst

/-- `add_analysis`. -/
def addAnalysis (f : DiskFilter Op Name Inode) (results : Dict (Event Op Name Inode) V) :
    DiskFilter Op Name Inode where
  occurrencesDict := (keysOf order results).foldl Dict.bump f.occurrencesDict
  numAnalyses := f.numAnalyses + 1

/-- `events_to_remove` of `adjust_filter`. -/
def eventsToRemove (threshold : Int) (occurrences : Dict (Event Op Name Inode) Nat) :
    List (Event Op Name Inode) :=
  ((order.iter occurrences.items).filter fun p => p.2 < threshold).map Prod.fst

/-- `adjust_filter`. The share of analyses that is printed at the end, if any event is left, is
a division by their number. -/
def adjustFilter (threshold : Int) (f : DiskFilter Op Name Inode) :
    Option (DiskFilter Op Name Inode) :=
  if threshold < 0 ∨ f.numAnalyses < threshold then some f
  else
    let occurrences := (eventsToRemove order threshold f.occurrencesDict).foldl
      (fun d event => d.erase event) f.occurrencesDict
    if occurrences.items.length = 0 then some { f with occurrencesDict := occurrences }
    else if f.numAnalyses = 0 then none
    else some { f with occurrencesDict := occurrences }

/-- `occurrences_dict_no_inodes`. -/
def noInodes (occurrences : Dict (Event Op Name Inode) Nat) : Dict (Op × Name) Nat :=
  (order.iter occurrences.items).foldl (fun d p => d.insert p.1.noInode p.2) .empty

/-- `apply_filter`. The keys are listed before any of them is deleted. -/
def applyFilter (f : DiskFilter Op Name Inode) (results : Dict (Event Op Name Inode) W)
    (useInodes : Bool) : Dict (Event Op Name Inode) W :=
  if useInodes then
    (keysOf order results).foldl
      (fun d event => if (f.occurrencesDict.get? event).isSome then d.erase event else d) results
  else
    let known := noInodes order f.occurrencesDict
    (keysOf order results).foldl
      (fun d event => if (known.get? event.noInode).isSome then d.erase event else d) results

/-- One analysis after the other. -/
def addAll (analyses : List (Dict (Event Op Name Inode) V)) : DiskFilter Op Name Inode :=
  analyses.foldl (addAnalysis order) .initial

end Methods

/-! ## Training -/

/-- In how many analyses an event occurred. -/
def occurrences (analyses : List (Dict (Event Op Name Inode) V)) (event : Event Op Name Inode) :
    Nat :=
  analyses.countP fun results => (results.get? event).isSome

section Training
variable {order : Order}

theorem perm_keysOf {K V : Type} (d : Dict K V) :
    (keysOf order d).Perm (d.items.map Prod.fst) :=
  (order.perm d.items).map Prod.fst

theorem mem_keysOf {K V : Type} [DecidableEq K] {d : Dict K V} {k : K} :
    k ∈ keysOf order d ↔ (d.get? k).isSome := by
  rw [(perm_keysOf d).mem_iff, Option.isSome_iff_exists]
  simp [Dict.get?_eq_some_iff]

/-- Each event of an analysis is counted once. -/
theorem count_keysOf {K V : Type} [DecidableEq K] (d : Dict K V) (k : K) :
    (keysOf order d).count k = if (d.get? k).isSome then 1 else 0 := by
  have hnodup : (keysOf order d).Nodup := (perm_keysOf d).nodup_iff.mpr d.nodup
  split
  · rename_i hsome
    exact List.count_eq_one_of_mem hnodup (mem_keysOf.mpr hsome)
  · rename_i hnone
    exact List.count_eq_zero.mpr fun hmem => hnone (mem_keysOf.mp hmem)

theorem numAnalyses_addAll (analyses : List (Dict (Event Op Name Inode) V)) :
    (addAll order analyses).numAnalyses = analyses.length := by
  have hfold : ∀ f : DiskFilter Op Name Inode,
      (analyses.foldl (addAnalysis order) f).numAnalyses = f.numAnalyses + analyses.length := by
    induction analyses with
    | nil => exact fun f => rfl
    | cons results analyses ih =>
      intro f
      rw [List.foldl_cons, ih, List.length_cons]
      exact Nat.add_right_comm _ _ _
  rw [addAll, hfold]
  exact Nat.zero_add _

/-- The dictionary of a trained filter is one tally over all keys. -/
theorem occurrencesDict_addAll (analyses : List (Dict (Event Op Name Inode) V)) :
    (addAll order analyses).occurrencesDict = Dict.tally (analyses.flatMap (keysOf order)) := by
  have hfold : ∀ f : DiskFilter Op Name Inode,
      (analyses.foldl (addAnalysis order) f).occurrencesDict =
        (analyses.flatMap (keysOf order)).foldl Dict.bump f.occurrencesDict := by
    induction analyses with
    | nil => exact fun f => rfl
    | cons results analyses ih =>
      intro f
      rw [List.foldl_cons, ih, List.flatMap_cons, List.foldl_append]
      rfl
  exact hfold .initial

theorem count_flatMap_keysOf (analyses : List (Dict (Event Op Name Inode) V))
    (event : Event Op Name Inode) :
    (analyses.flatMap (keysOf order)).count event = occurrences analyses event := by
  induction analyses with
  | nil => rfl
  | cons results analyses ih =>
    rw [List.flatMap_cons, List.count_append, ih, count_keysOf, occurrences, occurrences,
      List.countP_cons, Nat.add_comm]

theorem mem_trained (analyses : List (Dict (Event Op Name Inode) V))
    {event : Event Op Name Inode} {n : Nat} :
    (event, n) ∈ (addAll order analyses).occurrencesDict.items ↔
      n = occurrences analyses event ∧ 0 < n := by
  rw [occurrencesDict_addAll, Dict.mem_tally, count_flatMap_keysOf]

end Training

/-! ## The threshold -/

section Threshold
variable {order : Order} {analyses : List (Dict (Event Op Name Inode) V)} {threshold : Int}

omit [DecidableEq Op] [DecidableEq Name] [DecidableEq Inode] in
theorem mem_eventsToRemove {occurrences : Dict (Event Op Name Inode) Nat}
    {event : Event Op Name Inode} :
    event ∈ eventsToRemove order threshold occurrences ↔
      ∃ n : Nat, (event, n) ∈ occurrences.items ∧ (n : Int) < threshold := by
  unfold eventsToRemove
  rw [List.mem_map]
  constructor
  · rintro ⟨⟨event, n⟩, hmem, rfl⟩
    obtain ⟨hmem, hn⟩ := List.mem_filter.mp hmem
    exact ⟨n, (order.perm _).mem_iff.mp hmem, of_decide_eq_true hn⟩
  · rintro ⟨n, hmem, hn⟩
    refine ⟨(event, n), List.mem_filter.mpr ⟨(order.perm _).mem_iff.mpr hmem, ?_⟩, rfl⟩
    exact decide_eq_true hn

/-- The events that a trained filter has after the adjustment. -/
theorem adjustFilter_trained (order : Order) (hn : analyses ≠ []) (h0 : 0 ≤ threshold)
    (hle : threshold ≤ analyses.length) :
    ∃ f, adjustFilter order threshold (addAll order analyses) = some f ∧
      ∀ event, (f.occurrencesDict.get? event).isSome ↔
        max threshold 1 ≤ occurrences analyses event := by
  have hnum : (addAll order analyses).numAnalyses = analyses.length := numAnalyses_addAll analyses
  have hpos : analyses.length ≠ 0 := fun hzero => hn (List.length_eq_zero_iff.mp hzero)
  refine ⟨⟨(eventsToRemove order threshold (addAll order analyses).occurrencesDict).foldl
    (fun d event => d.erase event) (addAll order analyses).occurrencesDict,
    (addAll order analyses).numAnalyses⟩, ?_, fun event => ?_⟩
  · unfold adjustFilter
    rw [if_neg (by omega), hnum]
    dsimp only
    rw [if_neg hpos, ite_self]
  · simp only [Option.isSome_iff_exists, Dict.get?_eq_some_iff, Dict.items_foldl_erase,
      List.mem_filter, mem_eventsToRemove, mem_trained, decide_eq_true_eq]
    constructor
    · rintro ⟨n, ⟨rfl, hpos⟩, hkept⟩
      by_contra hless
      exact hkept ⟨_, ⟨rfl, hpos⟩, by omega⟩
    · intro hmax
      refine ⟨_, ⟨rfl, by omega⟩, ?_⟩
      rintro ⟨n, ⟨rfl, -⟩, hless⟩
      omega

end Threshold

/-! ## Application -/

section Application
variable {order : Order}

/-- The keys of a dictionary that pass a test are deleted from it. -/
theorem items_erase_if {K : Type} [DecidableEq K] (test : K → Bool) (d : Dict K W) :
    ((keysOf order d).foldl (fun d k => if test k then d.erase k else d) d).items =
      d.items.filter fun p => !test p.1 := by
  rw [← List.foldl_filter, Dict.items_foldl_erase]
  refine List.filter_congr fun p hp => ?_
  have hmem : p.1 ∈ keysOf order d := (perm_keysOf d).mem_iff.mpr (List.mem_map_of_mem hp)
  simp [List.mem_filter, hmem]

theorem isSome_foldl_insert {K A : Type} [DecidableEq K] (key : A → K) (value : A → V)
    (l : List A) (d : Dict K V) (k : K) :
    ((l.foldl (fun d a => d.insert (key a) (value a)) d).get? k).isSome ↔
      (d.get? k).isSome ∨ ∃ a ∈ l, key a = k := by
  induction l generalizing d with
  | nil => simp
  | cons a l ih =>
    rw [List.foldl_cons, ih, Dict.get?_insert, List.exists_mem_cons_iff, ← or_assoc]
    refine or_congr_left ?_
    by_cases hk : k = key a
    · simp [hk]
    · simp [hk, Ne.symm hk]

theorem isSome_noInodes (occurrences : Dict (Event Op Name Inode) Nat) (key : Op × Name) :
    ((noInodes order occurrences).get? key).isSome ↔
      ∃ event, (occurrences.get? event).isSome ∧ event.noInode = key := by
  unfold noInodes
  rw [isSome_foldl_insert (fun p : Event Op Name Inode × Nat => p.1.noInode) Prod.snd]
  simp only [Dict.get?_empty, Option.isSome_none, Bool.false_eq_true, false_or,
    Option.isSome_iff_exists, Dict.get?_eq_some_iff, (order.perm _).mem_iff]
  constructor
  · rintro ⟨⟨event, n⟩, hmem, hkey⟩
    exact ⟨event, ⟨n, hmem⟩, hkey⟩
  · rintro ⟨event, ⟨n, hmem⟩, hkey⟩
    exact ⟨(event, n), hmem, hkey⟩

/-- The events that `apply_filter` deletes. -/
def deleted (order : Order) (f : DiskFilter Op Name Inode) (useInodes : Bool)
    (event : Event Op Name Inode) : Bool :=
  if useInodes then (f.occurrencesDict.get? event).isSome
  else ((noInodes order f.occurrencesDict).get? event.noInode).isSome

theorem items_applyFilter (f : DiskFilter Op Name Inode) (results : Dict (Event Op Name Inode) W)
    (useInodes : Bool) :
    (applyFilter order f results useInodes).items =
      results.items.filter fun p => !deleted order f useInodes p.1 := by
  cases useInodes with
  | true => exact items_erase_if (fun event => (f.occurrencesDict.get? event).isSome) results
  | false =>
    exact items_erase_if
      (fun event => ((noInodes order f.occurrencesDict).get? event.noInode).isSome) results

theorem get?_applyFilter {f : DiskFilter Op Name Inode} {results : Dict (Event Op Name Inode) W}
    {useInodes : Bool} {event : Event Op Name Inode} {v : W} :
    (applyFilter order f results useInodes).get? event = some v ↔
      results.get? event = some v ∧ ¬ deleted order f useInodes event := by
  rw [Dict.get?_eq_some_iff, items_applyFilter, List.mem_filter, Dict.get?_eq_some_iff]
  simp

/-- What is deleted is decided by which events the filter has. -/
theorem deleted_congr {order' : Order} {f f' : DiskFilter Op Name Inode}
    (h : ∀ event, (f'.occurrencesDict.get? event).isSome ↔ (f.occurrencesDict.get? event).isSome)
    (useInodes : Bool) (event : Event Op Name Inode) :
    deleted order' f' useInodes event = deleted order f useInodes event := by
  rw [Bool.eq_iff_iff]
  cases useInodes with
  | true => exact h event
  | false =>
    show ((noInodes order' f'.occurrencesDict).get? event.noInode).isSome ↔
      ((noInodes order f.occurrencesDict).get? event.noInode).isSome
    rw [isSome_noInodes, isSome_noInodes]
    simp only [h]

theorem occurrences_perm {analyses analyses' : List (Dict (Event Op Name Inode) V)}
    (h : analyses'.Perm analyses) (event : Event Op Name Inode) :
    occurrences analyses' event = occurrences analyses event :=
  h.countP_eq _

/-- **A filter that was trained, adjusted and applied** leaves the events that occurred in too
few of the analyses, with their values; without inodes, those whose operation and file name are
not those of an event that occurred in enough. The order of the analyses does not matter. -/
theorem applyFilter_exact {analyses : List (Dict (Event Op Name Inode) V)} {threshold : Int}
    (order : Order) (hn : analyses ≠ []) (h0 : 0 ≤ threshold)
    (hle : threshold ≤ analyses.length) (results : Dict (Event Op Name Inode) W) :
    ∃ f, adjustFilter order threshold (addAll order analyses) = some f ∧
      (∀ event v, (applyFilter order f results true).get? event = some v ↔
        results.get? event = some v ∧ occurrences analyses event < max threshold 1) ∧
      (∀ event v, (applyFilter order f results false).get? event = some v ↔
        results.get? event = some v ∧ ∀ other : Event Op Name Inode,
          other.noInode = event.noInode → occurrences analyses other < max threshold 1) ∧
      ∀ (order' : Order) (analyses' : List (Dict (Event Op Name Inode) V)),
        analyses'.Perm analyses →
          ∃ f', adjustFilter order' threshold (addAll order' analyses') = some f' ∧
            ∀ useInodes,
              applyFilter order' f' results useInodes = applyFilter order f results useInodes := by
  obtain ⟨f, hf, hknown⟩ := adjustFilter_trained order hn h0 hle
  refine ⟨f, hf, fun event v => ?_, fun event v => ?_, fun order' analyses' hperm => ?_⟩
  · rw [get?_applyFilter]
    refine and_congr_right fun _ => ?_
    show ¬ (f.occurrencesDict.get? event).isSome ↔ _
    rw [hknown, Int.not_le]
  · rw [get?_applyFilter]
    refine and_congr_right fun _ => ?_
    show ¬ ((noInodes order f.occurrencesDict).get? event.noInode).isSome ↔ _
    rw [isSome_noInodes]
    constructor
    · intro hnone other hother
      exact Int.not_le.mp fun hmax => hnone ⟨other, (hknown other).mpr hmax, hother⟩
    · rintro hfew ⟨other, hsome, hother⟩
      exact Int.not_le.mpr (hfew other hother) ((hknown other).mp hsome)
  · obtain ⟨f', hf', hknown'⟩ := adjustFilter_trained order'
      (fun hnil => hn (List.Perm.nil_eq (hnil ▸ hperm)).symm) h0
      (by rw [hperm.length_eq]; exact hle)
    refine ⟨f', hf', fun useInodes => ?_⟩
    have hsame : ∀ event, (f'.occurrencesDict.get? event).isSome ↔
        (f.occurrencesDict.get? event).isSome := by
      intro event
      rw [hknown', hknown, occurrences_perm hperm]
    have hitems : (applyFilter order' f' results useInodes).items =
        (applyFilter order f results useInodes).items := by
      rw [items_applyFilter, items_applyFilter]
      exact List.filter_congr fun p _ => by rw [deleted_congr hsame]
    cases hleft : applyFilter order' f' results useInodes
    cases hright : applyFilter order f results useInodes
    rw [hleft, hright] at hitems
    cases hitems
    rfl

/-- Two analyses that have one event in common, in different inodes a second one. -/
def firstRun : Dict (Event Nat Nat Nat) Unit :=
  ⟨[(⟨1, 10, 100⟩, ()), (⟨1, 20, 200⟩, ())], by decide⟩

def secondRun : Dict (Event Nat Nat Nat) Unit :=
  ⟨[(⟨1, 10, 100⟩, ()), (⟨1, 20, 201⟩, ())], by decide⟩

/-- The common event, the same in another inode, and one of the first analysis only. -/
def newRun : Dict (Event Nat Nat Nat) Nat :=
  ⟨[(⟨1, 10, 100⟩, 7), (⟨1, 10, 101⟩, 8), (⟨1, 20, 200⟩, 9)], by decide⟩

theorem applyFilter_exact_newRun :
    ∃ f, adjustFilter Memory.addedOrder.order 2
        (addAll Memory.addedOrder.order [firstRun, secondRun]) = some f ∧
      (applyFilter Memory.addedOrder.order f newRun true).get? ⟨1, 10, 100⟩ = none ∧
      (applyFilter Memory.addedOrder.order f newRun true).get? ⟨1, 10, 101⟩ = some 8 ∧
      (applyFilter Memory.addedOrder.order f newRun false).get? ⟨1, 10, 101⟩ = none := by
  obtain ⟨f, hf, hinodes, hnames, -⟩ := @applyFilter_exact Nat Nat Nat Unit Nat _ _ _
    [firstRun, secondRun] 2 Memory.addedOrder.order (by simp) (by decide) (by decide) newRun
  refine ⟨f, hf, ?_, (hinodes _ _).mpr ⟨rfl, by decide⟩, ?_⟩
  · refine Option.eq_none_iff_forall_ne_some.mpr fun v hv => ?_
    exact absurd ((hinodes _ v).mp hv).2 (by decide)
  · refine Option.eq_none_iff_forall_ne_some.mpr fun v hv => ?_
    exact absurd (((hnames _ v).mp hv).2 ⟨1, 10, 100⟩ rfl) (by decide)

end Application

end LoPhi.Noise.Disk
