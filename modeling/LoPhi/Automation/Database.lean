import LoPhi.Lib.Dict
import LoPhi.Lib.ReadModifyReplace

/-! # Results of an analysis in the datastore

`update_analysis`, `append_analysis_file` and `update_analysis_machine` write
into one analysis document. Each checks that the document is there, downloads
it, changes its copy, and uploads the copy in place of the document. The upload
takes a lock, but only for itself: the three operations are a read, a change
and a replacement of the whole document, so an upload takes back what was
uploaded since the download.

The values that are stored are a parameter. The identifier of an uploaded
output file is taken as given. -/

namespace LoPhi.Automation.Database
open LoPhi.Lib LoPhi.Lib.Machine LoPhi.Lib.ReadModifyReplace

variable {ν : Type}

/-! ## Documents and calls -/

/-- The value of a field. `output_files` is a dictionary of its own. -/
inductive Value (ν : Type) where
  | plain (v : ν)
  | files (d : Dict String ν)

/-- An analysis document. -/
abbrev Doc (ν : Type) := Dict String (Value ν)

inductive Call (ν : Type) where
  | updateAnalysis (parameter : String) (value : ν)
  | appendAnalysisFile (filename : String) (fileId : ν)
  | updateAnalysisMachine (name machineType : ν)

/-- What a call does to the document it has downloaded. Without a dictionary under
`output_files` the assignment of a file raises. -/
def Call.modify : Call ν → Doc ν → Option (Doc ν)
  | .updateAnalysis parameter value, d => some (d.insert parameter (.plain value))
  | .appendAnalysisFile filename fileId, d =>
    match d.get? "output_files" with
    | some (.files files) => some (d.insert "output_files" (.files (files.insert filename fileId)))
    | _ => none
  | .updateAnalysisMachine name machineType, d =>
    some ((d.insert "machine" (.plain name)).insert "machine_type" (.plain machineType))

/-- `upload_doc(analysis_doc, replace=True)` replaces the document with the identifier
that stands in the uploaded one: another identifier leaves this document alone. -/
def uploadDoc [DecidableEq ν] (id : ν) (d : Doc ν) : Option (Doc ν) :=
  match d.get? "_id" with
  | some (.plain v) => if v = id then some d else none
  | _ => none

/-- What call `i` makes of the document it has downloaded. -/
def replaceDoc [DecidableEq ν] {n : Nat} (id : ν) (calls : Fin n → Call ν) (i : Fin n)
    (d : Doc ν) : Option (Doc ν) :=
  ((calls i).modify d).bind (uploadDoc id)

/-- The steps of a call before its download: `contains_doc`, and the upload of the output
file. -/
def Call.start : Call ν → Phase (Doc ν)
  | .appendAnalysisFile _ _ => .before 2
  | _ => .before 1

/-- The datastore with the calls about to be made. -/
def initial {n : Nat} (calls : Fin n → Call ν) (d : Doc ν) : Shared (Doc ν) (Fin n) where
  value := d
  phase i := (calls i).start

/-! ## Places -/

/-- A field of the document, or a name under `output_files`. -/
inductive Place where
  | field (name : String)
  | output (name : String)
  deriving DecidableEq

/-- Writing one place changes the other. -/
def Place.overlaps : Place → Place → Bool
  | .field p, .field q => p = q
  | .output p, .output q => p = q
  | .field p, .output _ => p = "output_files"
  | .output _, .field q => q = "output_files"

/-- What stands at a place. -/
def at? (d : Doc ν) : Place → Option (Value ν)
  | .field name => d.get? name
  | .output name =>
    match d.get? "output_files" with
    | some (.files files) => (files.get? name).map .plain
    | _ => none

/-- The places a call writes, and what it writes there. -/
def Call.writes : Call ν → List (Place × ν)
  | .updateAnalysis parameter value => [(.field parameter, value)]
  | .appendAnalysisFile filename fileId => [(.output filename, fileId)]
  | .updateAnalysisMachine name machineType =>
    [(.field "machine", name), (.field "machine_type", machineType)]

/-- The document contains every value the call wrote. -/
def Contains (d : Doc ν) (c : Call ν) : Prop :=
  ∀ w ∈ c.writes, at? d w.1 = some (.plain w.2)

/-- The calls write pairwise different fields or output file names. -/
def Different {n : Nat} (calls : Fin n → Call ν) : Prop :=
  ∀ i j, i ≠ j → ∀ w ∈ (calls i).writes, ∀ w' ∈ (calls j).writes, w.1.overlaps w'.1 = false

/-- Call `i` is about to upload, and the document is not the one it downloaded any more,
or the call changes the identifier of the document. -/
def Overwrites {n : Nat} (id : ν) (calls : Fin n → Call ν) (s : Shared (Doc ν) (Fin n))
    (i : Fin n) : Prop :=
  ∃ copy, s.phase i = .holding copy ∧
    (s.value ≠ copy ∨ ∃ v, calls i = .updateAnalysis "_id" v ∧ v ≠ id)

/-! ## One call -/

section Modify
variable {d d' : Doc ν} {c : Call ν}

theorem at_field_insert {name : String} {v : Value ν} {p : String} :
    at? (d.insert name v) (.field p) = if p = name then some v else at? d (.field p) :=
  Dict.get?_insert

theorem at_output_insert {name p : String} {v : Value ν} (h : name ≠ "output_files") :
    at? (d.insert name v) (.output p) = at? d (.output p) := by
  simp only [at?, Dict.get?_insert, if_neg (Ne.symm h)]

theorem at_insert_of_not_overlaps {name : String} {v : Value ν} {q : Place}
    (h : (Place.field name).overlaps q = false) : at? (d.insert name v) q = at? d q := by
  cases q with
  | field p =>
    have hne : name ≠ p := of_decide_eq_false h
    rw [at_field_insert, if_neg (Ne.symm hne)]
  | output p => exact at_output_insert (of_decide_eq_false h)

theorem modify_append {filename : String} {fileId : ν}
    (h : (Call.appendAnalysisFile filename fileId).modify d = some d') :
    ∃ files, d.get? "output_files" = some (.files files) ∧
      d' = d.insert "output_files" (.files (files.insert filename fileId)) := by
  simp only [Call.modify] at h
  split at h
  · rename_i files hfiles
    exact ⟨files, hfiles, (Option.some.inj h).symm⟩
  · cases h

/-- What a call writes is there afterwards. -/
theorem contains_modify (h : c.modify d = some d') : Contains d' c := by
  cases c with
  | updateAnalysis parameter value =>
    obtain rfl := Option.some.inj h
    intro w hw
    obtain rfl := List.mem_singleton.mp hw
    rw [at_field_insert, if_pos rfl]
  | appendAnalysisFile filename fileId =>
    obtain ⟨files, _, rfl⟩ := modify_append h
    intro w hw
    obtain rfl := List.mem_singleton.mp hw
    simp [at?, Dict.get?_insert]
  | updateAnalysisMachine name machineType =>
    obtain rfl := Option.some.inj h
    intro w hw
    simp only [Call.writes, List.mem_cons, List.not_mem_nil, or_false] at hw
    rcases hw with rfl | rfl
    · rw [at_field_insert, if_neg (by decide), at_field_insert, if_pos rfl]
    · rw [at_field_insert, if_pos rfl]

/-- The other places are as they were. -/
theorem at_modify (h : c.modify d = some d') {q : Place}
    (hq : ∀ w ∈ c.writes, w.1.overlaps q = false) : at? d' q = at? d q := by
  cases c with
  | updateAnalysis parameter value =>
    obtain rfl := Option.some.inj h
    exact at_insert_of_not_overlaps (hq _ List.mem_cons_self)
  | appendAnalysisFile filename fileId =>
    obtain ⟨files, hfiles, rfl⟩ := modify_append h
    have hover := hq _ List.mem_cons_self
    cases q with
    | field p =>
      have hne : p ≠ "output_files" := of_decide_eq_false hover
      rw [at_field_insert, if_neg hne]
    | output p =>
      have hne : filename ≠ p := of_decide_eq_false hover
      simp only [at?, Dict.get?_insert, hfiles, if_neg (Ne.symm hne), if_true]
  | updateAnalysisMachine name machineType =>
    obtain rfl := Option.some.inj h
    have hfirst := hq _ List.mem_cons_self
    have hsecond := hq _ (List.mem_cons_of_mem _ List.mem_cons_self)
    rw [at_insert_of_not_overlaps hsecond, at_insert_of_not_overlaps hfirst]

end Modify

/-! ## The calls as clients -/

section Calls
variable [DecidableEq ν] {n : Nat} {id : ν} {calls : Fin n → Call ν} {d d' : Doc ν} {i : Fin n}

theorem uploadDoc_eq_some {d₁ : Doc ν} (h : uploadDoc id d₁ = some d') :
    d' = d₁ ∧ d₁.get? "_id" = some (.plain id) := by
  unfold uploadDoc at h
  split at h
  · rename_i v hv
    split at h
    · rename_i hid
      exact ⟨(Option.some.inj h).symm, hid ▸ hv⟩
    · cases h
  · cases h

theorem replaceDoc_eq_some (h : replaceDoc id calls i d = some d') :
    (calls i).modify d = some d' ∧ d'.get? "_id" = some (.plain id) := by
  obtain ⟨d₁, hmod, hup⟩ := Option.bind_eq_some_iff.mp h
  obtain ⟨rfl, hid⟩ := uploadDoc_eq_some hup
  exact ⟨hmod, hid⟩

/-- Calls that write different places keep each other's values, if they replace what they
have read. -/
theorem writes_replaceDoc (hdiff : Different calls) :
    Writes (replaceDoc id calls) fun d i => Contains d (calls i) where
  self i d d' h := contains_modify (replaceDoc_eq_some h).1
  other i j d d' hji h := by
    have hsame : ∀ w ∈ (calls j).writes, at? d' w.1 = at? d w.1 := fun w hw =>
      at_modify (replaceDoc_eq_some h).1 fun w' hw' => hdiff i j (Ne.symm hji) w' hw' w hw
    constructor
    · intro hc w hw
      rw [← hsame w hw, hc w hw]
    · intro hc w hw
      rw [hsame w hw, hc w hw]

/-- The document keeps its identifier, and a dictionary of output files if a call needs
it. -/
def Usable (id : ν) (calls : Fin n → Call ν) (d : Doc ν) : Prop :=
  d.get? "_id" = some (.plain id) ∧
    ((∃ i filename fileId, calls i = .appendAnalysisFile filename fileId) →
      ∃ files, d.get? "output_files" = some (.files files))

theorem usable_replaceDoc (hdiff : Different calls) (h : Usable id calls d)
    (hr : replaceDoc id calls i d = some d') : Usable id calls d' := by
  obtain ⟨hmod, hid⟩ := replaceDoc_eq_some hr
  refine ⟨hid, fun hneeds => ?_⟩
  obtain ⟨files, hfiles⟩ := h.2 hneeds
  obtain ⟨j, filename, fileId, hj⟩ := hneeds
  cases hi : calls i with
  | appendAnalysisFile filename' fileId' =>
    rw [hi] at hmod
    obtain ⟨files', _, rfl⟩ := modify_append hmod
    exact ⟨_, by rw [Dict.get?_insert, if_pos rfl]⟩
  | updateAnalysis parameter value =>
    have hij : i ≠ j := by
      rintro rfl
      rw [hi] at hj
      cases hj
    -- the call that needs the dictionary overlaps with one that replaces it
    have hover := hdiff i j hij (.field parameter, value) (by simp [hi, Call.writes])
      (.output filename, fileId) (by simp [hj, Call.writes])
    have hne : parameter ≠ "output_files" := of_decide_eq_false hover
    rw [hi] at hmod
    obtain rfl := Option.some.inj hmod
    exact ⟨files, by rw [Dict.get?_insert, if_neg (Ne.symm hne), hfiles]⟩
  | updateAnalysisMachine name machineType =>
    rw [hi] at hmod
    obtain rfl := Option.some.inj hmod
    refine ⟨files, ?_⟩
    rw [Dict.get?_insert, if_neg (by decide), Dict.get?_insert, if_neg (by decide), hfiles]

/-- On a usable document a call fails to replace it only by changing its identifier. -/
theorem replaceDoc_eq_none_iff (h : Usable id calls d) :
    replaceDoc id calls i d = none ↔ ∃ v, calls i = .updateAnalysis "_id" v ∧ v ≠ id := by
  have hup : ∀ {d₁ : Doc ν} {v : ν}, d₁.get? "_id" = some (.plain v) →
      uploadDoc id d₁ = if v = id then some d₁ else none := by
    intro d₁ v hv
    unfold uploadDoc
    rw [hv]
  unfold replaceDoc
  cases hi : calls i with
  | updateAnalysis parameter value =>
    show uploadDoc id (d.insert parameter (.plain value)) = none ↔ _
    by_cases hp : parameter = "_id"
    · subst hp
      rw [hup (by rw [Dict.get?_insert, if_pos rfl])]
      simp
    · rw [hup (by rw [Dict.get?_insert, if_neg (Ne.symm hp)]; exact h.1), if_pos rfl]
      simp [hp]
  | appendAnalysisFile filename fileId =>
    obtain ⟨files, hfiles⟩ := h.2 ⟨i, filename, fileId, hi⟩
    have hmod : (Call.appendAnalysisFile filename fileId).modify d =
        some (d.insert "output_files" (.files (files.insert filename fileId))) := by
      simp only [Call.modify, hfiles]
    rw [hmod, Option.bind_some,
      hup (by rw [Dict.get?_insert, if_neg (by decide)]; exact h.1), if_pos rfl]
    simp
  | updateAnalysisMachine name machineType =>
    show uploadDoc id ((d.insert "machine" _).insert "machine_type" _) = none ↔ _
    have hid : ((d.insert "machine" (.plain name)).insert "machine_type"
        (.plain machineType)).get? "_id" = some (.plain id) := by
      rw [Dict.get?_insert, if_neg (by decide), Dict.get?_insert, if_neg (by decide), h.1]
    rw [hup hid, if_pos rfl]
    simp

theorem stale_iff {s : Shared (Doc ν) (Fin n)} (h : AllGood (Usable id calls) s) :
    Stale (replaceDoc id calls) s i ↔ Overwrites id calls s i := by
  refine exists_congr fun copy => and_congr_right fun hcopy => or_congr_right ?_
  exact replaceDoc_eq_none_iff (h.2 i copy hcopy)

/-! ## Interleavings -/

/-- **For every set of calls that write different places of an existing analysis document
and every interleaving of their steps to the end, the document contains every
value written if no upload replaces a document other than the one its call
downloaded and none changes the identifier. If none of the values was there
before, only then.** -/
theorem updates_kept (id : ν) (calls : Fin n → Call ν) (d : Doc ν)
    (hid : d.get? "_id" = some (.plain id))
    (hfiles : ∃ files, d.get? "output_files" = some (.files files)) (hdiff : Different calls)
    (schedule : List (Fin n))
    (hdone : ∀ i, (stateAt (step (replaceDoc id calls)) (initial calls d) schedule
      schedule.length).phase i = .finished) :
    ((∀ k i, schedule[k]? = some i → ¬ Overwrites id calls
        (stateAt (step (replaceDoc id calls)) (initial calls d) schedule k) i) →
      ∀ i, Contains (stateAt (step (replaceDoc id calls)) (initial calls d) schedule
        schedule.length).value (calls i)) ∧
    ((∀ i, ¬ Contains d (calls i)) →
      (∀ i, Contains (stateAt (step (replaceDoc id calls)) (initial calls d) schedule
        schedule.length).value (calls i)) →
      ∀ k i, schedule[k]? = some i → ¬ Overwrites id calls
        (stateAt (step (replaceDoc id calls)) (initial calls d) schedule k) i) := by
  have hstart : ∀ i, ∃ left, (initial calls d).phase i = .before left := by
    intro i
    show ∃ left, (calls i).start = .before left
    cases calls i <;> exact ⟨_, rfl⟩
  have hgood : AllGood (Usable id calls) (initial calls d) := by
    refine ⟨⟨hid, fun _ => hfiles⟩, fun i copy hcopy => ?_⟩
    obtain ⟨left, hleft⟩ := hstart i
    rw [hleft] at hcopy
    cases hcopy
  have hstale : ∀ {k i}, schedule[k]? = some i →
      (Stale (replaceDoc id calls)
        (stateAt (step (replaceDoc id calls)) (initial calls d) schedule k) i ↔
      Overwrites id calls
        (stateAt (step (replaceDoc id calls)) (initial calls d) schedule k) i) := by
    intro k i hi
    have hk := (List.getElem?_eq_some_iff.mp hi).1
    exact stale_iff (allGood_run (fun i d d' => usable_replaceDoc hdiff) hgood schedule (by omega))
  constructor
  · intro hno i
    refine kept_run (writes_replaceDoc hdiff) ?_ (fun k i hi => ?_) (Nat.le_refl _) i (hdone i)
    · intro i hi
      obtain ⟨left, hleft⟩ := hstart i
      rw [hleft] at hi
      cases hi
    · rw [hstale hi]
      exact hno k i hi
  · intro hnew hend k i hi
    rw [← hstale hi]
    refine fresh_of_kept (writes_replaceDoc hdiff) (fun i copy hcopy => ?_) hnew hend hi
    obtain ⟨left, hleft⟩ := hstart i
    rw [hleft] at hcopy
    cases hcopy

end Calls

/-- The status and an output file are stored. -/
def statusAndFile (i : Fin 2) : Call Nat :=
  if i = 0 then .updateAnalysis "status" 1 else .appendAnalysisFile "memory_dump" 7

def newDoc : Doc Nat :=
  (Dict.empty.insert "_id" (.plain 0)).insert "output_files" (.files .empty)

theorem different_statusAndFile : Different statusAndFile := by
  unfold Different
  decide

/-- One call after the other: every value is there, and no upload was stale. -/
theorem updates_kept_in_turn :
    Different statusAndFile ∧
      ∀ k i, ([0, 0, 0, 1, 1, 1, 1] : List (Fin 2))[k]? = some i → ¬ Overwrites 0 statusAndFile
        (stateAt (step (replaceDoc 0 statusAndFile)) (initial statusAndFile newDoc)
          [0, 0, 0, 1, 1, 1, 1] k) i := by
  refine ⟨different_statusAndFile, (updates_kept 0 statusAndFile newDoc rfl ⟨_, rfl⟩
    different_statusAndFile [0, 0, 0, 1, 1, 1, 1] ?_).2 ?_ ?_⟩
  · intro i
    match i with
    | 0 => rfl
    | 1 => rfl
  · intro i hc
    match i with
    | 0 => cases hc _ List.mem_cons_self
    | 1 => cases hc _ List.mem_cons_self
  · intro i w hw
    match i with
    | 0 =>
      obtain rfl := List.mem_singleton.mp hw
      rfl
    | 1 =>
      obtain rfl := List.mem_singleton.mp hw
      rfl

/-- Both calls download before either uploads: the status is lost. -/
theorem overlapping_calls_lose_status :
    Different statusAndFile ∧
      (∀ i, (stateAt (step (replaceDoc 0 statusAndFile)) (initial statusAndFile newDoc)
        [0, 0, 1, 1, 1, 0, 1] 7).phase i = .finished) ∧
      ¬ ∀ i, Contains (stateAt (step (replaceDoc 0 statusAndFile))
        (initial statusAndFile newDoc) [0, 0, 1, 1, 1, 0, 1] 7).value (statusAndFile i) := by
  refine ⟨different_statusAndFile, fun i => ?_, fun h => ?_⟩
  · match i with
    | 0 => rfl
    | 1 => rfl
  · cases h 0 _ List.mem_cons_self

end LoPhi.Automation.Database
