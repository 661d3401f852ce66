import Mathlib.Data.List.Chain
import Mathlib.Data.List.Forall2
import LoPhi.Ntfs.Changes

/-! # The actions of an access

`parse_actions` puts the operations of an access together again: as long as the next operation has
the same inode and the next sector, its bytes go to the current action. -/

namespace LoPhi.Disk.Actions
open LoPhi.Lib.Effect LoPhi.Ntfs.Volume LoPhi.Ntfs.Changes LoPhi.Ntfs.Report
open LoPhi.Ntfs.Engine hiding getAccess

/-! ## The loop over the operations -/

/-- The variables of the loop. -/
structure Grouping where
  actions : List Operation := []
  currentAction : Option Operation := none
  lastSector : Nat := 0
  deriving DecidableEq, Repr

/-- The loop body. -/
def Grouping.add (s : Grouping) (fsOp : Operation) : Grouping :=
  match s.currentAction with
  | none => { s with currentAction := some fsOp, lastSector := fsOp.sector }
  | some current =>
    if fsOp.inode = current.inode ∧ fsOp.sector = s.lastSector + 1 then
      { s with
        currentAction := some { current with rawData := current.rawData ++ fsOp.rawData }
        lastSector := s.lastSector + 1 }
    else
      { actions := s.actions ++ [current], currentAction := some fsOp, lastSector := fsOp.sector }

/-- The last action is added after the loop. -/
def Grouping.finish (s : Grouping) : List Operation := s.actions ++ s.currentAction.toList

def groupOperations (fsOperations : List Operation) : List Operation :=
  (fsOperations.foldl Grouping.add {}).finish

/-- An action with the time of the access. Its `Content` is empty. -/
structure Action (τ : Type) where
  operation : Operation
  timestamp : τ
  content : String := ""

/-- The first column after the time: the type of an operation, or a key that was modified. -/
inductive RowType where
  | operation (opType : OperationType)
  | modified (key : String)
  deriving DecidableEq, Repr

/-- A row of `DATA`. -/
structure Row (τ : Type) where
  timestamp : τ
  rowType : RowType
  filename : Option String
  sector : Nat
  semanticData : String

section Output
variable {τ : Type} (showChange : MetaChange → String) (timestamp : τ)

/-- The rows of an action. How a change is shown comes from outside. -/
def actionRows (action : Action τ) : List (Row τ) :=
  { timestamp := action.timestamp, rowType := .operation action.operation.opType,
    filename := some action.operation.filename, sector := action.operation.sector,
    semanticData := "" } ::
  action.operation.semanticData.flatMap fun sd => sd.changes.map fun change =>
    { timestamp := action.timestamp, rowType := .modified change.key, filename := sd.filename,
      sector := action.operation.sector, semanticData := showChange change }

/-- `parse_actions`: the actions and the rows that are reported, nothing without operations. -/
def parseActions (fsOperations : List Operation) : Option (List (Action τ) × List (Row τ)) :=
  if fsOperations = [] then none
  else
    let actions := (groupOperations fsOperations).map fun operation =>
      { operation := operation, timestamp := timestamp }
    some (actions, actions.flatMap (actionRows showChange))

end Output

/-! ## Maximal runs -/

/-- The second operation goes on where the first ends. -/
def Continues (a b : Operation) : Prop := b.inode = a.inode ∧ b.sector = a.sector + 1

instance (a b : Operation) : Decidable (Continues a b) := inferInstanceAs (Decidable (_ ∧ _))

/-- An operation with the bytes of all operations of a run. -/
def Merges (group : List Operation) (action : Operation) : Prop :=
  ∃ first rest, group = first :: rest ∧
    action = { first with rawData := group.flatMap Operation.rawData }

theorem Merges.append {group : List Operation} {current next : Operation}
    (h : Merges group current) :
    Merges (group ++ [next]) { current with rawData := current.rawData ++ next.rawData } := by
  obtain ⟨first, rest, rfl, rfl⟩ := h
  refine ⟨first, rest ++ [next], rfl, ?_⟩
  rw [List.flatMap_append, List.flatMap_singleton]

theorem Merges.single (operation : Operation) : Merges [operation] operation :=
  ⟨operation, [], rfl, by rw [List.flatMap_singleton]⟩

/-- The groups of the operations the loop has seen: those that are finished, and the current one,
that ends with the last operation. -/
structure Groups (s : Grouping) (seen : List Operation) (finished : List (List Operation))
    (group : List Operation) (last : Operation) : Prop where
  seen : seen = finished.flatten ++ (group ++ [last])
  nonempty : [] ∉ finished
  chains : ∀ run ∈ finished ++ [group ++ [last]], run.IsChain Continues
  apart : (finished ++ [group ++ [last]]).IsChain fun a b =>
    ∃ ha hb, ¬ Continues (a.getLast ha) (b.head hb)
  actions : List.Forall₂ Merges finished s.actions
  current : ∃ current, s.currentAction = some current ∧ Merges (group ++ [last]) current ∧
    current.inode = last.inode
  lastSector : s.lastSector = last.sector

theorem Groups.first (operation : Operation) :
    Groups (Grouping.add {} operation) [operation] [] [] operation where
  seen := rfl
  nonempty := by simp
  chains := by simp
  apart := by simp
  actions := .nil
  current := ⟨operation, rfl, .single operation, rfl⟩
  lastSector := rfl

theorem Groups.add {s : Grouping} {seen : List Operation} {finished : List (List Operation)}
    {group : List Operation} {last : Operation} (h : Groups s seen finished group last)
    (next : Operation) :
    ∃ finished' group', Groups (s.add next) (seen ++ [next]) finished' group' next := by
  obtain ⟨current, hcurrent, hmerges, hinode⟩ := h.current
  have hiff : next.inode = current.inode ∧ next.sector = s.lastSector + 1 ↔
      Continues last next := by
    rw [hinode, h.lastSector]
    rfl
  obtain ⟨hfinished, -, hborder⟩ := List.isChain_append.mp h.apart
  have hgroup : (group ++ [last]).IsChain Continues :=
    h.chains _ (List.mem_append_right _ (List.mem_singleton_self _))
  unfold Grouping.add
  rw [hcurrent]
  dsimp only
  by_cases hnext : Continues last next
  · -- the run goes on
    rw [if_pos (hiff.mpr hnext)]
    refine ⟨finished, group ++ [last], ?_, h.nonempty, ?_, ?_, h.actions,
      ⟨_, rfl, hmerges.append, hinode.trans hnext.1.symm⟩, ?_⟩
    · rw [h.seen, List.append_assoc]
    · intro run hrun
      rcases List.mem_append.mp hrun with hrun | hrun
      · exact h.chains run (List.mem_append_left _ hrun)
      · obtain rfl := List.mem_singleton.mp hrun
        refine List.isChain_append.mpr ⟨hgroup, List.isChain_singleton _, fun x hx y hy => ?_⟩
        rw [List.getLast?_concat] at hx
        cases hx
        cases hy
        exact hnext
    · refine List.isChain_append.mpr
        ⟨hfinished, List.isChain_singleton _, fun run hrun run' hrun' => ?_⟩
      cases hrun'
      obtain ⟨ha, hb, hapart⟩ := hborder run hrun (group ++ [last]) rfl
      refine ⟨ha, by simp, ?_⟩
      rw [List.head_append_of_ne_nil hb]
      exact hapart
    · rw [hnext.2, h.lastSector]
  · -- a new run begins
    rw [if_neg (mt hiff.mp hnext)]
    refine ⟨finished ++ [group ++ [last]], [], ?_, ?_, ?_, ?_, ?_,
      ⟨next, rfl, .single next, rfl⟩, rfl⟩
    · rw [h.seen]
      simp
    · simpa using h.nonempty
    · intro run hrun
      rcases List.mem_append.mp hrun with hrun | hrun
      · exact h.chains run hrun
      · obtain rfl := List.mem_singleton.mp hrun
        exact List.isChain_singleton next
    · refine List.isChain_append.mpr
        ⟨h.apart, List.isChain_singleton _, fun run hrun run' hrun' => ?_⟩
      rw [List.getLast?_concat] at hrun
      cases hrun
      cases hrun'
      refine ⟨by simp, by simp, ?_⟩
      rw [List.getLast_concat]
      exact hnext
    · exact List.rel_append h.actions (.cons hmerges .nil)

theorem groups_of_ne_nil {fsOperations : List Operation} (hne : fsOperations ≠ []) :
    ∃ finished group last,
      Groups (fsOperations.foldl Grouping.add {}) fsOperations finished group last := by
  induction fsOperations using List.reverseRecOn with
  | nil => exact absurd rfl hne
  | append_singleton seen next ih =>
    rw [List.foldl_append]
    by_cases hseen : seen = []
    · subst hseen
      exact ⟨[], [], next, Groups.first next⟩
    · obtain ⟨finished, group, last, hgroups⟩ := ih hseen
      obtain ⟨finished', group', hgroups'⟩ := hgroups.add next
      exact ⟨finished', group', next, hgroups'⟩

/-- The actions are the operations in order, without any missing: each has the bytes of a run of
operations of one inode with consecutive sectors, and no run could be longer. -/
def Aggregates (fsOperations actions : List Operation) : Prop :=
  (∃ runs : List (List Operation), fsOperations = runs.flatten ∧ [] ∉ runs ∧
    (∀ run ∈ runs, run.IsChain Continues) ∧
    (runs.IsChain fun a b => ∃ ha hb, ¬ Continues (a.getLast ha) (b.head hb)) ∧
    List.Forall₂ Merges runs actions) ∧
  actions.flatMap Operation.rawData = fsOperations.flatMap Operation.rawData

theorem rawData_of_merges {runs : List (List Operation)} {actions : List Operation}
    (h : List.Forall₂ Merges runs actions) :
    actions.flatMap Operation.rawData = runs.flatten.flatMap Operation.rawData := by
  induction h with
  | nil => rfl
  | cons hmerges _ ih =>
    obtain ⟨first, rest, -, rfl⟩ := hmerges
    rw [List.flatMap_cons, ih, List.flatten_cons, List.flatMap_append]

theorem groupOperations_aggregates {fsOperations : List Operation} (hne : fsOperations ≠ []) :
    Aggregates fsOperations (groupOperations fsOperations) := by
  obtain ⟨finished, group, last, h⟩ := groups_of_ne_nil hne
  obtain ⟨current, hcurrent, hmerges, -⟩ := h.current
  unfold groupOperations Grouping.finish
  rw [hcurrent]
  have hall : List.Forall₂ Merges (finished ++ [group ++ [last]])
      ((fsOperations.foldl Grouping.add {}).actions ++ (some current).toList) :=
    List.rel_append h.actions (.cons hmerges .nil)
  have hflat : fsOperations = (finished ++ [group ++ [last]]).flatten := by
    rw [List.flatten_append, List.flatten_singleton]
    exact h.seen
  refine ⟨⟨_, hflat, ?_, h.chains, h.apart, hall⟩, ?_⟩
  · simpa using h.nonempty
  · rw [rawData_of_merges hall, ← hflat]

/-! ## From the access to the actions -/

/-- `parse_actions` has nothing to report, or reports the operations as actions. -/
def Reports {τ : Type} (fsOperations : List Operation)
    (reported : Option (List (Action τ) × List (Row τ))) : Prop :=
  match reported with
  | none => fsOperations = []
  | some (actions, _) => Aggregates fsOperations (actions.map Action.operation)

theorem parseActions_reports {τ : Type} (showChange : MetaChange → String) (timestamp : τ)
    (fsOperations : List Operation) :
    Reports fsOperations (parseActions showChange timestamp fsOperations) := by
  unfold parseActions
  split
  · rename_i hempty
    exact hempty
  · rename_i hne
    show Aggregates fsOperations (List.map Action.operation (List.map _ _))
    rw [List.map_map]
    have hid : (Action.operation ∘ fun operation => ({ operation, timestamp } : Action τ)) = id :=
      rfl
    rw [hid, List.map_id]
    exact groupOperations_aggregates hne

/-- **Every sector of an access is accounted for**, in the operations and in the actions. -/
theorem accounted {g : Geometry} {o : Outside} {py : Interpreter} {a : Access}
    {e e' : SevNtfsSparse} {operations : List Operation}
    (h : getAccess g o py a e = (.ok operations, e')) {τ : Type}
    (showChange : MetaChange → String) (timestamp : τ) (fsOperations : List Operation) :
    Accounts g a e operations e' ∧
      Reports fsOperations (parseActions showChange timestamp fsOperations) :=
  ⟨getAccess_accounts h, parseActions_reports showChange timestamp fsOperations⟩

/-! ## A file that is created -/

/-- The operations of the two sectors, of which no record is known, after that of the new file. -/
def fillOperations : List Operation :=
  [⟨4, true, .fileCreated, .record 1, "unknown", [], []⟩,
    ⟨4, true, .unknownWrite, .label "[unknown inode]", "unknown", 1 :: List.replicate 511 0, []⟩,
    ⟨5, true, .unknownWrite, .label "[unknown inode]", "unknown", List.replicate 512 0, []⟩]

def filled : SevNtfsSparse :=
  (getAccess tinyVolume (iterated id) nameless fillAccess emptyRecord).2

/-- The two sectors are one action. -/
theorem accounted_fill :
    Accounts tinyVolume fillAccess emptyRecord fillOperations filled ∧
      Reports fillOperations (parseActions MetaChange.key 0 fillOperations) := by
  refine @accounted tinyVolume (iterated id) nameless fillAccess emptyRecord filled
    fillOperations ?_ Nat MetaChange.key 0 fillOperations
  unfold filled
  exact returns_of_fst (by decide +kernel)

end LoPhi.Disk.Actions
