import Mathlib.Data.Fintype.Card
import Mathlib.Data.Finset.Card
import LoPhi.Lib.Machine

/-! # Read, modify, replace

Several clients change one shared value. Each of them does some private steps,
reads the value, and later replaces the shared value by what it made of its
copy. Reading and replacing are atomic, the pair is not. A replacement is stale
when the shared value is no longer the one that was read. If no replacement is
stale, what each client wrote is there at the end. If one is, something is
missing: every replacement adds one client's writing to those in its copy, so a
stale one falls behind the number of replacements, and nothing catches up. -/

namespace LoPhi.Lib.ReadModifyReplace
open LoPhi.Lib.Machine

variable {δ ι : Type}

/-- Where a client is: private steps before it reads, the copy it has read, or the end. -/
inductive Phase (δ : Type) where
  | before (left : Nat)
  | holding (copy : δ)
  | finished

structure Shared (δ ι : Type) where
  value : δ
  phase : ι → Phase δ

section Step
variable [DecidableEq ι]

def Shared.move (s : Shared δ ι) (i : ι) (p : Phase δ) : Shared δ ι :=
  { s with phase := fun j => if j = i then p else s.phase j }

/-- The next step of client `i`. A client whose `replace` fails writes nothing. -/
def step (replace : ι → δ → Option δ) (s : Shared δ ι) (i : ι) : Shared δ ι × Unit :=
  match s.phase i with
  | .before (left + 1) => (s.move i (.before left), ())
  | .before 0 => (s.move i (.holding s.value), ())
  | .holding copy => ({ s.move i .finished with value := (replace i copy).getD s.value }, ())
  | .finished => (s, ())

/-- The next step of the client replaces a value it has not read, or fails. -/
def Stale (replace : ι → δ → Option δ) (s : Shared δ ι) (i : ι) : Prop :=
  ∃ copy, s.phase i = .holding copy ∧ (s.value ≠ copy ∨ replace i copy = none)

/-- What a step can do: the client moves on, perhaps to a copy of the value, or replaces
the value, or is finished. -/
theorem step_cases (replace : ι → δ → Option δ) (s : Shared δ ι) (i : ι) :
    (∃ p, s.phase i ≠ .finished ∧ (∀ copy, s.phase i ≠ .holding copy) ∧ p ≠ .finished ∧
      (∀ copy, p = .holding copy → copy = s.value) ∧ (step replace s i).1 = s.move i p) ∨
    (∃ copy, s.phase i = .holding copy ∧ (step replace s i).1 =
      { s.move i .finished with value := (replace i copy).getD s.value }) ∨
    (s.phase i = .finished ∧ (step replace s i).1 = s) := by
  unfold step
  cases h : s.phase i with
  | before left =>
    cases left with
    | zero =>
      refine .inl ⟨.holding s.value, nofun, nofun, nofun, fun copy hcopy => ?_, rfl⟩
      exact (Phase.holding.inj hcopy).symm
    | succ left => exact .inl ⟨.before left, nofun, nofun, nofun, nofun, rfl⟩
  | holding copy => exact .inr (.inl ⟨copy, rfl, rfl⟩)
  | finished => exact .inr (.inr ⟨rfl, rfl⟩)

@[simp] theorem move_value (s : Shared δ ι) (i : ι) (p : Phase δ) : (s.move i p).value = s.value :=
  rfl

theorem move_phase (s : Shared δ ι) (i j : ι) (p : Phase δ) :
    (s.move i p).phase j = if j = i then p else s.phase j := rfl

theorem holding_move {s : Shared δ ι} {i j : ι} {p : Phase δ} {copy : δ}
    (h : (s.move i p).phase j = .holding copy) :
    p = .holding copy ∨ s.phase j = .holding copy := by
  rw [move_phase] at h
  split at h
  · exact .inl h
  · exact .inr h

end Step

/-! ## A property of every value -/

section Values
variable [DecidableEq ι] {replace : ι → δ → Option δ} {Good : δ → Prop}

/-- The shared value and every copy have the property. -/
def AllGood (Good : δ → Prop) (s : Shared δ ι) : Prop :=
  Good s.value ∧ ∀ i copy, s.phase i = .holding copy → Good copy

theorem allGood_step (hgood : ∀ i d d', Good d → replace i d = some d' → Good d')
    {s : Shared δ ι} (h : AllGood Good s) (i : ι) : AllGood Good (step replace s i).1 := by
  rcases step_cases replace s i with
    ⟨p, _, _, _, hp, heq⟩ | ⟨copy, hcopy, heq⟩ | ⟨_, heq⟩
  · rw [heq]
    refine ⟨h.1, fun j copy hj => ?_⟩
    rcases holding_move hj with hcopy | hj
    · exact hp copy hcopy ▸ h.1
    · exact h.2 j copy hj
  · rw [heq]
    refine ⟨?_, fun j copy' hj => ?_⟩
    · show Good ((replace i copy).getD s.value)
      cases hr : replace i copy with
      | none => exact h.1
      | some d => exact hgood i copy d (h.2 i copy hcopy) hr
    · rcases holding_move hj with hfin | hj
      · cases hfin
      · exact h.2 j copy' hj
  · rw [heq]; exact h

theorem allGood_run (hgood : ∀ i d d', Good d → replace i d = some d' → Good d')
    {s₀ : Shared δ ι} (h : AllGood Good s₀) (schedule : List ι) {k : Nat}
    (hk : k ≤ schedule.length) : AllGood Good (stateAt (step replace) s₀ schedule k) := by
  refine stateAt_invariant (AllGood Good) h ?_ k hk
  intro k i hi hs
  rw [stateAt_succ hi]
  exact allGood_step hgood hs i

end Values

/-! ## Writings -/

section Writings
variable [DecidableEq ι] {replace : ι → δ → Option δ} {Has : δ → ι → Prop}

/-- A client's replacement has its own writing, and of the others' exactly what its copy
had. -/
structure Writes (replace : ι → δ → Option δ) (Has : δ → ι → Prop) : Prop where
  self : ∀ i d d', replace i d = some d' → Has d' i
  other : ∀ i j d d', j ≠ i → replace i d = some d' → (Has d' j ↔ Has d j)

/-- What the clients that are finished wrote is there. -/
def Kept (Has : δ → ι → Prop) (s : Shared δ ι) : Prop :=
  ∀ i, s.phase i = .finished → Has s.value i

theorem kept_step (hw : Writes replace Has) {s : Shared δ ι} (h : Kept Has s) {i : ι}
    (hfresh : ¬ Stale replace s i) : Kept Has (step replace s i).1 := by
  rcases step_cases replace s i with
    ⟨p, _, _, hp, _, heq⟩ | ⟨copy, hcopy, heq⟩ | ⟨_, heq⟩
  · rw [heq]
    intro j hj
    rw [move_phase] at hj
    split at hj
    · exact absurd hj hp
    · exact h j hj
  · have hvalue : s.value = copy := not_not.mp fun hne => hfresh ⟨copy, hcopy, .inl hne⟩
    obtain ⟨d, hd⟩ : ∃ d, replace i copy = some d :=
      Option.ne_none_iff_exists'.mp fun hnone => hfresh ⟨copy, hcopy, .inr hnone⟩
    rw [heq]
    intro j hj
    show Has ((replace i copy).getD s.value) j
    rw [hd, Option.getD_some]
    by_cases hji : j = i
    · rw [hji]; exact hw.self i copy d hd
    · have hold : (s.move i .finished).phase j = .finished := hj
      rw [move_phase, if_neg hji] at hold
      rw [hw.other i j copy d hji hd, ← hvalue]
      exact h j hold
  · rw [heq]; exact h

theorem kept_run (hw : Writes replace Has) {s₀ : Shared δ ι} (h : Kept Has s₀)
    {schedule : List ι}
    (hfresh : ∀ k i, schedule[k]? = some i →
      ¬ Stale replace (stateAt (step replace) s₀ schedule k) i) {k : Nat}
    (hk : k ≤ schedule.length) : Kept Has (stateAt (step replace) s₀ schedule k) := by
  refine stateAt_invariant (Kept Has) h ?_ k hk
  intro k i hi hs
  rw [stateAt_succ hi]
  exact kept_step hw hs (hfresh k i hi)

/-! ## Counting -/

variable [Fintype ι]

open Classical in
/-- How many clients' writings a value has. -/
noncomputable def written (Has : δ → ι → Prop) (d : δ) : Nat :=
  (Finset.univ.filter (Has d)).card

open Classical in
/-- How many clients have replaced the value. -/
noncomputable def finishedCount (s : Shared δ ι) : Nat :=
  (Finset.univ.filter fun i => s.phase i = .finished).card

theorem finishedCount_move {s : Shared δ ι} {i : ι} {p : Phase δ} (hi : s.phase i ≠ .finished)
    (hp : p ≠ .finished) : finishedCount (s.move i p) = finishedCount s := by
  classical
  unfold finishedCount
  congr 1
  ext j
  rw [Finset.mem_filter, Finset.mem_filter, move_phase]
  by_cases hj : j = i
  · rw [if_pos hj, hj]
    exact iff_of_false (fun h => hp h.2) (fun h => hi h.2)
  · rw [if_neg hj]

theorem finishedCount_replace {s : Shared δ ι} {i : ι} {d : δ} (hi : s.phase i ≠ .finished) :
    finishedCount { s.move i .finished with value := d } = finishedCount s + 1 := by
  classical
  have hnot : i ∉ Finset.univ.filter fun j => s.phase j = .finished := by simp [hi]
  unfold finishedCount
  rw [← Finset.card_insert_of_notMem hnot]
  congr 1
  ext j
  rw [Finset.mem_insert, Finset.mem_filter, Finset.mem_filter]
  show _ ∧ (s.move i .finished).phase j = .finished ↔ _
  rw [move_phase]
  by_cases hj : j = i
  · rw [if_pos hj]
    exact iff_of_true ⟨Finset.mem_univ j, rfl⟩ (.inl hj)
  · rw [if_neg hj, or_iff_right hj]

omit [DecidableEq ι] in
/-- A replacement adds one writing at most. -/
theorem written_replace (hw : Writes replace Has) {i : ι} {d d' : δ}
    (h : replace i d = some d') : written Has d' ≤ written Has d + 1 := by
  classical
  unfold written
  refine (Finset.card_le_card ?_).trans (Finset.card_insert_le i _)
  intro j hj
  rw [Finset.mem_insert]
  by_cases hji : j = i
  · exact .inl hji
  · rw [Finset.mem_filter] at hj
    exact .inr (Finset.mem_filter.mpr ⟨hj.1, (hw.other i j d d' hji h).mp hj.2⟩)

/-- The value has no more writings than there were replacements, and a copy that is not
the value has fewer. -/
def Counted (Has : δ → ι → Prop) (s : Shared δ ι) : Prop :=
  written Has s.value ≤ finishedCount s ∧ ∀ i copy, s.phase i = .holding copy →
    copy = s.value ∨ written Has copy < finishedCount s

/-- The value and every copy have fewer writings than there were replacements. -/
def Behind (Has : δ → ι → Prop) (s : Shared δ ι) : Prop :=
  written Has s.value < finishedCount s ∧ ∀ i copy, s.phase i = .holding copy →
    written Has copy < finishedCount s

/-- After a replacement the counts are behind if nothing had more writings than there were
replacements, and neither has the new value. -/
theorem behind_replace {s : Shared δ ι} {i : ι} {d : δ} (hi : s.phase i ≠ .finished)
    (hd : written Has d ≤ finishedCount s)
    (hcopies : ∀ j copy, s.phase j = .holding copy → written Has copy ≤ finishedCount s) :
    Behind Has { s.move i .finished with value := d } := by
  have hcount := finishedCount_replace (d := d) hi
  refine ⟨?_, fun j copy hj => ?_⟩
  · rw [hcount]
    exact Nat.lt_succ_of_le hd
  · rw [hcount]
    rcases holding_move hj with hp | hj
    · cases hp
    · exact Nat.lt_succ_of_le (hcopies j copy hj)

theorem behind_step (hw : Writes replace Has) {s : Shared δ ι} (h : Behind Has s) (i : ι) :
    Behind Has (step replace s i).1 := by
  rcases step_cases replace s i with
    ⟨p, hi, _, hne, hp, heq⟩ | ⟨copy, hcopy, heq⟩ | ⟨_, heq⟩
  · rw [heq]
    have hcount := finishedCount_move hi hne
    refine ⟨hcount ▸ h.1, fun j copy hj => ?_⟩
    rw [hcount]
    rcases holding_move hj with hcopy | hj
    · exact hp copy hcopy ▸ h.1
    · exact h.2 j copy hj
  · rw [heq]
    refine behind_replace (by rw [hcopy]; exact nofun) ?_
      fun j copy hj => Nat.le_of_lt (h.2 j copy hj)
    cases hr : replace i copy with
    | none => exact Nat.le_of_lt h.1
    | some d => exact (written_replace hw hr).trans (h.2 i copy hcopy)
  · rw [heq]; exact h

omit [DecidableEq ι] in
theorem Counted.copies {s : Shared δ ι} (h : Counted Has s) {i : ι} {copy : δ}
    (hi : s.phase i = .holding copy) : written Has copy ≤ finishedCount s := by
  rcases h.2 i copy hi with rfl | hlt
  · exact h.1
  · exact Nat.le_of_lt hlt

/-- After a stale replacement the counts are behind. -/
theorem behind_of_stale (hw : Writes replace Has) {s : Shared δ ι} (h : Counted Has s) {i : ι}
    (hstale : Stale replace s i) : Behind Has (step replace s i).1 := by
  obtain ⟨copy, hcopy, hne⟩ := hstale
  have heq : (step replace s i).1 =
      { s.move i .finished with value := (replace i copy).getD s.value } := by
    unfold step
    rw [hcopy]
  rw [heq]
  refine behind_replace (by rw [hcopy]; exact nofun) ?_ fun j copy hj => h.copies hj
  cases hr : replace i copy with
  | none => exact h.1
  | some d =>
    rw [hr] at hne
    have hlt := (h.2 i copy hcopy).resolve_left fun he => hne.elim (· he.symm) nofun
    exact (written_replace hw hr).trans hlt

/-- Any other step keeps the counts. -/
theorem counted_step (hw : Writes replace Has) {s : Shared δ ι} (h : Counted Has s) {i : ι}
    (hfresh : ¬ Stale replace s i) : Counted Has (step replace s i).1 := by
  rcases step_cases replace s i with
    ⟨p, hi, _, hne, hp, heq⟩ | ⟨copy, hcopy, heq⟩ | ⟨_, heq⟩
  · rw [heq]
    have hcount := finishedCount_move hi hne
    refine ⟨hcount ▸ h.1, fun j copy hj => ?_⟩
    rw [hcount]
    rcases holding_move hj with hcopy | hj
    · exact .inl (hp copy hcopy)
    · exact h.2 j copy hj
  · have hvalue : s.value = copy := not_not.mp fun hne => hfresh ⟨copy, hcopy, .inl hne⟩
    obtain ⟨d, hd⟩ : ∃ d, replace i copy = some d :=
      Option.ne_none_iff_exists'.mp fun hnone => hfresh ⟨copy, hcopy, .inr hnone⟩
    rw [heq, hd, Option.getD_some]
    have hcount := finishedCount_replace (i := i) (d := d) (by rw [hcopy]; exact nofun)
    refine ⟨?_, fun j copy' hj => .inr ?_⟩
    · rw [hcount]
      exact (written_replace hw hd).trans (Nat.succ_le_succ (hvalue ▸ h.1))
    · rw [hcount]
      rcases holding_move hj with hfin | hj
      · cases hfin
      · exact Nat.lt_succ_of_le (h.copies hj)
  · rw [heq]; exact h

theorem counted_or_behind (hw : Writes replace Has) {s₀ : Shared δ ι} (h : Counted Has s₀)
    (schedule : List ι) {k : Nat} (hk : k ≤ schedule.length) :
    Behind Has (stateAt (step replace) s₀ schedule k) ∨
      Counted Has (stateAt (step replace) s₀ schedule k) ∧ ∀ j i, j < k → schedule[j]? = some i →
        ¬ Stale replace (stateAt (step replace) s₀ schedule j) i := by
  induction k with
  | zero => exact .inr ⟨h, fun j i hj => absurd hj (Nat.not_lt_zero j)⟩
  | succ k ih =>
    have hi := List.getElem?_eq_getElem (l := schedule) (i := k) (by omega)
    generalize schedule[k] = i at hi
    rw [stateAt_succ hi]
    rcases ih (by omega) with hbehind | ⟨hcount, hfresh⟩
    · exact .inl (behind_step hw hbehind i)
    · by_cases hstale : Stale replace (stateAt (step replace) s₀ schedule k) i
      · exact .inl (behind_of_stale hw hcount hstale)
      · refine .inr ⟨counted_step hw hcount hstale, fun j i' hj hi' => ?_⟩
        rcases Nat.lt_succ_iff_lt_or_eq.mp hj with hlt | rfl
        · exact hfresh j i' hlt hi'
        · rwa [← Option.some.inj (hi.symm.trans hi')]

omit [DecidableEq ι] in
/-- Nothing is behind where everything is written. -/
theorem not_behind {s : Shared δ ι} (h : ∀ i, Has s.value i) : ¬ Behind Has s := by
  classical
  intro hbehind
  have hall : written Has s.value = Fintype.card ι := by
    unfold written
    rw [Finset.filter_true_of_mem fun i _ => h i, Finset.card_univ]
  have hle : finishedCount s ≤ Fintype.card ι := Finset.card_le_univ _
  have hlt := hbehind.1
  omega

/-- If everything is there in the end and nothing was at the beginning, no replacement was
stale. -/
theorem fresh_of_kept (hw : Writes replace Has) {s₀ : Shared δ ι}
    (hstart : ∀ i copy, s₀.phase i ≠ .holding copy) (hnew : ∀ i, ¬ Has s₀.value i)
    {schedule : List ι}
    (hend : ∀ i, Has (stateAt (step replace) s₀ schedule schedule.length).value i) {k : Nat}
    {i : ι} (hi : schedule[k]? = some i) :
    ¬ Stale replace (stateAt (step replace) s₀ schedule k) i := by
  have hzero : written Has s₀.value = 0 := by
    classical
    unfold written
    rw [Finset.filter_false_of_mem fun i _ => hnew i, Finset.card_empty]
  have hcount : Counted Has s₀ :=
    ⟨hzero ▸ Nat.zero_le _, fun i copy hcopy => absurd hcopy (hstart i copy)⟩
  have hk := (List.getElem?_eq_some_iff.mp hi).1
  rcases counted_or_behind hw hcount schedule (Nat.le_refl _) with hbehind | ⟨_, hfresh⟩
  · exact absurd hbehind (not_behind hend)
  · exact hfresh k i hk hi

end Writings

end LoPhi.Lib.ReadModifyReplace
