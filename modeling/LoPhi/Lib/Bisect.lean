import Mathlib.Data.List.Sort
import Mathlib.Order.Defs.LinearOrder

/-! # Bisection

`bisect.bisect` of Python: the place in a sorted list after everything that is not greater than a
value, found by halving. -/

namespace LoPhi.Lib.Bisect

variable {α : Type*} [LinearOrder α]

/-- The loop, with a bound on its turns. A place outside the list is never looked at. -/
def bisectLoop (a : List α) (x : α) : Nat → Nat → Nat → Nat
  | 0, lo, _ => lo
  | fuel + 1, lo, hi =>
    if lo < hi then
      let mid := (lo + hi) / 2
      match a[mid]? with
      | none => lo
      | some y => if x < y then bisectLoop a x fuel lo mid else bisectLoop a x fuel (mid + 1) hi
    else lo

/-- `bisect.bisect(a, x)`. Every turn makes the stretch shorter, so that its length is enough. -/
def bisect (a : List α) (x : α) : Nat := bisectLoop a x a.length 0 a.length

/-- A place that divides a list into what is not greater than the value and what is. -/
structure Divides (a : List α) (x : α) (lo hi : Nat) : Prop where
  before : ∀ i y, i < lo → a[i]? = some y → y ≤ x
  after : ∀ i y, hi ≤ i → a[i]? = some y → x < y

variable {a : List α} {x : α}

theorem bisectLoop_le (fuel lo hi : Nat) (hlo : lo ≤ hi) : bisectLoop a x fuel lo hi ≤ hi := by
  induction fuel generalizing lo hi with
  | zero => exact hlo
  | succ fuel ih =>
    unfold bisectLoop
    split
    · dsimp only
      split
      · omega
      · split
        · exact Nat.le_trans (ih lo _ (by omega)) (by omega)
        · exact ih _ hi (by omega)
    · exact hlo

theorem bisect_le (a : List α) (x : α) : bisect a x ≤ a.length :=
  bisectLoop_le a.length 0 a.length (Nat.zero_le _)

theorem getElem?_le (hsorted : a.Pairwise (· ≤ ·)) {i j : Nat} {y z : α} (hij : i ≤ j)
    (hy : a[i]? = some y) (hz : a[j]? = some z) : y ≤ z := by
  obtain ⟨hi, rfl⟩ := List.getElem?_eq_some_iff.mp hy
  obtain ⟨hj, rfl⟩ := List.getElem?_eq_some_iff.mp hz
  rcases Nat.lt_or_eq_of_le hij with hlt | rfl
  · exact List.pairwise_iff_getElem.mp hsorted i j hi hj hlt
  · exact le_refl _

theorem bisectLoop_divides (hsorted : a.Pairwise (· ≤ ·)) (fuel lo hi : Nat)
    (hfuel : hi - lo ≤ fuel) (hlo : lo ≤ hi) (hhi : hi ≤ a.length) (h : Divides a x lo hi) :
    Divides a x (bisectLoop a x fuel lo hi) (bisectLoop a x fuel lo hi) := by
  induction fuel generalizing lo hi with
  | zero =>
    have heq : hi = lo := by omega
    rw [heq] at h
    exact h
  | succ fuel ih =>
    unfold bisectLoop
    split
    · rename_i hlt
      dsimp only
      have hmid : (lo + hi) / 2 < a.length := by omega
      rw [List.getElem?_eq_getElem hmid]
      have hget := List.getElem?_eq_getElem hmid
      dsimp only
      split
      · rename_i hless
        refine ih lo _ (by omega) (by omega) (by omega) ⟨h.before, fun i y hi hy => ?_⟩
        exact lt_of_lt_of_le hless (getElem?_le hsorted hi hget hy)
      · rename_i hmore
        refine ih _ hi (by omega) (by omega) hhi ⟨fun i y hi hy => ?_, h.after⟩
        exact le_trans (getElem?_le hsorted (by omega) hy hget) (not_lt.mp hmore)
    · rename_i hge
      have heq : hi = lo := by omega
      rw [heq] at h
      exact h

/-- In a sorted list, bisection finds where the greater values begin. -/
theorem bisect_append {left right : List α} (hsorted : (left ++ right).Pairwise (· ≤ ·))
    (hleft : ∀ y ∈ left, y ≤ x) (hright : ∀ y ∈ right, x < y) :
    bisect (left ++ right) x = left.length := by
  obtain ⟨hbefore, hafter⟩ := bisectLoop_divides (x := x) hsorted _ 0
    (left ++ right).length (Nat.sub_le _ _) (Nat.zero_le _) (Nat.le_refl _)
    ⟨fun i y hi _ => absurd hi (Nat.not_lt_zero i), fun i y hi hy => by
      rw [List.getElem?_eq_none hi] at hy
      cases hy⟩
  have hle := bisect_le (left ++ right) x
  change ∀ i y, i < bisect (left ++ right) x → _ at hbefore
  change ∀ i y, bisect (left ++ right) x ≤ i → _ at hafter
  rcases Nat.lt_trichotomy (bisect (left ++ right) x) left.length with hlt | heq | hgt
  · have hget : (left ++ right)[bisect (left ++ right) x]? =
        some (left.get ⟨bisect (left ++ right) x, hlt⟩) := by
      rw [List.getElem?_append_left hlt, List.getElem?_eq_getElem hlt, List.get_eq_getElem]
    exact absurd (hafter _ _ (Nat.le_refl _) hget) (not_lt.mpr (hleft _ (List.get_mem _ _)))
  · exact heq
  · cases right with
    | nil =>
      rw [List.append_nil] at hle hgt
      omega
    | cons y right =>
      have hget : (left ++ y :: right)[left.length]? = some y := by simp
      exact absurd (hbefore _ _ hgt hget) (not_le.mpr (hright y List.mem_cons_self))

/-- Every value divides a sorted list. -/
theorem exists_divided (hsorted : a.Pairwise (· ≤ ·)) (x : α) :
    ∃ left right, a = left ++ right ∧ (∀ y ∈ left, y ≤ x) ∧ ∀ y ∈ right, x < y := by
  induction a with
  | nil => exact ⟨[], [], rfl, by simp, by simp⟩
  | cons y a ih =>
    obtain ⟨hhead, htail⟩ := List.pairwise_cons.mp hsorted
    by_cases hy : y ≤ x
    · obtain ⟨left, right, rfl, hleft, hright⟩ := ih htail
      exact ⟨y :: left, right, rfl, List.forall_mem_cons.mpr ⟨hy, hleft⟩, hright⟩
    · refine ⟨[], y :: a, rfl, by simp, List.forall_mem_cons.mpr ⟨not_le.mp hy, fun z hz => ?_⟩⟩
      exact lt_of_lt_of_le (not_le.mp hy) (hhead z hz)

end LoPhi.Lib.Bisect
