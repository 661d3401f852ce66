import Mathlib.Data.List.Basic
import Mathlib.Data.List.Nodup
import Mathlib.Logic.Function.Basic

/-! # Linked lists

A memory holds for each address a link to the next. A segment is the list of addresses that the
links run through from one pointer to another; `none` is the null pointer. The rules say what
becomes of a segment where an address is linked in behind its last one or is linked out. -/

namespace LoPhi.Lib.Linked

variable {A : Type*} {next : A → Option A} {p q : Option A} {a b : A} {l m : List A}

/-- The links lead from `p` through the addresses to `q`. -/
def Segment (next : A → Option A) : Option A → List A → Option A → Prop
  | p, [], q => p = q
  | p, a :: l, q => p = some a ∧ Segment next (next a) l q

theorem segment_append :
    Segment next p (l ++ m) q ↔ ∃ r, Segment next p l r ∧ Segment next r m q := by
  induction l generalizing p with
  | nil =>
    constructor
    · intro h
      exact ⟨p, rfl, h⟩
    · rintro ⟨r, rfl, h⟩
      exact h
  | cons a l ih =>
    constructor
    · rintro ⟨hp, h⟩
      obtain ⟨r, hl, hm⟩ := ih.mp h
      exact ⟨r, ⟨hp, hl⟩, hm⟩
    · rintro ⟨r, ⟨hp, hl⟩, hm⟩
      exact ⟨hp, ih.mpr ⟨r, hl, hm⟩⟩

/-- Only the links of its own addresses matter. -/
theorem Segment.congr {next' : A → Option A} (h : Segment next p l q)
    (heq : ∀ a ∈ l, next' a = next a) : Segment next' p l q := by
  induction l generalizing p with
  | nil => exact h
  | cons a l ih =>
    refine ⟨h.1, ?_⟩
    rw [heq a (by simp)]
    exact ih h.2 fun b hb => heq b (by simp [hb])

/-- From one pointer to null there is one way. -/
theorem Segment.unique (hl : Segment next p l none) (hm : Segment next p m none) : l = m := by
  induction l generalizing p m with
  | nil =>
    cases m with
    | nil => rfl
    | cons b m => cases hl.symm.trans hm.1
  | cons a l ih =>
    cases m with
    | nil => cases hl.1.symm.trans hm
    | cons b m =>
      cases hl.1.symm.trans hm.1
      rw [ih hl.2 hm.2]

theorem Segment.head (h : Segment next p l none) : p = l.head? := by
  cases l with
  | nil => exact h
  | cons a l => exact h.1

theorem Segment.next_eq (h : Segment next p (l ++ a :: m) none) : next a = m.head? := by
  obtain ⟨r, -, -, hm⟩ := segment_append.mp h
  exact hm.head

section Relink
variable [DecidableEq A]

/-- The links after one of them is set, if there is one to set. -/
def relink (next : A → Option A) (p v : Option A) : A → Option A :=
  match p with
  | none => next
  | some a => Function.update next a v

theorem relink_of_ne {v : Option A} (h : p ≠ some a) : relink next p v a = next a := by
  cases p with
  | none => rfl
  | some b => exact Function.update_of_ne (fun heq => h (congrArg some heq.symm)) _ _

/-- Setting the last link, or the pointer itself, makes the segment lead elsewhere. -/
theorem Segment.redirect (h : Segment next p l q) (hnodup : l.Nodup) (v : Option A) :
    Segment (relink next l.getLast? v) (if l = [] then v else p) l v := by
  rcases List.eq_nil_or_concat l with rfl | ⟨k, b, rfl⟩
  · rfl
  · rw [List.concat_eq_append] at *
    rw [if_neg (by simp), List.getLast?_concat]
    obtain ⟨r, hk, hr, -⟩ := segment_append.mp h
    refine segment_append.mpr ⟨r, hk.congr fun c hc => ?_, hr, Function.update_self _ _ _⟩
    refine Function.update_of_ne ?_ _ _
    rintro rfl
    exact List.disjoint_of_nodup_append hnodup hc (by simp)

/-- A new address behind the last one. -/
theorem Segment.push (h : Segment next p l none) (hnodup : l.Nodup) (hb : b ∉ l)
    (hnext : next b = none) :
    Segment (relink next l.getLast? (some b)) (if p = none then some b else p) (l ++ [b])
      none := by
  have hp : (if p = none then some b else p) = if l = [] then some b else p := by
    simp only [h.head, List.head?_eq_none_iff]
  rw [hp]
  refine segment_append.mpr ⟨some b, h.redirect hnodup _, rfl, ?_⟩
  rw [relink_of_ne]
  · exact hnext
  · intro hlast
    exact hb (List.mem_of_getLast? hlast)

/-- An address linked out. -/
theorem Segment.unlink (h : Segment next p (l ++ a :: m) q) (hnodup : (l ++ a :: m).Nodup) :
    Segment (relink next l.getLast? (next a)) (if p = some a then next a else p) (l ++ m) q := by
  obtain ⟨r, hl, hr, hm⟩ := segment_append.mp h
  have hdisjoint := List.disjoint_of_nodup_append hnodup
  have hp : (if p = some a then next a else p) = if l = [] then next a else p := by
    cases l with
    | nil =>
      obtain rfl := hl
      rw [if_pos hr, if_pos rfl]
    | cons c l =>
      have hne : p ≠ some a := by
        rw [hl.1]
        intro heq
        obtain rfl := Option.some.inj heq
        exact hdisjoint (List.mem_cons_self) List.mem_cons_self
      rw [if_neg hne, if_neg (by simp)]
  rw [hp]
  refine segment_append.mpr ⟨next a, hl.redirect hnodup.of_append_left _, ?_⟩
  refine hm.congr fun c hc => relink_of_ne fun hlast => ?_
  exact hdisjoint (List.mem_of_getLast? hlast) (by simp [hc])

/-- The last address once one is linked out. -/
theorem getLast?_unlink (hnodup : (l ++ a :: m).Nodup) :
    (if (l ++ a :: m).getLast? = some a then l.getLast? else (l ++ a :: m).getLast?) =
      (l ++ m).getLast? := by
  rcases List.eq_nil_or_concat m with rfl | ⟨k, b, rfl⟩
  · rw [List.getLast?_concat, if_pos rfl, List.append_nil]
  · rw [List.concat_eq_append] at *
    rw [← List.cons_append, ← List.append_assoc, ← List.append_assoc, List.getLast?_concat,
      List.getLast?_concat, if_neg]
    intro heq
    obtain rfl := Option.some.inj heq
    have htail := hnodup.of_append_right
    exact (List.nodup_cons.mp htail).1 (by simp)

end Relink

end LoPhi.Lib.Linked
