import Mathlib.Data.List.Basic
import Mathlib.Data.List.TakeDrop

/-! # Objects called again and again

An object with internal state is a step function: the state before a call and
the call's argument give the state after it and what the call hands back. Runs
are lists of arguments. The rules below carry one-call facts to whole runs:
what every call preserves holds throughout, a relation that every call keeps
makes two runs answer alike, and a call that changes nothing can be inserted
anywhere. Nothing here names a particular object. -/

namespace LoPhi.Lib.Machine

variable {σ ι ω : Type*}

/-- The state after the calls `is`, made one after the other from `s`. -/
def run (step : σ → ι → σ × ω) (s : σ) : List ι → σ
  | [] => s
  | i :: is => run step (step s i).1 is

/-- What each of the calls hands back, in order. -/
def outputs (step : σ → ι → σ × ω) (s : σ) : List ι → List ω
  | [] => []
  | i :: is => (step s i).2 :: outputs step (step s i).1 is

/-- The state just before call number `k` (counted from zero). -/
def stateAt (step : σ → ι → σ × ω) (s : σ) (is : List ι) (k : Nat) : σ :=
  run step s (is.take k)

section Basic
variable {step : σ → ι → σ × ω} {s : σ}

@[simp] theorem run_nil : run step s [] = s := rfl

@[simp] theorem run_cons (i : ι) (is : List ι) :
    run step s (i :: is) = run step (step s i).1 is := rfl

@[simp] theorem outputs_nil : outputs step s [] = [] := rfl

@[simp] theorem outputs_cons (i : ι) (is : List ι) :
    outputs step s (i :: is) = (step s i).2 :: outputs step (step s i).1 is := rfl

theorem run_append (is js : List ι) :
    run step s (is ++ js) = run step (run step s is) js := by
  induction is generalizing s with
  | nil => rfl
  | cons i is ih => exact ih

theorem outputs_append (is js : List ι) :
    outputs step s (is ++ js) = outputs step s is ++ outputs step (run step s is) js := by
  induction is generalizing s with
  | nil => rfl
  | cons i is ih => simp [ih]

@[simp] theorem outputs_length (is : List ι) : (outputs step s is).length = is.length := by
  induction is generalizing s with
  | nil => rfl
  | cons i is ih => simp [ih]

@[simp] theorem stateAt_zero (is : List ι) : stateAt step s is 0 = s := rfl

theorem stateAt_succ {is : List ι} {k : Nat} {i : ι} (h : is[k]? = some i) :
    stateAt step s is (k + 1) = (step (stateAt step s is k) i).1 := by
  have ht : is.take (k + 1) = is.take k ++ [i] := by
    rw [List.take_add_one, h]; rfl
  simp only [stateAt, ht, run_append, run_cons, run_nil]

theorem outputs_get {is : List ι} {k : Nat} {i : ι} (h : is[k]? = some i) :
    (outputs step s is)[k]? = some (step (stateAt step s is k) i).2 := by
  induction is generalizing s k with
  | nil => simp at h
  | cons j js ih =>
    cases k with
    | zero =>
      simp only [List.getElem?_cons_zero, Option.some.injEq] at h
      simp [h]
    | succ k =>
      simp only [List.getElem?_cons_succ] at h
      simpa [stateAt] using ih h

end Basic

/-! ## Invariants over runs -/

/-- What every call preserves holds before every call of a run. -/
theorem stateAt_invariant (Inv : σ → Prop) {step : σ → ι → σ × ω} {s : σ} {is : List ι}
    (h0 : Inv s)
    (hstep : ∀ (k : Nat) (i : ι), is[k]? = some i → Inv (stateAt step s is k) →
      Inv (stateAt step s is (k + 1))) :
    ∀ k, k ≤ is.length → Inv (stateAt step s is k) := by
  intro k
  induction k with
  | zero => intro _; exact h0
  | succ k ih =>
    intro hk
    exact hstep k _ (List.getElem?_eq_getElem (by omega)) (ih (by omega))

/-- What holds of each call of a run, call by call. -/
theorem forall_calls {step : σ → ι → σ × ω} {s : σ} {is : List ι} {P : σ → ι → Prop}
    (h : ∀ k : Fin is.length, P (stateAt step s is k) (is.get k)) :
    ∀ k i, is[k]? = some i → P (stateAt step s is k) i := by
  intro k i hi
  obtain ⟨hk, rfl⟩ := List.getElem?_eq_some_iff.mp hi
  exact h ⟨k, hk⟩

/-- An invariant whose preservation by a call is exactly a condition on the
state before and the argument holds throughout a run exactly when every call
of the run meets the condition. -/
theorem throughout_iff {step : σ → ι → σ × ω} {s : σ} (is : List ι) {Inv : σ → Prop}
    {Ok : σ → ι → Prop} (h0 : Inv s)
    (hiff : ∀ s i, Inv s → (Inv (step s i).1 ↔ Ok s i)) :
    (∀ k, k ≤ is.length → Inv (stateAt step s is k)) ↔
      ∀ k i, is[k]? = some i → Ok (stateAt step s is k) i := by
  constructor
  · intro h k i hi
    have hk := (List.getElem?_eq_some_iff.mp hi).1
    have hn := h (k + 1) (by omega)
    rw [stateAt_succ hi] at hn
    exact (hiff _ _ (h k (by omega))).mp hn
  · intro h
    apply stateAt_invariant Inv h0
    intro k i hi hk
    rw [stateAt_succ hi]
    exact (hiff _ _ hk).mpr (h k i hi)

/-! ## Two runs -/

/-- A relation between states that every call keeps, with equal answers, makes
two runs answer alike. -/
theorem outputs_related {step : σ → ι → σ × ω} {R : σ → σ → Prop} {s t : σ}
    (h : ∀ s t i, R s t → R (step s i).1 (step t i).1 ∧ (step s i).2 = (step t i).2)
    (hR : R s t) (is : List ι) : outputs step s is = outputs step t is := by
  induction is generalizing s t with
  | nil => rfl
  | cons i is ih =>
    obtain ⟨hR', ho⟩ := h s t i hR
    rw [outputs_cons, outputs_cons, ho, ih hR']

/-- `js` is `is` with any number of arguments satisfying `P` inserted. -/
inductive Inserted (P : ι → Prop) : List ι → List ι → Prop
  | nil : Inserted P [] []
  | keep {is js : List ι} (i : ι) : Inserted P is js → Inserted P (i :: is) (i :: js)
  | insert {is js : List ι} {i : ι} : P i → Inserted P is js → Inserted P is (i :: js)

/-- Calls that change nothing and answer nothing visible can be inserted
anywhere. -/
theorem outputs_inserted {step : σ → ι → σ × ω} {P : ι → Prop} {visible : ω → Bool}
    {is js : List ι} (hP : ∀ s i, P i → (step s i).1 = s ∧ visible (step s i).2 = false)
    (h : Inserted P is js) (s : σ) :
    (outputs step s js).filter visible = (outputs step s is).filter visible := by
  induction h generalizing s with
  | nil => rfl
  | keep i _ ih => simp only [outputs_cons, List.filter_cons, ih]
  | insert hi _ ih =>
    obtain ⟨hs, hv⟩ := hP s _ hi
    rw [outputs_cons, List.filter_cons_of_neg (by simp [hv]), hs]
    exact ih s

end LoPhi.Lib.Machine
