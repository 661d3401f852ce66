import Mathlib.Logic.Relation

/-! # Chains of references

Every element refers to at most one other. From an element the references lead along one chain,
which ends, or comes back to an element it has been at. -/

namespace LoPhi.Lib.Chain
open Relation

variable {α : Type} {up : α → Option α} {P : α → Prop} {a b : α}

/-- The element refers to the other. -/
def Refers (up : α → Option α) (a b : α) : Prop := up a = some b

/-- The chain from the element comes to one that leads back to itself. -/
def Cyclic (up : α → Option α) (a : α) : Prop :=
  ∃ b, ReflTransGen (Refers up) a b ∧ TransGen (Refers up) b b

/-- The chain leads from the element to another one with the property, or back to itself. -/
def Meets (up : α → Option α) (P : α → Prop) (a : α) : Prop :=
  ∃ b, TransGen (Refers up) a b ∧ P b

/-- All that is above an element is above what it refers to, or is that. -/
theorem transGen_iff (h : up a = some b) {c : α} :
    TransGen (Refers up) a c ↔ ReflTransGen (Refers up) b c := by
  rw [TransGen.head'_iff]
  constructor
  · rintro ⟨b', hb', hreach⟩
    cases hb'.symm.trans h
    exact hreach
  · exact fun hreach => ⟨b, h, hreach⟩

theorem not_transGen (h : up a = none) (c : α) : ¬ TransGen (Refers up) a c := by
  rw [TransGen.head'_iff]
  rintro ⟨b, hb, -⟩
  cases hb.symm.trans h

theorem cyclic_iff (h : up a = some b) : Cyclic up a ↔ Cyclic up b := by
  constructor
  · rintro ⟨c, hreach, hcycle⟩
    rcases reflTransGen_iff_eq_or_transGen.mp hreach with rfl | hreach
    · -- the cycle goes through the element itself, and so through what it refers to
      exact ⟨b, .refl, TransGen.tail' ((transGen_iff h).mp hcycle) h⟩
    · exact ⟨c, (transGen_iff h).mp hreach, hcycle⟩
  · rintro ⟨c, hreach, hcycle⟩
    exact ⟨c, .head h hreach, hcycle⟩

theorem not_cyclic (h : up a = none) : ¬ Cyclic up a := by
  rintro ⟨c, hreach, hcycle⟩
  rcases reflTransGen_iff_eq_or_transGen.mp hreach with rfl | hreach
  · exact not_transGen h _ hcycle
  · exact not_transGen h _ hreach

theorem meets_iff (h : up a = some b) : Meets up P a ↔ P b ∨ Meets up P b := by
  constructor
  · rintro ⟨c, hreach, hc⟩
    rcases reflTransGen_iff_eq_or_transGen.mp ((transGen_iff h).mp hreach) with rfl | hreach
    · exact .inl hc
    · exact .inr ⟨c, hreach, hc⟩
  · rintro (hb | ⟨c, hreach, hc⟩)
    · exact ⟨b, .single h, hb⟩
    · exact ⟨c, .head h hreach, hc⟩

theorem not_meets (h : up a = none) : ¬ Meets up P a :=
  fun ⟨_, hreach, _⟩ => not_transGen h _ hreach

end LoPhi.Lib.Chain
