import Mathlib.Data.List.Basic
import Mathlib.Data.List.Count

/-! # Records and the lists that follow them

A table of records, each found by its index and changed in place, and beside it
a list that is kept by hand. `owes r` is the entry that a record should have at
the moment, if it should have one. Two ways of keeping the list right are common:
it names exactly the records that owe an entry (`Listing`), or it holds what is
left of a stock while the records have the rest (`Stock`). Both are equations
between counts, and each has one rule for each way of changing a record. -/

namespace LoPhi.Lib.Ledger

variable {ρ κ : Type} [DecidableEq κ]

section Modify
variable {rs : List ρ} {e : Nat} {r : ρ}

omit [DecidableEq κ] in
theorem countP_modify (p : ρ → Bool) (f : ρ → ρ) (h : rs[e]? = some r) :
    (rs.modify e f).countP p + (if p r then 1 else 0) =
      rs.countP p + if p (f r) then 1 else 0 := by
  induction rs generalizing e with
  | nil => cases h
  | cons a rs ih =>
    cases e with
    | zero =>
      obtain rfl := Option.some.inj h
      rw [List.modify_zero_cons, List.countP_cons, List.countP_cons]
      omega
    | succ e =>
      have hrest := ih (e := e) h
      rw [List.modify_succ_cons, List.countP_cons, List.countP_cons]
      omega

/-- The record after a change is the changed one or one that was there. -/
theorem getElem?_modify_cases {f : ρ → ρ} {e' : Nat} (h : (rs.modify e f)[e']? = some r) :
    (e' = e ∧ ∃ r₀, rs[e']? = some r₀ ∧ r = f r₀) ∨ (e' ≠ e ∧ rs[e']? = some r) := by
  by_cases he : e = e'
  · subst he
    rw [List.getElem?_modify_eq] at h
    obtain ⟨r₀, hr₀, hr⟩ := Option.map_eq_some_iff.mp h
    exact .inl ⟨rfl, r₀, hr₀, hr.symm⟩
  · rw [List.getElem?_modify_ne f rs he] at h
    exact .inr ⟨Ne.symm he, h⟩

theorem map_modify {τ : Type} {f : ρ → ρ} {g : ρ → τ} (hkeep : ∀ r, g (f r) = g r)
    (rs : List ρ) (e : Nat) : (rs.modify e f).map g = rs.map g := by
  induction rs generalizing e with
  | nil => rw [List.modify_nil]
  | cons r rs ih =>
    cases e with
    | zero => rw [List.modify_zero_cons, List.map_cons, List.map_cons, hkeep]
    | succ e => rw [List.modify_succ_cons, List.map_cons, List.map_cons, ih]

/-- The total weight of the records. -/
def total (w : ρ → Nat) : List ρ → Nat
  | [] => 0
  | r :: rs => w r + total w rs

theorem total_modify (w : ρ → Nat) (f : ρ → ρ) (h : rs[e]? = some r) :
    total w (rs.modify e f) + w r = total w rs + w (f r) := by
  induction rs generalizing e with
  | nil => cases h
  | cons a rs ih =>
    cases e with
    | zero =>
      obtain rfl := Option.some.inj h
      rw [List.modify_zero_cons, total, total]
      omega
    | succ e =>
      have hrest := ih (e := e) h
      rw [List.modify_succ_cons, total, total]
      omega

end Modify

/-- How many records owe the entry `k`. -/
def owing (owes : ρ → Option κ) (k : κ) (rs : List ρ) : Nat :=
  rs.countP fun r => owes r = some k

/-- The list has an entry for each record that owes one, and no other. -/
def Listing (owes : ρ → Option κ) (l : List κ) (rs : List ρ) : Prop :=
  ∀ k, l.count k = owing owes k rs

/-- What is in the list and what the records have is the whole stock. -/
def Stock (owes : ρ → Option κ) (whole l : List κ) (rs : List ρ) : Prop :=
  ∀ k, l.count k + owing owes k rs = whole.count k

section Rules
variable {owes : ρ → Option κ} {whole l : List κ} {rs : List ρ} {e : Nat} {r : ρ} {f : ρ → ρ}
  {k : κ}

theorem owing_modify (owes : ρ → Option κ) (f : ρ → ρ) (h : rs[e]? = some r) (k : κ) :
    owing owes k (rs.modify e f) + (if owes r = some k then 1 else 0) =
      owing owes k rs + if owes (f r) = some k then 1 else 0 := by
  simpa [owing] using countP_modify (fun r => owes r = some k) f h

theorem owing_concat (k : κ) :
    owing owes k (rs ++ [r]) = owing owes k rs + if owes r = some k then 1 else 0 := by
  simp [owing, List.countP_append]

/-- A change that leaves the entry of the record as it is. -/
theorem owing_keep (hkeep : ∀ r, rs[e]? = some r → owes (f r) = owes r) (k : κ) :
    owing owes k (rs.modify e f) = owing owes k rs := by
  cases h : rs[e]? with
  | none => rw [List.modify_eq_self (List.getElem?_eq_none_iff.mp h)]
  | some r =>
    have hmodify := owing_modify owes f h k
    rw [hkeep r h] at hmodify
    omega

theorem owing_pos (h : rs[e]? = some r) (hk : owes r = some k) : 0 < owing owes k rs :=
  List.countP_pos_iff.mpr ⟨r, List.mem_of_getElem? h, decide_eq_true hk⟩

theorem exists_of_owing_pos (h : 0 < owing owes k rs) :
    ∃ (e : Nat) (r : ρ), rs[e]? = some r ∧ owes r = some k := by
  obtain ⟨r, hr, hk⟩ := List.countP_pos_iff.mp h
  obtain ⟨e, he⟩ := List.getElem?_of_mem hr
  exact ⟨e, r, he, of_decide_eq_true hk⟩

namespace Listing

theorem nil : Listing owes [] [] := fun _ => rfl

theorem keep (hl : Listing owes l rs) (hkeep : ∀ r, rs[e]? = some r → owes (f r) = owes r) :
    Listing owes l (rs.modify e f) := by
  intro k
  rw [owing_keep hkeep k]
  exact hl k

theorem keepAt (hl : Listing owes l rs) (h : rs[e]? = some r) (hkeep : owes (f r) = owes r) :
    Listing owes l (rs.modify e f) := by
  refine hl.keep fun r' hr' => ?_
  obtain rfl := Option.some.inj (h.symm.trans hr')
  exact hkeep

/-- A record comes to owe an entry, and the entry is added. -/
theorem enter (hl : Listing owes l rs) (h : rs[e]? = some r) (hno : owes r = none)
    (hk : owes (f r) = some k) : Listing owes (l ++ [k]) (rs.modify e f) := by
  intro k'
  have hmodify := owing_modify owes f h k'
  rw [hno, hk, if_neg nofun] at hmodify
  simp only [Option.some.injEq] at hmodify
  rw [List.count_append, List.count_singleton, hl k']
  simp only [beq_iff_eq]
  omega

/-- A record no longer owes an entry, and the entry is removed. -/
theorem leave (hl : Listing owes l rs) (h : rs[e]? = some r) (hk : owes r = some k)
    (hno : owes (f r) = none) : Listing owes (l.erase k) (rs.modify e f) := by
  intro k'
  have hmodify := owing_modify owes f h k'
  rw [hno, hk, if_neg (c := none = some k') nofun] at hmodify
  rw [List.count_erase, hl k']
  by_cases hkk : k = k'
  · rw [if_pos (by rw [hkk])] at hmodify
    rw [if_pos (beq_iff_eq.mpr hkk)]
    omega
  · rw [if_neg (fun heq => hkk (Option.some.inj heq))] at hmodify
    rw [if_neg (fun heq => hkk (beq_iff_eq.mp heq))]
    omega

/-- A new record that owes nothing. -/
theorem new (hl : Listing owes l rs) (hno : owes r = none) : Listing owes l (rs ++ [r]) := by
  intro k
  rw [owing_concat, hno, if_neg nofun]
  exact hl k

theorem mem (hl : Listing owes l rs) (h : rs[e]? = some r) (hk : owes r = some k) : k ∈ l := by
  rw [← List.count_pos_iff, hl k]
  exact owing_pos h hk

theorem exists_of_mem (hl : Listing owes l rs) (hk : k ∈ l) :
    ∃ (e : Nat) (r : ρ), rs[e]? = some r ∧ owes r = some k := by
  refine exists_of_owing_pos ?_
  rw [← hl k]
  exact List.count_pos_iff.mpr hk

end Listing

namespace Stock

theorem full : Stock owes whole whole [] := fun _ => rfl

theorem keep (hl : Stock owes whole l rs)
    (hkeep : ∀ r, rs[e]? = some r → owes (f r) = owes r) :
    Stock owes whole l (rs.modify e f) := by
  intro k
  rw [owing_keep hkeep k]
  exact hl k

theorem keepAt (hl : Stock owes whole l rs) (h : rs[e]? = some r) (hkeep : owes (f r) = owes r) :
    Stock owes whole l (rs.modify e f) := by
  refine hl.keep fun r' hr' => ?_
  obtain rfl := Option.some.inj (h.symm.trans hr')
  exact hkeep

/-- A record gets the first of what is left. -/
theorem take (hl : Stock owes whole (k :: l) rs) (h : rs[e]? = some r) (hno : owes r = none)
    (hk : owes (f r) = some k) : Stock owes whole l (rs.modify e f) := by
  intro k'
  have hmodify := owing_modify owes f h k'
  rw [hno, hk, if_neg nofun] at hmodify
  have hall := hl k'
  rw [List.count_cons] at hall
  simp only [Option.some.injEq] at hmodify
  simp only [beq_iff_eq] at hall
  omega

/-- A record puts back what it has. -/
theorem put (hl : Stock owes whole l rs) (h : rs[e]? = some r) (hk : owes r = some k)
    (hno : owes (f r) = none) : Stock owes whole (l ++ [k]) (rs.modify e f) := by
  intro k'
  have hmodify := owing_modify owes f h k'
  rw [hno, hk, if_neg (c := none = some k') nofun] at hmodify
  have hall := hl k'
  rw [List.count_append, List.count_singleton]
  simp only [Option.some.injEq] at hmodify
  simp only [beq_iff_eq]
  omega

theorem new (hl : Stock owes whole l rs) (hno : owes r = none) :
    Stock owes whole l (rs ++ [r]) := by
  intro k
  rw [owing_concat, hno, if_neg nofun]
  exact hl k

end Stock

end Rules

end LoPhi.Lib.Ledger
