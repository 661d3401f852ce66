import Mathlib.Data.List.Basic

/-! # Writing over a map again and again

A write is given by the keys it writes and the values they get. After a sequence of writes a key
has what the last write to it wrote. -/

namespace LoPhi.Lib.Overwrite

variable {K V : Type}

/-- The keys of a write and their values. -/
abbrev Written (K V : Type) := K → V → Prop

/-- The second map is the first after the write. -/
structure Overwrites (w : Written K V) (m m' : K → Option V) : Prop where
  written : ∀ {k v}, w k v → m' k = some v
  others : ∀ {k}, (∀ v, ¬ w k v) → m' k = m k

/-- The writes were done one after the other. -/
def Performs : List (Written K V) → (K → Option V) → (K → Option V) → Prop
  | [], m, m' => m' = m
  | w :: ws, m, m' => ∃ between, Overwrites w m between ∧ Performs ws between m'

variable {ws ws' : List (Written K V)} {m m' m'' : K → Option V} {k : K}

theorem Performs.append (h : Performs ws m m') (h' : Performs ws' m' m'') :
    Performs (ws ++ ws') m m'' := by
  induction ws generalizing m with
  | nil =>
    cases h
    exact h'
  | cons w ws ih =>
    obtain ⟨between, hw, hws⟩ := h
    exact ⟨between, hw, ih hws⟩

theorem Performs.untouched (h : Performs ws m m') (hk : ∀ w ∈ ws, ∀ v, ¬ w k v) :
    m' k = m k := by
  induction ws generalizing m with
  | nil => exact congrFun h k
  | cons w ws ih =>
    obtain ⟨between, hw, hws⟩ := h
    rw [ih hws fun w' hw' => hk w' (by simp [hw']), hw.others (hk w (by simp))]

theorem Performs.last {before after : List (Written K V)} {w : Written K V} {v : V}
    (h : Performs (before ++ w :: after) m m') (hw : w k v)
    (hafter : ∀ w' ∈ after, ∀ v, ¬ w' k v) : m' k = some v := by
  induction before generalizing m with
  | nil =>
    obtain ⟨between, hwrite, hrest⟩ := h
    rw [hrest.untouched hafter, hwrite.written hw]
  | cons first before ih =>
    obtain ⟨between, -, hrest⟩ := h
    exact ih hrest

/-- The last element with a property. -/
theorem exists_last {α : Type} {P : α → Prop} {l : List α} (h : ∃ x ∈ l, P x) :
    ∃ before x after, l = before ++ x :: after ∧ P x ∧ ∀ y ∈ after, ¬ P y := by
  induction l with
  | nil =>
    obtain ⟨x, hx, -⟩ := h
    cases hx
  | cons first l ih =>
    by_cases hl : ∃ x ∈ l, P x
    · obtain ⟨before, x, after, rfl, hx, hafter⟩ := ih hl
      exact ⟨first :: before, x, after, rfl, hx, hafter⟩
    · obtain ⟨x, hx, hPx⟩ := h
      rcases List.mem_cons.mp hx with rfl | hx
      · exact ⟨[], x, l, rfl, hPx, fun y hy hPy => hl ⟨y, hy, hPy⟩⟩
      · exact absurd ⟨x, hx, hPx⟩ hl

/-- A key has a value in the end if it had one, or was written. -/
theorem Performs.isSome_iff (h : Performs ws m m') :
    (m' k).isSome ↔ (m k).isSome ∨ ∃ w ∈ ws, ∃ v, w k v := by
  by_cases hwritten : ∃ w ∈ ws, ∃ v, w k v
  · obtain ⟨before, w, after, rfl, ⟨v, hw⟩, hafter⟩ := exists_last hwritten
    have hlast := h.last hw fun w' hw' v' hv' => hafter w' hw' ⟨v', hv'⟩
    rw [hlast]
    exact ⟨fun _ => .inr hwritten, fun _ => rfl⟩
  · rw [h.untouched fun w hw v hv => hwritten ⟨w, hw, v, hv⟩]
    exact ⟨.inl, fun hsome => hsome.resolve_right hwritten⟩

end LoPhi.Lib.Overwrite
