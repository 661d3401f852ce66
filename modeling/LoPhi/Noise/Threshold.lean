import LoPhi.Noise.Learning

/-! # The threshold of a filter

`adjust_filter` keeps for each key the highest count that enough analyses have reached. It adds
up in one pass over a dictionary, where a count that comes after a higher one misses it. -/

namespace LoPhi.Noise.Threshold
open LoPhi.Lib LoPhi.Noise.Memory LoPhi.Noise.Learning

/-! ## Counts of one key -/

/-- The analyses of the counts above one. -/
def above (c : Nat) (l : List (Nat × Nat)) : Nat := Dict.weight (fun c' => c < c') l

/-- The analyses of the counts from one on. -/
def reached (c : Nat) (l : List (Nat × Nat)) : Nat := Dict.weight (fun c' => c ≤ c') l

/-- `entry_dict[k]` after the counts of the key. -/
def accumulate (counts : Dict Nat Nat) (l : List (Nat × Nat)) : Dict Nat Nat :=
  l.foldl (fun counts p => addCount counts p.1 p.2) counts

section Counts
variable {l l' : List (Nat × Nat)} {c n : Nat}

theorem reached_append (c : Nat) (l l' : List (Nat × Nat)) :
    reached c (l ++ l') = reached c l + reached c l' := Dict.weight_append _ l l'

theorem above_succ (c : Nat) (l : List (Nat × Nat)) : reached (c + 1) l = above c l := rfl

theorem reached_anti {c' : Nat} (hc : c ≤ c') (l : List (Nat × Nat)) :
    reached c' l ≤ reached c l :=
  Dict.weight_mono fun _ _ hk => decide_eq_true (Nat.le_trans hc (of_decide_eq_true hk))

theorem reached_eq_above (h : c ∉ l.map Prod.fst) : reached c l = above c l := by
  refine Nat.le_antisymm (Dict.weight_mono fun k hk hle => decide_eq_true ?_)
    (reached_anti (Nat.le_succ c) l)
  have hne : c ≠ k := fun heq => h (heq ▸ hk)
  exact Nat.lt_of_le_of_ne (of_decide_eq_true hle) hne

/-- What a count in the middle has reached. -/
theorem reached_middle (h : ((l ++ (c, n) :: l').map Prod.fst).Nodup) :
    reached c (l ++ (c, n) :: l') = above c l + (n + above c l') := by
  rw [List.map_append, List.map_cons, List.nodup_middle] at h
  have hnot := (List.nodup_cons.mp h).1
  rw [List.mem_append, not_or] at hnot
  rw [reached_append, reached_eq_above hnot.1]
  congr 1
  show (if decide (c ≤ c) = true then n else 0) + reached c l' = _
  rw [reached_eq_above hnot.2, if_pos (by simp)]

theorem above_eq_zero (h : ∀ p ∈ l, p.1 ≤ c) : above c l = 0 := by
  unfold above
  induction l with
  | nil => rfl
  | cons p l ih =>
    have hp := h p List.mem_cons_self
    rw [Dict.weight, ih fun q hq => h q (List.mem_cons_of_mem _ hq), if_neg (by simp; omega)]

theorem exists_bound (l : List (Nat × Nat)) : ∃ bound, ∀ p ∈ l, p.1 ≤ bound := by
  induction l with
  | nil => exact ⟨0, fun p hp => by cases hp⟩
  | cons q l ih =>
    obtain ⟨bound, hbound⟩ := ih
    refine ⟨q.1 + bound, fun p hp => ?_⟩
    rcases List.mem_cons.mp hp with rfl | hp
    · omega
    · have hle := hbound p hp
      omega

/-- There is a last count that a number of analyses have reached. -/
theorem exists_last {t : Nat} (ht : 0 < t) (h : t ≤ reached c l) :
    ∃ c', c ≤ c' ∧ t ≤ reached c' l ∧ reached (c' + 1) l < t := by
  obtain ⟨bound, hbound⟩ := exists_bound l
  have hend : reached (bound + 1) l < t := by
    rw [above_succ, above_eq_zero hbound]
    exact ht
  have hlt : c < bound + 1 := by
    by_contra hge
    have hanti := reached_anti (Nat.le_of_not_lt hge) l
    omega
  obtain ⟨gap, hgap⟩ : ∃ gap, bound + 1 = c + gap := ⟨bound + 1 - c, by omega⟩
  rw [hgap] at hend
  clear hgap hlt
  induction gap generalizing c with
  | zero => exact absurd h (Nat.not_le_of_lt hend)
  | succ gap ih =>
    by_cases hnext : t ≤ reached (c + 1) l
    · have hend' : reached (c + 1 + gap) l < t := by
        rw [Nat.add_assoc, Nat.add_comm 1 gap]
        exact hend
      obtain ⟨c', hle, hc'⟩ := ih hnext hend'
      exact ⟨c', by omega, hc'⟩
    · exact ⟨c, Nat.le_refl c, h, Nat.lt_of_not_le hnext⟩

theorem get?_addCount (counts : Dict Nat Nat) (count analyses c : Nat) :
    (addCount counts count analyses).get? c =
      if c = count then some analyses
      else (counts.get? c).map fun n => if c < count then n + analyses else n := by
  unfold addCount
  rw [Dict.get?_alter, Dict.get?_map]

/-- A count gets what comes after it. -/
theorem get?_accumulate (h : c ∉ l.map Prod.fst) (counts : Dict Nat Nat) :
    (accumulate counts l).get? c = (counts.get? c).map fun n => n + above c l := by
  unfold accumulate
  induction l generalizing counts with
  | nil => exact Option.map_id'.symm
  | cons p l ih =>
    obtain ⟨c', m⟩ := p
    rw [List.map_cons, List.mem_cons, not_or] at h
    rw [List.foldl_cons, ih h.2, get?_addCount, if_neg h.1]
    cases counts.get? c with
    | none => rfl
    | some n =>
      show some (_ + above c l) =
        some (n + ((if decide (c < c') = true then m else 0) + above c l))
      by_cases hlt : c < c'
      · simp [hlt]
        omega
      · simp [hlt]

theorem get?_accumulate_middle (h : c ∉ l'.map Prod.fst) (counts : Dict Nat Nat) :
    (accumulate counts (l ++ (c, n) :: l')).get? c = some (n + above c l') := by
  unfold accumulate
  rw [List.foldl_append, List.foldl_cons]
  show (accumulate _ l').get? c = _
  rw [get?_accumulate h, get?_addCount, if_pos rfl]
  rfl

end Counts

/-- The analyses of the higher counts that come before a count, which misses them. -/
def missed (c : Nat) (l : List (Nat × Nat)) : Nat := above c (l.takeWhile fun p => p.1 ≠ c)

/-- The last count that a number of analyses have reached. -/
def IsLast (t : Nat) (l : List (Nat × Nat)) (c : Nat) : Prop :=
  0 < c ∧ t ≤ reached c l ∧ reached (c + 1) l < t

/-- The last count to which a number of analyses were added up. -/
def IsChosen (t : Nat) (counts : Dict Nat Nat) (c : Nat) : Prop :=
  0 < c ∧ (∃ n, counts.get? c = some n ∧ t ≤ n) ∧
    ∀ c' n, counts.get? c' = some n → t ≤ n → c' ≤ c

section Chosen
variable {l : List (Nat × Nat)} {c n t : Nat}

theorem takeWhile_middle {l₁ l₂ : List (Nat × Nat)} (h : c ∉ l₁.map Prod.fst) :
    ((l₁ ++ (c, n) :: l₂).takeWhile fun p => p.1 ≠ c) = l₁ := by
  rw [List.takeWhile_append_of_pos, List.takeWhile_cons_of_neg]
  · exact List.append_nil l₁
  · simp
  · intro p hp
    have hne : p.1 ≠ c := fun heq => h (heq ▸ List.mem_map_of_mem hp)
    simpa using hne

/-- What a count is given is what has reached it, less what it missed. -/
theorem get?_accumulate_empty (hnodup : (l.map Prod.fst).Nodup) :
    (accumulate .empty l).get? c = some n ↔
      c ∈ l.map Prod.fst ∧ n + missed c l = reached c l := by
  by_cases hmem : c ∈ l.map Prod.fst
  · obtain ⟨⟨c', m⟩, hp, hc⟩ := List.mem_map.mp hmem
    obtain rfl : c' = c := hc
    obtain ⟨l₁, l₂, rfl⟩ := List.append_of_mem hp
    have hnot := hnodup
    rw [List.map_append, List.map_cons, List.nodup_middle] at hnot
    have hnot := (List.nodup_cons.mp hnot).1
    rw [List.mem_append, not_or] at hnot
    have hmissed : missed c' (l₁ ++ (c', m) :: l₂) = above c' l₁ := by
      unfold missed
      rw [takeWhile_middle hnot.1]
    rw [get?_accumulate_middle hnot.2, reached_middle hnodup, hmissed, Option.some.injEq]
    simp only
    constructor
    · rintro rfl
      exact ⟨hmem, by omega⟩
    · rintro ⟨-, heq⟩
      omega
  · rw [get?_accumulate hmem, Dict.get?_empty]
    constructor
    · intro h
      cases h
    · exact fun h => absurd h.1 hmem

theorem mem_of_isLast (h : IsLast t l c) : c ∈ l.map Prod.fst := by
  by_contra hnot
  have heq := reached_eq_above hnot
  have hlast := h.2
  rw [above_succ] at hlast
  omega

/-- The chosen count is the last one if that one misses no more than it can. -/
theorem isChosen_iff_isLast (ht : 0 < t) (hnodup : (l.map Prod.fst).Nodup) :
    (∀ c, IsChosen t (accumulate .empty l) c ↔ IsLast t l c) ↔
      ∀ c, IsLast t l c → t + missed c l ≤ reached c l := by
  constructor
  · intro h c hlast
    obtain ⟨-, ⟨n, hget, hn⟩, -⟩ := (h c).mpr hlast
    have hsum := ((get?_accumulate_empty hnodup).mp hget).2
    omega
  · intro h c
    constructor
    · rintro ⟨hpos, ⟨n, hget, hn⟩, hmax⟩
      have hsum := ((get?_accumulate_empty hnodup).mp hget).2
      refine ⟨hpos, by omega, ?_⟩
      by_contra hge
      -- A higher count that was reached: the last such is added up to `t` and passes.
      obtain ⟨c', hle, hreach, hnext⟩ := exists_last ht (Nat.le_of_not_lt hge)
      have hlast : IsLast t l c' := ⟨by omega, hreach, hnext⟩
      have hsum' := h c' hlast
      have hget' : (accumulate .empty l).get? c' = some (reached c' l - missed c' l) :=
        (get?_accumulate_empty hnodup).mpr ⟨mem_of_isLast hlast, by omega⟩
      have hle' := hmax c' _ hget' (by omega)
      omega
    · intro hlast
      have hsum := h c hlast
      have hget : (accumulate .empty l).get? c = some (reached c l - missed c l) :=
        (get?_accumulate_empty hnodup).mpr ⟨mem_of_isLast hlast, by omega⟩
      refine ⟨hlast.1, ⟨_, hget, by omega⟩, fun c' n hget' hn => ?_⟩
      have hsum' := ((get?_accumulate_empty hnodup).mp hget').2
      by_contra hlt
      have hanti : reached c' l ≤ reached (c + 1) l :=
        reached_anti (Nat.lt_of_not_le hlt) l
      have hnext := hlast.2.2
      omega

/-- In ascending order nothing is missed. -/
theorem missed_of_pairwise (h : l.Pairwise fun p q => p.1 < q.1) (hmem : c ∈ l.map Prod.fst) :
    missed c l = 0 := by
  obtain ⟨⟨c', m⟩, hp, rfl⟩ := List.mem_map.mp hmem
  obtain ⟨l₁, l₂, rfl⟩ := List.append_of_mem hp
  obtain ⟨-, -, hbefore⟩ := List.pairwise_append.mp h
  have hlt : ∀ p ∈ l₁, p.1 < c' := fun p hp => hbefore p hp _ List.mem_cons_self
  unfold missed
  rw [takeWhile_middle]
  · exact above_eq_zero fun p hp => Nat.le_of_lt (hlt p hp)
  · intro hin
    obtain ⟨p, hp, heq⟩ := List.mem_map.mp hin
    have := hlt p hp
    simp only at heq
    omega

end Chosen

/-! ## The loops -/

/-- The counts of a key in a category, in the order of its items. -/
def countsOf (k : Key) : List (FilterEntry × Nat) → List (Nat × Nat)
  | [] => []
  | (.plain _, _) :: items => countsOf k items
  | (.counted k' c, n) :: items => if k' = k then (c, n) :: countsOf k items else countsOf k items

/-- An entry of a key with a count from one on. -/
def isFrom (k : Key) (c : Nat) : FilterEntry → Bool
  | .plain _ => false
  | .counted k' c' => k' = k ∧ c ≤ c'

section Loops
variable {order : Order} {items : List (FilterEntry × Nat)} {k : Key}

theorem countsOf_counted (k' : Key) (c n : Nat) :
    countsOf k ((.counted k' c, n) :: items) =
      if k' = k then (c, n) :: countsOf k items else countsOf k items := rfl

theorem mem_countsOf {c n : Nat} :
    (c, n) ∈ countsOf k items ↔ (.counted k c, n) ∈ items := by
  induction items with
  | nil => simp [countsOf]
  | cons p items ih =>
    obtain ⟨entry, m⟩ := p
    cases entry with
    | plain s => simp [countsOf, ih]
    | counted k' c' =>
      rw [countsOf_counted]
      by_cases hk : k' = k
      · simp [hk, ih]
      · simp [hk, ih, Ne.symm hk]

theorem nodup_countsOf (h : (items.map Prod.fst).Nodup) :
    ((countsOf k items).map Prod.fst).Nodup := by
  induction items with
  | nil => exact .nil
  | cons p items ih =>
    obtain ⟨entry, m⟩ := p
    obtain ⟨hnot, hrest⟩ := List.nodup_cons.mp h
    cases entry with
    | plain s => exact ih hrest
    | counted k' c' =>
      rw [countsOf_counted]
      by_cases hk : k' = k
      · rw [if_pos hk, List.map_cons]
        refine List.nodup_cons.mpr ⟨fun hin => hnot ?_, ih hrest⟩
        obtain ⟨⟨c, n⟩, hmem, hc⟩ := List.mem_map.mp hin
        obtain rfl : c = c' := hc
        rw [hk]
        exact List.mem_map.mpr ⟨_, mem_countsOf.mp hmem, rfl⟩
      · rw [if_neg hk]
        exact ih hrest

/-- The analyses that have reached a count of a key are those of the entries from it on. -/
theorem reached_countsOf (k : Key) (c : Nat) (items : List (FilterEntry × Nat)) :
    reached c (countsOf k items) = Dict.weight (isFrom k c) items := by
  unfold reached
  induction items with
  | nil => rfl
  | cons p items ih =>
    obtain ⟨entry, n⟩ := p
    cases entry with
    | plain s =>
      rw [Dict.weight, ← ih]
      exact (Nat.zero_add _).symm
    | counted k' c' =>
      rw [Dict.weight, ← ih, countsOf_counted]
      by_cases hk : k' = k
      · rw [if_pos hk, Dict.weight]
        simp [isFrom, hk]
      · rw [if_neg hk]
        simp [isFrom, hk]

/-- The items of a category go to `entry_dict` key by key. -/
theorem entryDict_spec (hcounted : ∀ p ∈ items, ∃ k c, p.1 = .counted k c)
    (d : Dict Key (Dict Nat Nat)) :
    ∃ entries, entryDict items d = some entries ∧
      ∀ k, (entries.get? k).getD .empty =
        accumulate ((d.get? k).getD .empty) (countsOf k items) := by
  induction items generalizing d with
  | nil => exact ⟨d, rfl, fun _ => rfl⟩
  | cons p items ih =>
    obtain ⟨entry, n⟩ := p
    obtain ⟨k', c, rfl⟩ : ∃ k c, entry = .counted k c := hcounted _ List.mem_cons_self
    obtain ⟨entries, hentries, hget⟩ := ih (fun q hq => hcounted q (List.mem_cons_of_mem _ hq))
      (d.alter k' fun counts => addCount (counts.getD .empty) c n)
    refine ⟨entries, hentries, fun k => ?_⟩
    rw [hget k, Dict.get?_alter, countsOf_counted]
    by_cases hk : k = k'
    · rw [if_pos hk, if_pos hk.symm, hk]
      rfl
    · rw [if_neg hk, if_neg (Ne.symm hk)]

/-- The loop finds the highest count that passes, if that is higher than where it starts. -/
theorem highest_spec (t : Int) (l : List (Nat × Nat)) (best : Int × Int) :
    best.1 ≤ (highest t l best).1 ∧
      (∀ p ∈ l, t ≤ p.2 → (p.1 : Int) ≤ (highest t l best).1) ∧
      ((highest t l best).1 = best.1 ∨
        ∃ p ∈ l, t ≤ p.2 ∧ (highest t l best).1 = p.1) := by
  induction l generalizing best with
  | nil => exact ⟨Int.le_refl _, fun p hp => absurd hp List.not_mem_nil, .inl rfl⟩
  | cons q l ih =>
    obtain ⟨c, n⟩ := q
    unfold highest
    by_cases hpass : t ≤ n ∧ best.1 < c
    · rw [if_pos hpass]
      obtain ⟨hle, hmax, hfound⟩ := ih (c, n)
      refine ⟨Int.le_trans (Int.le_of_lt hpass.2) hle, fun p hp hn => ?_, .inr ?_⟩
      · rcases List.mem_cons.mp hp with rfl | hp
        · exact hle
        · exact hmax p hp hn
      · rcases hfound with heq | ⟨p, hp, hn, heq⟩
        · exact ⟨(c, n), List.mem_cons_self, hpass.1, heq⟩
        · exact ⟨p, List.mem_cons_of_mem _ hp, hn, heq⟩
    · rw [if_neg hpass]
      obtain ⟨hle, hmax, hfound⟩ := ih best
      refine ⟨hle, fun p hp hn => ?_, ?_⟩
      · rcases List.mem_cons.mp hp with rfl | hp
        · have hnot : ¬best.1 < c := fun hlt => hpass ⟨hn, hlt⟩
          simp only
          omega
        · exact hmax p hp hn
      · rcases hfound with heq | ⟨p, hp, hn, heq⟩
        · exact .inl heq
        · exact .inr ⟨p, List.mem_cons_of_mem _ hp, hn, heq⟩

/-- `highest_count` is the chosen one. -/
theorem highest_iff_isChosen (order : Order) (t : Nat) (counts : Dict Nat Nat) (c : Nat) :
    (0 < (highest t (order.iter counts.items) (-1, -1)).1 ∧
        c = (highest t (order.iter counts.items) (-1, -1)).1.toNat) ↔ IsChosen t counts c := by
  have hmem : ∀ p, p ∈ order.iter counts.items ↔ counts.get? p.1 = some p.2 := fun p =>
    ((order.perm counts.items).mem_iff).trans Dict.get?_eq_some_iff.symm
  obtain ⟨-, hmax, hfound⟩ := highest_spec t (order.iter counts.items) (-1, -1)
  generalize (highest t (order.iter counts.items) (-1, -1)).1 = best at hmax hfound ⊢
  constructor
  · rintro ⟨hpos, rfl⟩
    rcases hfound with heq | ⟨⟨c, n⟩, hp, hn, rfl⟩
    · simp only at heq
      omega
    · simp only at hpos hn hmax ⊢
      refine ⟨by omega, ⟨n, (hmem _).mp hp, by omega⟩, fun c' n' hget hn' => ?_⟩
      have hle := hmax (c', n') ((hmem _).mpr hget) (by simp only; omega)
      simp only at hle
      omega
  · rintro ⟨hpos, ⟨n, hget, hn⟩, hlast⟩
    have hle := hmax (c, n) ((hmem _).mpr hget) (by simp only; omega)
    rcases hfound with heq | ⟨⟨c', n'⟩, hp, hn', rfl⟩
    · simp only at hle heq
      omega
    · have hle' := hlast c' n' ((hmem _).mp hp) (by simp only at hn'; omega)
      simp only at hle ⊢
      omega

theorem get?_adjustedDict (t : Int) (l : List (Key × Dict Nat Nat)) (d : Dict FilterEntry Nat)
    (entry : FilterEntry) :
    ((adjustedDict order t l d).get? entry).isSome ↔ (d.get? entry).isSome ∨
      ∃ p ∈ l, 0 < (highest t (order.iter p.2.items) (-1, -1)).1 ∧
        entry = .counted p.1 (highest t (order.iter p.2.items) (-1, -1)).1.toNat := by
  induction l generalizing d with
  | nil => simp [adjustedDict]
  | cons p l ih =>
    obtain ⟨k, counts⟩ := p
    unfold adjustedDict
    simp only
    rw [ih, List.exists_mem_cons_iff]
    generalize highest t (order.iter counts.items) (-1, -1) = best
    by_cases hpos : 0 < best.1
    · rw [if_pos hpos, Dict.get?_alter]
      by_cases heq : entry = .counted k best.1.toNat
      · simp [heq, hpos]
      · simp [heq]
    · simp [hpos]

/-- `adjusted_dict` has one entry for each key with a chosen count. -/
theorem mem_adjustedDict (t : Nat) (entries : Dict Key (Dict Nat Nat)) (entry : FilterEntry) :
    ((adjustedDict order t (order.iter entries.items) .empty).get? entry).isSome ↔
      ∃ k c, entry = .counted k c ∧ IsChosen t ((entries.get? k).getD .empty) c := by
  have hmem : ∀ k counts, (k, counts) ∈ order.iter entries.items ↔ entries.get? k = some counts :=
    fun k counts => ((order.perm entries.items).mem_iff).trans Dict.get?_eq_some_iff.symm
  rw [get?_adjustedDict, Dict.get?_empty]
  constructor
  · rintro (h | ⟨⟨k, counts⟩, hp, hpos, rfl⟩)
    · cases h
    · refine ⟨k, _, rfl, ?_⟩
      rw [(hmem k counts).mp hp, Option.getD_some]
      exact (highest_iff_isChosen order t counts _).mp ⟨hpos, rfl⟩
  · rintro ⟨k, c, rfl, hchosen⟩
    cases hget : entries.get? k with
    | none =>
      rw [hget] at hchosen
      obtain ⟨-, ⟨n, hn, -⟩, -⟩ := hchosen
      cases hn
    | some counts =>
      rw [hget] at hchosen
      obtain ⟨hpos, hc⟩ := (highest_iff_isChosen order t counts c).mpr hchosen
      exact .inr ⟨(k, counts), (hmem k counts).mpr hget, hpos, by rw [hc]⟩

/-- What is left in a category. -/
theorem adjustCategory_spec {d : Dict FilterEntry Nat} {numAnalyses : Nat} (t : Nat)
    (hcounted : ∀ p ∈ d.items, ∃ k c, p.1 = .counted k c) (hnum : 0 < numAnalyses) :
    ∃ d', adjustCategory order t numAnalyses d = some d' ∧
      ∀ entry, (d'.get? entry).isSome ↔ ∃ k c, entry = .counted k c ∧
        IsChosen t (accumulate .empty (countsOf k (order.iter d.items))) c := by
  have hperm := order.perm d.items
  obtain ⟨entries, hentries, hget⟩ :=
    entryDict_spec (fun p hp => hcounted p (hperm.mem_iff.mp hp)) .empty
  unfold adjustCategory
  rw [hentries]
  simp only
  by_cases hempty : d.items.isEmpty
  · -- Nothing is chosen where nothing was counted.
    refine ⟨d, by rw [if_pos hempty], fun entry => ?_⟩
    rw [List.isEmpty_iff] at hempty
    have hnil : order.iter d.items = [] := by
      rw [hempty] at hperm ⊢
      exact hperm.eq_nil
    have hnone : d.get? entry = none := by
      unfold Dict.get?
      rw [hempty]
      rfl
    rw [hnil, hnone]
    constructor
    · intro h
      cases h
    · rintro ⟨k, c, -, -, ⟨n, hn, -⟩, -⟩
      cases hn
  · refine ⟨_, by rw [if_neg hempty, if_neg (by omega)], fun entry => ?_⟩
    rw [mem_adjustedDict]
    simp only [hget, Dict.get?_empty, Option.getD_none]

end Loops

/-! ## Analyses -/

/-- How many entries with a key an analysis has in a category. -/
def entriesWith (key : Entry → Option Key) (plugin category : Str) (k : Key)
    (analysis : Analysis) : Nat :=
  match analysis.get? plugin with
  | some (.categories d) => ((d.get? category).getD []).countP fun entry => key entry = some k
  | _ => 0

/-- How many analyses have so many entries with a key, or more. -/
def analysesWith (key : Entry → Option Key) (plugin category : Str) (analyses : List Analysis)
    (k : Key) (c : Nat) : Nat :=
  analyses.countP fun analysis => c ≤ entriesWith key plugin category k analysis

/-- The largest count of entries with a key that so many analyses have. -/
def IsLargest (key : Entry → Option Key) (plugin category : Str) (analyses : List Analysis)
    (threshold : Nat) (k : Key) (c : Nat) : Prop :=
  0 < c ∧ threshold ≤ analysesWith key plugin category analyses k c ∧
    ∀ c', c < c' → analysesWith key plugin category analyses k c' < threshold

/-- A category that has exactly the largest count of each key. -/
def IsExact (key : Entry → Option Key) (plugin category : Str) (analyses : List Analysis)
    (threshold : Nat) (d : Dict FilterEntry Nat) : Prop :=
  ∀ entry, (d.get? entry).isSome ↔
    ∃ k c, entry = .counted k c ∧ IsLargest key plugin category analyses threshold k c

section Analyses
variable {setting : Setting} {analyses : List Analysis} {f : MemoryFilter} {plugin category : Str}
  {key : Entry → Option Key} {d : Dict FilterEntry Nat}

/-- A category counts once for a key and a count if it has that many entries with the key. -/
theorem countP_specialEntries {order : Order} {entries : List Entry} {l : List FilterEntry}
    (h : specialEntries order key entries = some l) (k : Key) {c : Nat} (hc : 0 < c) :
    l.countP (isFrom k c) =
      if c ≤ entries.countP fun entry => key entry = some k then 1 else 0 := by
  unfold specialEntries at h
  split at h
  · cases h
  · rename_i ks hks
    cases h
    rw [List.countP_map, (order.perm _).countP_eq, ← count_keys hks k]
    have hone := Dict.countP_key (Dict.tally ks) k fun n => decide (c ≤ n)
    have htest : (isFrom k c ∘ fun p : Key × Nat => .counted p.1 p.2) =
        fun p => decide (p.1 = k ∧ decide (c ≤ p.2) = true) := by
      funext p
      simp [isFrom]
    rw [htest, hone, Dict.get?_tally]
    split
    · rename_i hzero
      have hnot : ¬c ≤ 0 := by omega
      rw [hzero, if_neg hnot]
      rfl
    · rw [Option.any_some]
      simp only [decide_eq_true_eq]

/-- What an analysis contributes, when it can be added. -/
theorem countP_contribution (hkey : keyOf setting.tcpStates plugin = some key)
    {analysis : Analysis}
    (hcountable : ∀ result, analysis.get? plugin = some result → Countable setting plugin result)
    (k : Key) {c : Nat} (hc : 0 < c) :
    ((contribution setting plugin category analysis).getD []).countP (isFrom k c) =
      if c ≤ entriesWith key plugin category k analysis then 1 else 0 := by
  unfold contribution entriesWith
  cases hresult : analysis.get? plugin with
  | none =>
    rw [if_neg (by simp only; omega)]
    rfl
  | some result =>
    cases result with
    | error value =>
      rw [if_neg (by simp only; omega)]
      rfl
    | categories cats =>
      show (((cats.get? category).bind (counted setting plugin)).getD []).countP _ =
        if c ≤ ((cats.get? category).getD []).countP (fun entry => key entry = some k) then 1
        else 0
      cases hentries : cats.get? category with
      | none =>
        rw [Option.getD_none, List.countP_nil, if_neg (by omega)]
        rfl
      | some entries =>
        obtain ⟨l, hl⟩ := Option.isSome_iff_exists.mp
          (hcountable _ hresult cats category entries rfl hentries)
        rw [Option.bind_some, hl, Option.getD_some, Option.getD_some]
        rw [counted_special hkey] at hl
        exact countP_specialEntries hl k hc

/-- A count is reached by the analyses that have that many entries. -/
theorem reached_eq_analysesWith (hadd : addAll setting analyses .initial = some f)
    (hkey : keyOf setting.tcpStates plugin = some key) (hd : f.category plugin category = some d)
    (k : Key) {c : Nat} (hc : 0 < c) :
    reached c (countsOf k (setting.order.iter d.items)) =
      analysesWith key plugin category analyses k c := by
  rw [reached_countsOf, Dict.weight_perm (setting.order.perm d.items), category_addAll hadd hd,
    Dict.weight_tally]
  have hcountable := (isSome_addAll analyses .initial).mp (Option.isSome_iff_exists.mpr ⟨f, hadd⟩)
  unfold contributions analysesWith
  clear hadd hd
  induction analyses with
  | nil => rfl
  | cons analysis analyses ih =>
    rw [List.flatMap_cons, List.countP_append, List.countP_cons, Nat.add_comm,
      ih fun a ha => hcountable a (List.mem_cons_of_mem _ ha),
      countP_contribution hkey (hcountable analysis List.mem_cons_self plugin) k hc]
    simp only [decide_eq_true_eq]

/-- What `adjust_filter` leaves in a category of a special plugin. -/
theorem category_adjustFilter (hadd : addAll setting analyses .initial = some f)
    (hkey : keyOf setting.tcpStates plugin = some key) (hd : f.category plugin category = some d)
    {t : Nat} (ht : 1 ≤ t) (hle : t ≤ analyses.length) :
    ∃ g d', adjustFilter setting t f = some g ∧ g.category plugin category = some d' ∧
      ∀ entry, (d'.get? entry).isSome ↔ ∃ k c, entry = .counted k c ∧
        IsChosen t (accumulate .empty (countsOf k (setting.order.iter d.items))) c := by
  have hnum : f.numAnalyses = analyses.length :=
    (numAnalyses_addAll hadd).trans (Nat.zero_add _)
  have hadjust : ∀ {plugin category key d}, keyOf setting.tcpStates plugin = some key →
      f.category plugin category = some d → _ := fun hkey hd =>
    @adjustCategory_spec setting.order _ f.numAnalyses t (exists_counted hadd hkey hd) (by omega)
  have hall : (f.occurrencesDict.traverse fun plugin categories =>
      if (keyOf setting.tcpStates plugin).isSome then
        categories.traverse fun _ d => adjustCategory setting.order t f.numAnalyses d
      else some categories).isSome := by
    refine Dict.traverse_isSome.mpr fun plugin categories hplugin => ?_
    split
    · rename_i hspecial
      obtain ⟨key, hkey⟩ := Option.isSome_iff_exists.mp hspecial
      refine Dict.traverse_isSome.mpr fun category d hcategory => ?_
      have hd : f.category plugin category = some d := by
        unfold MemoryFilter.category
        rw [hplugin]
        exact hcategory
      obtain ⟨d', hd', -⟩ := hadjust hkey hd
      exact Option.isSome_iff_exists.mpr ⟨d', hd'⟩
    · rfl
  obtain ⟨occurrences, hoccurrences⟩ := Option.isSome_iff_exists.mp hall
  obtain ⟨d', hd', hspec⟩ := hadjust hkey hd
  refine ⟨{ f with occurrencesDict := occurrences }, d', ?_, ?_, hspec⟩
  · unfold adjustFilter
    rw [if_neg (by omega), hoccurrences]
  · obtain ⟨categories, hplugin, hcategory⟩ := Option.bind_eq_some_iff.mp hd
    obtain ⟨categories', hnew, hget⟩ := Dict.exists_of_traverse hoccurrences hplugin
    rw [if_pos (Option.isSome_iff_exists.mpr ⟨key, hkey⟩)] at hnew
    unfold MemoryFilter.category
    simp only
    rw [hget, Option.bind_some, Dict.get?_traverse hnew, hcategory]
    exact hd'

theorem isLast_iff_isLargest (hadd : addAll setting analyses .initial = some f)
    (hkey : keyOf setting.tcpStates plugin = some key) (hd : f.category plugin category = some d)
    (t : Nat) (k : Key) (c : Nat) :
    IsLast t (countsOf k (setting.order.iter d.items)) c ↔
      IsLargest key plugin category analyses t k c := by
  have hreached : ∀ c, 0 < c → _ := fun c hc => reached_eq_analysesWith hadd hkey hd k hc
  constructor
  · rintro ⟨hpos, hreach, hnext⟩
    refine ⟨hpos, hreached c hpos ▸ hreach, fun c' hc' => ?_⟩
    rw [← hreached c' (by omega)]
    exact Nat.lt_of_le_of_lt (reached_anti hc' _) hnext
  · rintro ⟨hpos, hreach, hnext⟩
    refine ⟨hpos, hreached c hpos ▸ hreach, ?_⟩
    rw [hreached (c + 1) (by omega)]
    exact hnext (c + 1) (by omega)

/-- A category is exact if every largest count misses no more analyses than it can. -/
theorem isExact_iff (hadd : addAll setting analyses .initial = some f)
    (hkey : keyOf setting.tcpStates plugin = some key) (hd : f.category plugin category = some d)
    {t : Nat} (ht : 1 ≤ t) {d' : Dict FilterEntry Nat}
    (hd' : ∀ entry, (d'.get? entry).isSome ↔ ∃ k c, entry = .counted k c ∧
      IsChosen t (accumulate .empty (countsOf k (setting.order.iter d.items))) c) :
    IsExact key plugin category analyses t d' ↔
      ∀ k c, IsLargest key plugin category analyses t k c →
        t + missed c (countsOf k (setting.order.iter d.items)) ≤
          analysesWith key plugin category analyses k c := by
  have hnodup : ((setting.order.iter d.items).map Prod.fst).Nodup :=
    (((setting.order.perm d.items).map Prod.fst).nodup_iff).mpr d.nodup
  have hexact : IsExact key plugin category analyses t d' ↔
      ∀ k c, IsChosen t (accumulate .empty (countsOf k (setting.order.iter d.items))) c ↔
        IsLast t (countsOf k (setting.order.iter d.items)) c := by
    simp only [isLast_iff_isLargest hadd hkey hd]
    unfold IsExact
    simp only [hd']
    constructor
    · intro h k c
      simpa [and_assoc] using h (.counted k c)
    · intro h entry
      simp only [h]
  rw [hexact]
  refine forall_congr' fun k => ?_
  rw [isChosen_iff_isLast ht (nodup_countsOf hnodup)]
  refine forall_congr' fun c => ?_
  rw [isLast_iff_isLargest hadd hkey hd]
  constructor
  · intro h hlargest
    rw [← reached_eq_analysesWith hadd hkey hd k hlargest.1]
    exact h hlargest
  · intro h hlargest
    rw [reached_eq_analysesWith hadd hkey hd k hlargest.1]
    exact h hlargest

/-- The entries of each key come with rising counts. -/
def Ascending (items : List (FilterEntry × Nat)) : Prop :=
  ∀ k, (countsOf k items).Pairwise fun p q => p.1 < q.1

theorem misses_few_of_ascending (hadd : addAll setting analyses .initial = some f)
    (hkey : keyOf setting.tcpStates plugin = some key) (hd : f.category plugin category = some d)
    (hascending : Ascending (setting.order.iter d.items)) {t : Nat} {k : Key} {c : Nat}
    (h : IsLargest key plugin category analyses t k c) :
    t + missed c (countsOf k (setting.order.iter d.items)) ≤
      analysesWith key plugin category analyses k c := by
  have hlast := (isLast_iff_isLargest hadd hkey hd t k c).mpr h
  rw [missed_of_pairwise (hascending k) (mem_of_isLast hlast)]
  exact h.2.1

/-- **Whatever the threshold, a category that is gone through in ascending order of the counts of
each key is adjusted exactly.** -/
theorem exact_of_ascending (hadd : addAll setting analyses .initial = some f)
    (hkey : keyOf setting.tcpStates plugin = some key) (hd : f.category plugin category = some d)
    (hascending : Ascending (setting.order.iter d.items)) {threshold : Nat} (hpos : 1 ≤ threshold)
    (hle : threshold ≤ analyses.length) :
    ∃ g d', adjustFilter setting threshold f = some g ∧ g.category plugin category = some d' ∧
      IsExact key plugin category analyses threshold d' := by
  obtain ⟨g, d', hg, hd', hchosen⟩ := category_adjustFilter hadd hkey hd hpos hle
  exact ⟨g, d', hg, hd', (isExact_iff hadd hkey hd hpos hchosen).mpr fun _ _ hlargest =>
    misses_few_of_ascending hadd hkey hd hascending hlargest⟩

end Analyses

/-! ## Two analyses -/

/-- What `psscan` added. -/
def scanned (entries : List Entry) : Analysis :=
  ⟨[("psscan".toList, .categories ⟨[("Added Entries".toList, entries)], by simp⟩)], by simp⟩

def firstProcess : Entry := .text "0x0000000002a1b3c8 svchost.exe".toList

def secondProcess : Entry := .text "0x0000000002a1b3d0 svchost.exe".toList

/-- First one process of a name, then two. -/
def risingRun : List Analysis := [scanned [firstProcess], scanned [firstProcess, secondProcess]]

def fallingRun : List Analysis := [scanned [firstProcess, secondProcess], scanned [firstProcess]]

def svchost : Key := .text "svchost.exe".toList

/-- What was counted, with the number of analyses. -/
def learned (analyses : List Analysis) : Option (List (FilterEntry × Nat)) :=
  (addAll addedOrder analyses .initial).bind fun f =>
    (f.category "psscan".toList "Added Entries".toList).map fun d => d.items

theorem exists_of_learned {analyses : List Analysis} {items : List (FilterEntry × Nat)}
    (h : learned analyses = some items) :
    ∃ f d, addAll addedOrder analyses .initial = some f ∧
      f.category "psscan".toList "Added Entries".toList = some d ∧ d.items = items := by
  obtain ⟨f, hadd, hf⟩ := Option.bind_eq_some_iff.mp h
  obtain ⟨d, hd, hitems⟩ := Option.map_eq_some_iff.mp hf
  exact ⟨f, d, hadd, hd, hitems⟩

end LoPhi.Noise.Threshold
