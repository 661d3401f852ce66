import Mathlib.Data.List.Basic
import Mathlib.Data.List.Nodup

/-! # Dictionaries

A dictionary is its items, in any order and with different keys. Everything is said through
`get?`, and `alter` is the one way to write: what a key has there may depend on what it had.
Counting is a dictionary too: `tally` says how often each key was seen. -/

namespace LoPhi.Lib

structure Dict (K V : Type) where
  items : List (K × V)
  nodup : (items.map Prod.fst).Nodup

namespace Dict

variable {K V W : Type} [DecidableEq K]

def empty : Dict K V := ⟨[], .nil⟩

/-- The first value under a key. -/
def lookup (l : List (K × V)) (k : K) : Option V :=
  match l with
  | [] => none
  | (k', v) :: l => if k' = k then some v else lookup l k

def get? (d : Dict K V) (k : K) : Option V := lookup d.items k

/-- The items with another value under a key. -/
def alterItems (k : K) (f : Option V → V) : List (K × V) → List (K × V)
  | [] => [(k, f none)]
  | (k', v) :: l => if k' = k then (k', f (some v)) :: l else (k', v) :: alterItems k f l

theorem keys_alterItems (k : K) (f : Option V → V) (l : List (K × V)) :
    (alterItems k f l).map Prod.fst =
      if k ∈ l.map Prod.fst then l.map Prod.fst else l.map Prod.fst ++ [k] := by
  induction l with
  | nil => rfl
  | cons p l ih =>
    obtain ⟨k', v⟩ := p
    unfold alterItems
    by_cases hk : k' = k
    · simp [hk]
    · rw [if_neg hk, List.map_cons, ih, List.map_cons]
      by_cases hmem : k ∈ l.map Prod.fst
      · rw [if_pos hmem, if_pos (List.mem_cons_of_mem _ hmem)]
      · rw [if_neg hmem, if_neg]
        · rfl
        · intro hcons
          rcases List.mem_cons.mp hcons with heq | hin
          · exact hk heq.symm
          · exact hmem hin

/-- `d[k] = f(d.get(k))`. -/
def alter (k : K) (f : Option V → V) (d : Dict K V) : Dict K V where
  items := alterItems k f d.items
  nodup := by
    rw [keys_alterItems]
    split
    · exact d.nodup
    · rename_i hmem
      exact d.nodup.append (List.nodup_singleton k) (List.disjoint_singleton.mpr hmem)

section Get
variable {d : Dict K V} {k k' : K} {v : V}

@[simp] theorem get?_empty (k : K) : (empty : Dict K V).get? k = none := rfl

theorem lookup_eq_some {l : List (K × V)} (h : lookup l k = some v) : (k, v) ∈ l := by
  induction l with
  | nil => cases h
  | cons p l ih =>
    obtain ⟨k', v'⟩ := p
    unfold lookup at h
    split at h
    · rename_i hk
      cases h
      rw [hk]
      exact List.mem_cons_self
    · exact List.mem_cons_of_mem _ (ih h)

theorem lookup_cons (k' : K) (v : V) (l : List (K × V)) :
    lookup ((k', v) :: l) k = if k' = k then some v else lookup l k := rfl

theorem lookup_eq_none {l : List (K × V)} (h : k ∉ l.map Prod.fst) : lookup l k = none := by
  cases hlookup : lookup l k with
  | none => rfl
  | some v => exact absurd (List.mem_map_of_mem (f := Prod.fst) (lookup_eq_some hlookup)) h

theorem lookup_of_mem {l : List (K × V)} (hnodup : (l.map Prod.fst).Nodup) (h : (k, v) ∈ l) :
    lookup l k = some v := by
  induction l with
  | nil => cases h
  | cons p l ih =>
    obtain ⟨k', v'⟩ := p
    obtain ⟨hnot, hrest⟩ := List.nodup_cons.mp hnodup
    unfold lookup
    rcases List.mem_cons.mp h with heq | hin
    · cases heq
      rw [if_pos rfl]
    · rw [if_neg]
      · exact ih hrest hin
      · intro hk
        have hmem := List.mem_map_of_mem (f := Prod.fst) hin
        rw [← hk] at hmem
        exact hnot hmem

theorem get?_eq_some_iff : d.get? k = some v ↔ (k, v) ∈ d.items :=
  ⟨lookup_eq_some, lookup_of_mem d.nodup⟩

theorem lookup_alterItems (f : Option V → V) (l : List (K × V)) :
    lookup (alterItems k f l) k' = if k' = k then some (f (lookup l k)) else lookup l k' := by
  induction l with
  | nil =>
    by_cases hk : k' = k
    · simp [alterItems, lookup, hk]
    · simp [alterItems, lookup, hk, Ne.symm hk]
  | cons p l ih =>
    obtain ⟨k₀, v⟩ := p
    unfold alterItems
    by_cases hk : k₀ = k
    · subst hk
      by_cases hk' : k' = k₀
      · simp [lookup, hk']
      · simp [lookup, hk', Ne.symm hk']
    · rw [if_neg hk]
      unfold lookup
      rw [ih, if_neg hk]
      by_cases hk' : k₀ = k'
      · rw [if_pos hk', if_pos hk', if_neg]
        rintro rfl
        exact hk hk'
      · rw [if_neg hk', if_neg hk']

theorem get?_alter (f : Option V → V) :
    (d.alter k f).get? k' = if k' = k then some (f (d.get? k)) else d.get? k' :=
  lookup_alterItems f d.items

end Get

/-! ## Writing and deleting -/

/-- `d[k] = v`. -/
def insert (k : K) (v : V) (d : Dict K V) : Dict K V := d.alter k fun _ => v

/-- `del d[k]`, nothing where there is no such key. -/
def erase (k : K) (d : Dict K V) : Dict K V where
  items := d.items.filter fun p => p.1 ≠ k
  nodup := d.nodup.sublist (List.filter_sublist.map Prod.fst)

/-- `d.values()`. -/
def values (d : Dict K V) : List V := d.items.map Prod.snd

section Write
variable {d : Dict K V} {k k' : K} {v : V}

theorem get?_insert : (d.insert k v).get? k' = if k' = k then some v else d.get? k' :=
  get?_alter _

theorem get?_erase : (d.erase k).get? k' = if k' = k then none else d.get? k' := by
  ext w
  rw [get?_eq_some_iff, erase, List.mem_filter, ← get?_eq_some_iff]
  by_cases hk : k' = k
  · simp [hk]
  · simp [hk]

/-- Several keys are deleted, one after the other. -/
theorem items_foldl_erase (keys : List K) (d : Dict K V) :
    (keys.foldl (fun d k => d.erase k) d).items = d.items.filter fun p => p.1 ∉ keys := by
  induction keys generalizing d with
  | nil => simp
  | cons k keys ih =>
    rw [List.foldl_cons, ih, erase, List.filter_filter]
    refine List.filter_congr fun p _ => ?_
    by_cases hk : p.1 = k
    · simp [hk]
    · simp [hk]

theorem lookup_append (l l' : List (K × V)) (k : K) :
    lookup (l ++ l') k = (lookup l k).or (lookup l' k) := by
  induction l with
  | nil => rfl
  | cons p l ih =>
    obtain ⟨k', v⟩ := p
    rw [List.cons_append, lookup_cons, lookup_cons, ih]
    split <;> rfl

/-- Several items are written, one after the other: the last one under a key counts. -/
theorem get?_foldl_insert (l : List (K × V)) (d : Dict K V) (k : K) :
    (l.foldl (fun d p => d.insert p.1 p.2) d).get? k = (lookup l.reverse k).or (d.get? k) := by
  induction l generalizing d with
  | nil => rfl
  | cons p l ih =>
    rw [List.foldl_cons, ih, get?_insert, List.reverse_cons, lookup_append, Option.or_assoc]
    congr 1
    obtain ⟨k', v⟩ := p
    rw [lookup_cons]
    by_cases hk : k = k'
    · rw [if_pos hk, if_pos hk.symm]
      rfl
    · rw [if_neg hk, if_neg (Ne.symm hk)]
      rfl

/-- Where no key comes twice, all items count. -/
theorem get?_foldl_insert_iff {l : List (K × V)} (h : (l.map Prod.fst).Nodup) :
    (l.foldl (fun d p => d.insert p.1 p.2) empty).get? k = some v ↔ (k, v) ∈ l := by
  have hreverse : (l.reverse.map Prod.fst).Nodup := by
    rw [List.map_reverse]
    exact List.nodup_reverse.mpr h
  rw [get?_foldl_insert, get?_empty, Option.or_none]
  constructor
  · intro hlookup
    exact List.mem_reverse.mp (lookup_eq_some hlookup)
  · intro hmem
    exact lookup_of_mem hreverse (List.mem_reverse.mpr hmem)

theorem mem_values_iff : v ∈ d.values ↔ ∃ k, d.get? k = some v := by
  simp [values, get?_eq_some_iff]

end Write

/-! ## Counting -/

/-- One more of a key. -/
def bump (d : Dict K Nat) (k : K) : Dict K Nat := d.alter k fun n => n.getD 0 + 1

/-- One more of a key, as the two assignments that programs make of it. -/
theorem bump_eq_insert (d : Dict K Nat) (k : K) :
    d.bump k = d.insert k ((d.get? k).getD 0 + 1) := by
  have hitems : ∀ l : List (K × Nat), alterItems k (fun n => n.getD 0 + 1) l =
      alterItems k (fun _ => (lookup l k).getD 0 + 1) l := by
    intro l
    induction l with
    | nil => rfl
    | cons p l ih =>
      obtain ⟨k', n⟩ := p
      unfold alterItems
      rw [lookup_cons]
      by_cases hk : k' = k
      · rw [if_pos hk, if_pos hk, if_pos hk]
      · rw [if_neg hk, if_neg hk, if_neg hk, ih]
  unfold bump insert alter get?
  simp only [hitems]

/-- How often each key is there. -/
def tally (l : List K) : Dict K Nat := l.foldl bump empty

theorem getD_foldl_bump (l : List K) (d : Dict K Nat) (k : K) :
    ((l.foldl bump d).get? k).getD 0 = (d.get? k).getD 0 + l.count k := by
  induction l generalizing d with
  | nil => rfl
  | cons a l ih =>
    rw [List.foldl_cons, ih, bump, get?_alter, List.count_cons]
    by_cases hk : k = a
    · rw [if_pos hk, hk]
      simp
      omega
    · rw [if_neg hk]
      simp [Ne.symm hk]

/-- Only what was seen is there. -/
theorem pos_of_foldl_bump (l : List K) {d : Dict K Nat} (hd : ∀ k n, d.get? k = some n → 0 < n)
    {k : K} {n : Nat} (h : (l.foldl bump d).get? k = some n) : 0 < n := by
  induction l generalizing d with
  | nil => exact hd k n h
  | cons a l ih =>
    refine ih (fun k n hn => ?_) h
    rw [bump, get?_alter] at hn
    split at hn
    · cases hn
      omega
    · exact hd k n hn

theorem get?_tally (l : List K) (k : K) :
    (tally l).get? k = if l.count k = 0 then none else some (l.count k) := by
  have hcount := getD_foldl_bump l empty k
  rw [get?_empty, Option.getD_none, Nat.zero_add] at hcount
  have hpos : ∀ n, (tally l).get? k = some n → 0 < n :=
    fun n hn => pos_of_foldl_bump l (fun _ _ h => by cases h) hn
  unfold tally at hpos ⊢
  cases hget : (l.foldl bump empty).get? k with
  | none =>
    rw [hget, Option.getD_none] at hcount
    rw [if_pos hcount.symm]
  | some n =>
    have hn := hpos n hget
    rw [hget, Option.getD_some] at hcount
    rw [← hcount, if_neg (by omega)]

theorem isSome_get?_tally {l : List K} {k : K} : ((tally l).get? k).isSome ↔ k ∈ l := by
  rw [get?_tally]
  split
  · rename_i hzero
    simp [List.count_eq_zero.mp hzero]
  · rename_i hne
    simp [List.count_pos_iff.mp (Nat.pos_of_ne_zero hne)]

theorem mem_tally {l : List K} {k : K} {n : Nat} :
    (k, n) ∈ (tally l).items ↔ n = l.count k ∧ 0 < n := by
  rw [← get?_eq_some_iff, get?_tally]
  split
  · rename_i hzero
    constructor
    · intro h
      cases h
    · rintro ⟨rfl, hpos⟩
      omega
  · rename_i hne
    rw [Option.some.injEq]
    constructor
    · rintro rfl
      exact ⟨rfl, by omega⟩
    · rintro ⟨rfl, -⟩
      rfl

/-- The sum of the values under the keys that a test accepts. -/
def weight (test : K → Bool) : List (K × Nat) → Nat
  | [] => 0
  | (k, n) :: l => (if test k then n else 0) + weight test l

omit [DecidableEq K] in
theorem weight_perm {test : K → Bool} {l l' : List (K × Nat)} (h : l.Perm l') :
    weight test l = weight test l' := by
  induction h with
  | nil => rfl
  | cons p _ ih => rw [weight, weight, ih]
  | swap p q l =>
    rw [weight, weight, weight, weight]
    omega
  | trans _ _ ih ih' => exact ih.trans ih'

omit [DecidableEq K] in
theorem weight_append (test : K → Bool) (l l' : List (K × Nat)) :
    weight test (l ++ l') = weight test l + weight test l' := by
  induction l with
  | nil => exact (Nat.zero_add _).symm
  | cons p l ih =>
    rw [List.cons_append, weight, weight, ih]
    omega

omit [DecidableEq K] in
/-- A test that accepts more gives more. -/
theorem weight_mono {test test' : K → Bool} {l : List (K × Nat)}
    (h : ∀ k ∈ l.map Prod.fst, test k = true → test' k = true) :
    weight test l ≤ weight test' l := by
  induction l with
  | nil => exact Nat.le_refl 0
  | cons p l ih =>
    rw [List.map_cons, List.forall_mem_cons] at h
    have hrest := ih h.2
    rw [weight, weight]
    by_cases htest : test p.1 = true
    · rw [if_pos htest, if_pos (h.1 htest)]
      omega
    · rw [if_neg htest]
      omega

theorem weight_bump (test : K → Bool) (d : Dict K Nat) (k : K) :
    weight test (d.bump k).items = weight test d.items + if test k then 1 else 0 := by
  show weight test (alterItems k _ d.items) = _
  induction d.items with
  | nil =>
    unfold alterItems
    rw [weight, Option.getD_none, Nat.zero_add, Nat.add_comm]
    rfl
  | cons p l ih =>
    obtain ⟨k', n⟩ := p
    unfold alterItems
    by_cases hk : k' = k
    · rw [if_pos hk, weight, weight, hk, Option.getD_some]
      split
      · omega
      · omega
    · rw [if_neg hk, weight, weight, ih]
      omega

theorem weight_tally (test : K → Bool) (l : List K) :
    weight test (tally l).items = l.countP test := by
  have hfold : ∀ d : Dict K Nat, weight test (l.foldl bump d).items =
      weight test d.items + l.countP test := by
    induction l with
    | nil => exact fun _ => rfl
    | cons a l ih =>
      intro d
      rw [List.foldl_cons, ih, weight_bump, List.countP_cons]
      omega
  rw [tally, hfold]
  exact Nat.zero_add _

/-! ## Going through a dictionary -/

/-- A new value for each key. -/
def map (f : K → V → W) (d : Dict K V) : Dict K W where
  items := d.items.map fun p => (p.1, f p.1 p.2)
  nodup := by
    rw [List.map_map]
    exact d.nodup

theorem get?_map (f : K → V → W) (d : Dict K V) (k : K) :
    (d.map f).get? k = (d.get? k).map (f k) := by
  show lookup (d.items.map _) k = (lookup d.items k).map (f k)
  induction d.items with
  | nil => rfl
  | cons p l ih =>
    obtain ⟨k', v⟩ := p
    rw [List.map_cons]
    unfold lookup
    by_cases hk : k' = k
    · rw [if_pos hk, if_pos hk, Option.map_some, hk]
    · rw [if_neg hk, if_neg hk, ih]

/-- A new value for each key, unless one of them fails. -/
def traverseItems (f : K → V → Option W) : List (K × V) → Option (List (K × W))
  | [] => some []
  | (k, v) :: l =>
    match f k v with
    | none => none
    | some w =>
      match traverseItems f l with
      | none => none
      | some l => some ((k, w) :: l)

omit [DecidableEq K] in
theorem keys_traverseItems {f : K → V → Option W} {l : List (K × V)} {l' : List (K × W)}
    (h : traverseItems f l = some l') : l'.map Prod.fst = l.map Prod.fst := by
  induction l generalizing l' with
  | nil =>
    cases h
    rfl
  | cons p l ih =>
    obtain ⟨k, v⟩ := p
    unfold traverseItems at h
    split at h
    · cases h
    · split at h
      · cases h
      · rename_i l₁ htail
        cases h
        rw [List.map_cons, List.map_cons, ih htail]

def traverse (f : K → V → Option W) (d : Dict K V) : Option (Dict K W) :=
  match h : traverseItems f d.items with
  | none => none
  | some items => some ⟨items, keys_traverseItems h ▸ d.nodup⟩

/-- A dictionary of one item. -/
def single (k : K) (v : V) : Dict K V := ⟨[(k, v)], by simp⟩

section Traverse
variable {f : K → V → Option W} {d : Dict K V} {d' : Dict K W}

omit [DecidableEq K] in
theorem traverseItems_cons {k : K} {v : V} {l : List (K × V)} {l' : List (K × W)}
    (h : traverseItems f ((k, v) :: l) = some l') :
    ∃ w rest, f k v = some w ∧ traverseItems f l = some rest ∧ l' = (k, w) :: rest := by
  unfold traverseItems at h
  split at h
  · cases h
  · rename_i w hw
    split at h
    · cases h
    · rename_i rest hrest
      cases h
      exact ⟨w, rest, hw, hrest, rfl⟩

omit [DecidableEq K] in
theorem items_of_traverse (h : d.traverse f = some d') :
    traverseItems f d.items = some d'.items := by
  unfold traverse at h
  split at h
  · cases h
  · rename_i items hitems
    cases h
    exact hitems

omit [DecidableEq K] in
theorem traverse_single (k : K) (v : V) : (single k v).traverse f = (f k v).map (single k) := by
  unfold traverse
  cases hf : f k v with
  | none =>
    split
    · rfl
    · rename_i items hitems
      obtain ⟨w, rest, hw, -, -⟩ := traverseItems_cons hitems
      rw [hf] at hw
      cases hw
  | some w =>
    have hone : traverseItems f (single k v).items = some [(k, w)] := by
      show traverseItems f [(k, v)] = _
      unfold traverseItems
      rw [hf]
      rfl
    split
    · rename_i hnone
      rw [hone] at hnone
      cases hnone
    · rename_i items hitems
      rw [hone] at hitems
      cases hitems
      rfl

theorem get?_traverse (h : d.traverse f = some d') (k : K) :
    d'.get? k = (d.get? k).bind (f k) := by
  have hitems := items_of_traverse h
  unfold get?
  generalize d.items = l at hitems
  generalize d'.items = l' at hitems
  induction l generalizing l' with
  | nil =>
    cases hitems
    rfl
  | cons p l ih =>
    obtain ⟨k', v⟩ := p
    obtain ⟨w, rest, hw, hrest, rfl⟩ := traverseItems_cons hitems
    unfold lookup
    by_cases hk : k' = k
    · rw [if_pos hk, if_pos hk, Option.bind_some, ← hk, hw]
    · rw [if_neg hk, if_neg hk]
      exact ih rest hrest

/-- It succeeds if it does for every item. -/
theorem traverse_isSome :
    (d.traverse f).isSome ↔ ∀ k v, d.get? k = some v → (f k v).isSome := by
  have hiff : (traverseItems f d.items).isSome ↔ ∀ k v, (k, v) ∈ d.items → (f k v).isSome := by
    induction d.items with
    | nil => simp [traverseItems]
    | cons p l ih =>
      obtain ⟨k, v⟩ := p
      unfold traverseItems
      constructor
      · intro h k' v' hmem
        split at h
        · cases h
        · rename_i w hw
          split at h
          · cases h
          · rename_i rest hrest
            rcases List.mem_cons.mp hmem with heq | hin
            · cases heq
              rw [hw]
              rfl
            · exact ih.mp (by rw [hrest]; rfl) k' v' hin
      · intro h
        obtain ⟨w, hw⟩ := Option.isSome_iff_exists.mp (h k v List.mem_cons_self)
        obtain ⟨rest, hrest⟩ := Option.isSome_iff_exists.mp
          (ih.mpr fun k' v' hin => h k' v' (List.mem_cons_of_mem _ hin))
        simp only [hw, hrest]
        rfl
  have hsome : (d.traverse f).isSome ↔ (traverseItems f d.items).isSome := by
    unfold traverse
    split
    · rename_i hnone
      simp [hnone]
    · rename_i items hitems
      simp [hitems]
  rw [hsome, hiff]
  exact ⟨fun h k v hget => h k v (get?_eq_some_iff.mp hget),
    fun h k v hmem => h k v (get?_eq_some_iff.mpr hmem)⟩

/-- What a key has afterwards. -/
theorem exists_of_traverse (h : d.traverse f = some d') {k : K} {v : V} (hget : d.get? k = some v) :
    ∃ w, f k v = some w ∧ d'.get? k = some w := by
  have hsome : (d.traverse f).isSome := Option.isSome_iff_exists.mpr ⟨d', h⟩
  obtain ⟨w, hw⟩ := Option.isSome_iff_exists.mp (traverse_isSome.mp hsome k v hget)
  refine ⟨w, hw, ?_⟩
  rw [get?_traverse h, hget]
  exact hw

end Traverse

/-- At most one item has a key. -/
theorem countP_key (d : Dict K V) (k : K) (test : V → Bool) :
    (d.items.countP fun p => p.1 = k ∧ test p.2) =
      if (d.get? k).any test then 1 else 0 := by
  have hnodup := d.nodup
  unfold get?
  generalize d.items = l at hnodup
  induction l with
  | nil => rfl
  | cons p l ih =>
    obtain ⟨k', v⟩ := p
    obtain ⟨hnot, hrest⟩ := List.nodup_cons.mp hnodup
    unfold lookup
    rw [List.countP_cons]
    by_cases hk : k' = k
    · have hzero : (l.countP fun p => p.1 = k ∧ test p.2) = 0 := by
        refine List.countP_eq_zero.mpr fun p hp htest => hnot ?_
        have hmem := List.mem_map_of_mem (f := Prod.fst) hp
        rw [(of_decide_eq_true htest).1, ← hk] at hmem
        exact hmem
      rw [hzero, if_pos hk]
      simp [hk]
    · rw [ih hrest, if_neg hk]
      simp [hk]

end Dict

end LoPhi.Lib
