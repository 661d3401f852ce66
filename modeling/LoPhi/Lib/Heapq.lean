import Mathlib.Data.List.Perm.Basic
import Mathlib.Order.Lattice

/-! # Binary heaps in a list

Python's `heapq`: the children of position `i` are at `2 * i + 1` and
`2 * i + 2`. The comparison is a parameter, and the heap order is that of a key
it respects, so entries with equal keys may be compared in any way. Moving a
held-back entry into place is written as a series of swaps. -/

namespace LoPhi.Lib.Heapq

variable {α κ : Type*} [LinearOrder κ]

/-- The entry at one position is less than that at another. -/
def less (lt : α → α → Bool) (heap : List α) (i j : Nat) : Bool :=
  match heap[i]?, heap[j]? with
  | some a, some b => lt a b
  | _, _ => false

/-- `_siftdown(heap, 0, pos)`: the entry moves towards the root past every larger
parent. `fuel` bounds the number of moves; `pos` is enough. -/
def siftdown (lt : α → α → Bool) : Nat → List α → Nat → List α
  | 0, heap, _ => heap
  | fuel + 1, heap, pos =>
    if pos = 0 then heap
    else if less lt heap pos ((pos - 1) / 2) then
      siftdown lt fuel (heap.swap pos ((pos - 1) / 2)) ((pos - 1) / 2)
    else heap

/-- The smaller child of a position that has one; of two that are not less than
each other, the right one. -/
def smallerChild (lt : α → α → Bool) (heap : List α) (pos : Nat) : Nat :=
  if 2 * pos + 2 < heap.length ∧ less lt heap (2 * pos + 1) (2 * pos + 2) = false then 2 * pos + 2
  else 2 * pos + 1

/-- `_siftup(heap, pos)`: the entry moves down to a leaf along the smaller
children, then up to its place. The heap's length is enough fuel. -/
def siftup (lt : α → α → Bool) : Nat → List α → Nat → List α
  | 0, heap, pos => siftdown lt pos heap pos
  | fuel + 1, heap, pos =>
    if 2 * pos + 1 < heap.length then
      siftup lt fuel (heap.swap pos (smallerChild lt heap pos)) (smallerChild lt heap pos)
    else siftdown lt pos heap pos

/-- `heappush`. -/
def heappush (lt : α → α → Bool) (heap : List α) (item : α) : List α :=
  siftdown lt heap.length (heap ++ [item]) heap.length

/-- `heappop`: the root, and the heap with its last entry moved to the root and
sifted. An empty heap has nothing to pop. -/
def heappop (lt : α → α → Bool) : List α → Option (α × List α)
  | [] => none
  | [root] => some (root, [])
  | root :: x :: rest =>
    let heap := (x :: rest).getLast (by simp) :: (x :: rest).dropLast
    some (root, siftup lt heap.length heap 0)

/-! ## Order between positions -/

def Child (p c : Nat) : Prop := c = 2 * p + 1 ∨ c = 2 * p + 2

/-- The entries at the two positions, if both exist, have keys in order. -/
def Below (key : α → κ) (heap : List α) (i j : Nat) : Prop :=
  ∀ a b, heap[i]? = some a → heap[j]? = some b → key a ≤ key b

/-- The heap invariant. -/
def IsHeap (key : α → κ) (heap : List α) : Prop := ∀ p c, Child p c → Below key heap p c

variable {key : α → κ} {lt : α → α → Bool} {heap : List α}

theorem Below.trans {i j k : Nat} (h : Below key heap i j) (h' : Below key heap j k)
    (hj : j < heap.length) : Below key heap i k := by
  intro a c ha hc
  have hb := List.getElem?_eq_getElem hj
  exact le_trans (h a _ ha hb) (h' _ c hb hc)

theorem below_of_length_le {i j : Nat} (hj : heap.length ≤ j) : Below key heap i j := by
  intro a b _ hb
  rw [List.getElem?_eq_none hj] at hb
  cases hb

/-- Where an entry was before two were swapped. -/
def origin (i j k : Nat) : Nat := if k = i then j else if k = j then i else k

theorem getElem?_swap {i j : Nat} (hi : i < heap.length) (hj : j < heap.length) (k : Nat) :
    (heap.swap i j)[k]? = heap[origin i j k]? := by
  unfold origin
  by_cases hk : k < heap.length
  · rw [List.getElem?_eq_getElem (by simpa using hk), List.getElem_swap]
    split
    · rename_i h
      simp [h.1, List.getElem?_eq_getElem h.2]
    · rename_i h
      have hki : k ≠ i := fun he => h ⟨he, hj⟩
      split
      · rename_i h'
        rw [if_pos h'.1, List.getElem?_eq_getElem h'.2]
      · rename_i h'
        have hkj : k ≠ j := fun he => h' ⟨he, hi⟩
        rw [if_neg hkj, List.getElem?_eq_getElem hk]
  · have hki : k ≠ i := by omega
    have hkj : k ≠ j := by omega
    have hle := Nat.le_of_not_lt hk
    rw [if_neg hki, if_neg hkj, List.getElem?_eq_none (by simpa using hle),
      List.getElem?_eq_none hle]

theorem below_swap {i j : Nat} (hi : i < heap.length) (hj : j < heap.length) {p c : Nat} :
    Below key (heap.swap i j) p c ↔ Below key heap (origin i j p) (origin i j c) := by
  unfold Below
  rw [getElem?_swap hi hj, getElem?_swap hi hj]

/-- The root of a heap has the least key. -/
theorem IsHeap.root_le (h : IsHeap key heap) (i : Nat) : Below key heap 0 i := by
  induction i using Nat.strongRecOn with
  | _ i ih =>
    by_cases hi : i < heap.length
    · by_cases h0 : i = 0
      · subst h0
        intro a b ha hb
        rw [ha] at hb
        exact (Option.some.inj hb) ▸ le_refl _
      · have hc : Child ((i - 1) / 2) i := by unfold Child; omega
        exact (ih ((i - 1) / 2) (by omega)).trans (h _ _ hc) (by omega)
    · exact below_of_length_le (Nat.le_of_not_lt hi)

/-! ## Sifting -/

/-- In order but between `pos` and its parent, which is in order with the
children of `pos`. -/
structure UpOrder (key : α → κ) (heap : List α) (pos : Nat) : Prop where
  except : ∀ p c, Child p c → c ≠ pos → Below key heap p c
  grand : ∀ p c, Child p pos → Child pos c → Below key heap p c

/-- In order but around `pos`, whose parent is in order with its children. -/
structure DownOrder (key : α → κ) (heap : List α) (pos : Nat) : Prop where
  except : ∀ p c, Child p c → p ≠ pos → c ≠ pos → Below key heap p c
  grand : ∀ p c, Child p pos → Child pos c → Below key heap p c

theorem IsHeap.upOrder_append {item : α} (h : IsHeap key heap) :
    UpOrder key (heap ++ [item]) heap.length := by
  constructor
  · intro p c hc hne a b ha hb
    have hcl := (List.getElem?_eq_some_iff.mp hb).1
    rw [List.length_append, List.length_singleton] at hcl
    have hpc : p < c := by unfold Child at hc; omega
    rw [List.getElem?_append_left (by omega)] at ha hb
    exact h p c hc a b ha hb
  · intro p c _ hc
    refine below_of_length_le ?_
    unfold Child at hc
    rw [List.length_append, List.length_singleton]
    omega

theorem UpOrder.isHeap {pos : Nat} (h : UpOrder key heap pos)
    (hp : ∀ p, Child p pos → Below key heap p pos) : IsHeap key heap := by
  intro p c hc
  by_cases he : c = pos
  · subst he; exact hp p hc
  · exact h.except p c hc he

/-- The entry at `pos` takes the place of its larger parent `q`. -/
theorem UpOrder.swap {pos q : Nat} (h : UpOrder key heap pos) (hq : Child q pos)
    (hpos : pos < heap.length) (hle : Below key heap pos q) :
    UpOrder key (heap.swap pos q) q := by
  have hlt : q < pos := by unfold Child at hq; omega
  have hql : q < heap.length := by omega
  have huniq : ∀ p, Child p pos → p = q := by intro p hp; unfold Child at hp hq; omega
  constructor
  · intro p c hc hcq
    rw [below_swap hpos hql]
    unfold origin
    rw [if_neg hcq]
    by_cases hcp : c = pos
    · -- the parent of `pos` is `q`: the two entries themselves
      subst hcp
      obtain rfl := huniq p hc
      rw [if_neg (by omega), if_pos rfl, if_pos rfl]
      exact hle
    · rw [if_neg hcp]
      by_cases hpp : p = pos
      · subst hpp
        rw [if_pos rfl]
        exact h.grand q c hq hc
      · rw [if_neg hpp]
        by_cases hpq : p = q
        · -- a sibling of `pos`
          subst hpq
          rw [if_pos rfl]
          exact hle.trans (h.except p c hc hcp) hql
        · rw [if_neg hpq]
          exact h.except p c hc hcp
  · intro p c hp hc
    have hpq : p < q := by unfold Child at hp; omega
    have hqc : q < c := by unfold Child at hc; omega
    rw [below_swap hpos hql]
    unfold origin
    rw [if_neg (by omega), if_neg (by omega)]
    by_cases hcp : c = pos
    · rw [if_pos hcp]
      exact h.except p q hp (by omega)
    · rw [if_neg hcp, if_neg (by omega)]
      exact (h.except p q hp (by omega)).trans (h.except q c hc hcp) hql

/-- The entry at `pos` changes places with a child not above its siblings. -/
theorem DownOrder.swap {pos ch : Nat} (h : DownOrder key heap pos) (hch : Child pos ch)
    (hlen : ch < heap.length) (hmin : ∀ c, Child pos c → Below key heap ch c) :
    DownOrder key (heap.swap pos ch) ch := by
  have hlt : pos < ch := by unfold Child at hch; omega
  have hpos : pos < heap.length := by omega
  have huniq : ∀ p, Child p ch → p = pos := by intro p hp; unfold Child at hp hch; omega
  constructor
  · intro p c hc hpc hcc
    rw [below_swap hpos hlen]
    unfold origin
    rw [if_neg hpc, if_neg hcc]
    by_cases hcp : c = pos
    · subst hcp
      have hpp : p ≠ c := by unfold Child at hc; omega
      rw [if_neg hpp, if_pos rfl]
      exact h.grand p ch hc hch
    · rw [if_neg hcp]
      by_cases hpp : p = pos
      · subst hpp
        rw [if_pos rfl]
        exact hmin c hc
      · rw [if_neg hpp]
        exact h.except p c hc hpp hcp
  · intro p c hp hc
    obtain rfl := huniq p hp
    have hcc : ch < c := by unfold Child at hc; omega
    rw [below_swap hpos hlen]
    unfold origin
    rw [if_pos rfl, if_neg (by omega), if_neg (by omega)]
    exact h.except ch c hc (by omega) (by omega)

theorem DownOrder.upOrder {pos : Nat} (h : DownOrder key heap pos)
    (hleaf : heap.length ≤ 2 * pos + 1) : UpOrder key heap pos := by
  constructor
  · intro p c hc hcp
    by_cases hp : p = pos
    · refine below_of_length_le ?_
      unfold Child at hc
      omega
    · exact h.except p c hc hp hcp
  · exact h.grand

/-! ## The operations -/

/-- The comparison respects the key. -/
structure Respects (key : α → κ) (lt : α → α → Bool) : Prop where
  le_of_lt : ∀ a b, lt a b = true → key a ≤ key b
  le_of_not_lt : ∀ a b, lt a b = false → key b ≤ key a

theorem Respects.below_of_less (hr : Respects key lt) {i j : Nat}
    (h : less lt heap i j = true) : Below key heap i j := by
  intro a b ha hb
  simp only [less, ha, hb] at h
  exact hr.le_of_lt a b h

theorem Respects.below_of_not_less (hr : Respects key lt) {i j : Nat}
    (h : less lt heap i j = false) : Below key heap j i := by
  intro b a hb ha
  simp only [less, ha, hb] at h
  exact hr.le_of_not_lt a b h

theorem siftdown_perm (lt : α → α → Bool) (fuel : Nat) (heap : List α) (pos : Nat) :
    (siftdown lt fuel heap pos).Perm heap := by
  induction fuel generalizing heap pos with
  | zero => exact List.Perm.refl heap
  | succ fuel ih =>
    unfold siftdown
    split
    · exact List.Perm.refl heap
    · split
      · exact (ih _ _).trans (List.swap_perm heap _ _)
      · exact List.Perm.refl heap

theorem siftup_perm (lt : α → α → Bool) (fuel : Nat) (heap : List α) (pos : Nat) :
    (siftup lt fuel heap pos).Perm heap := by
  induction fuel generalizing heap pos with
  | zero => exact siftdown_perm lt pos heap pos
  | succ fuel ih =>
    unfold siftup
    split
    · exact (ih _ _).trans (List.swap_perm heap _ _)
    · exact siftdown_perm lt pos heap pos

theorem siftdown_isHeap (hr : Respects key lt) {fuel pos : Nat} (hfuel : pos ≤ fuel)
    (hpos : pos < heap.length) (h : UpOrder key heap pos) :
    IsHeap key (siftdown lt fuel heap pos) := by
  induction fuel generalizing heap pos with
  | zero =>
    refine h.isHeap (fun p hp => ?_)
    unfold Child at hp
    omega
  | succ fuel ih =>
    unfold siftdown
    split
    · refine h.isHeap (fun p hp => ?_)
      unfold Child at hp
      omega
    · rename_i h0
      have hq : Child ((pos - 1) / 2) pos := by unfold Child; omega
      split
      · rename_i hl
        refine ih (by omega) ?_ (h.swap hq hpos (hr.below_of_less hl))
        rw [List.length_swap]
        omega
      · rename_i hl
        refine h.isHeap (fun p hp => ?_)
        obtain rfl : p = (pos - 1) / 2 := by unfold Child at hp; omega
        exact hr.below_of_not_less (by simpa using hl)

theorem smallerChild_child (lt : α → α → Bool) (heap : List α) (pos : Nat) :
    Child pos (smallerChild lt heap pos) := by
  unfold smallerChild
  split
  · exact .inr rfl
  · exact .inl rfl

theorem smallerChild_lt (lt : α → α → Bool) {pos : Nat} (h : 2 * pos + 1 < heap.length) :
    smallerChild lt heap pos < heap.length := by
  unfold smallerChild
  split
  · rename_i hc; exact hc.1
  · exact h

theorem smallerChild_below (hr : Respects key lt) (pos c : Nat) (hc : Child pos c) :
    Below key heap (smallerChild lt heap pos) c := by
  unfold smallerChild
  rcases hc with rfl | rfl
  · split
    · rename_i h; exact hr.below_of_not_less h.2
    · intro a b ha hb
      rw [ha] at hb
      exact (Option.some.inj hb) ▸ le_refl _
  · split
    · intro a b ha hb
      rw [ha] at hb
      exact (Option.some.inj hb) ▸ le_refl _
    · rename_i h
      by_cases hl : 2 * pos + 2 < heap.length
      · refine hr.below_of_less ?_
        by_contra hne
        exact h ⟨hl, by simpa using hne⟩
      · exact below_of_length_le (by omega)

theorem siftup_isHeap (hr : Respects key lt) {fuel pos : Nat} (hfuel : heap.length ≤ fuel + pos)
    (hpos : pos < heap.length) (h : DownOrder key heap pos) :
    IsHeap key (siftup lt fuel heap pos) := by
  induction fuel generalizing heap pos with
  | zero => omega
  | succ fuel ih =>
    unfold siftup
    split
    · rename_i hc
      have hch := smallerChild_child lt heap pos
      have hlt := smallerChild_lt lt hc
      have hpc : pos < smallerChild lt heap pos := by unfold Child at hch; omega
      refine ih ?_ ?_ (h.swap hch hlt (smallerChild_below hr pos))
      · rw [List.length_swap]; omega
      · rw [List.length_swap]; exact hlt
    · exact siftdown_isHeap hr (Nat.le_refl pos) hpos (h.upOrder (by omega))

theorem heappush_perm (lt : α → α → Bool) (heap : List α) (item : α) :
    (heappush lt heap item).Perm (item :: heap) :=
  (siftdown_perm lt _ _ _).trans (List.perm_append_singleton item heap)

theorem heappush_isHeap (hr : Respects key lt) (h : IsHeap key heap) (item : α) :
    IsHeap key (heappush lt heap item) :=
  siftdown_isHeap hr (Nat.le_refl _) (by simp) h.upOrder_append

/-- Moving the last entry to the root disturbs the order around the root only. -/
theorem downOrder_root {root x : α} {rest : List α} (h : IsHeap key (root :: x :: rest)) :
    DownOrder key ((x :: rest).getLast (by simp) :: (x :: rest).dropLast) 0 := by
  constructor
  · intro p c hc hp hcz a b ha hb
    obtain ⟨p, rfl⟩ : ∃ p', p = p' + 1 := ⟨p - 1, by omega⟩
    obtain ⟨c, rfl⟩ : ∃ c', c = c' + 1 := ⟨c - 1, by omega⟩
    rw [List.getElem?_cons_succ, List.getElem?_dropLast] at ha hb
    split at ha <;> split at hb
    · exact h _ _ hc a b ha hb
    · cases hb
    · cases ha
    · cases ha
  · intro p c hp
    unfold Child at hp
    omega

/-- Popping a heap gives its root and a heap of the rest. -/
theorem heappop_cons (hr : Respects key lt) {root : α} {rest : List α}
    (h : IsHeap key (root :: rest)) :
    ∃ heap', heappop lt (root :: rest) = some (root, heap') ∧ heap'.Perm rest ∧
      IsHeap key heap' := by
  cases rest with
  | nil =>
    refine ⟨[], rfl, List.Perm.refl [], fun p c _ => ?_⟩
    exact below_of_length_le (Nat.zero_le c)
  | cons x rest =>
    refine ⟨_, rfl, ?_, siftup_isHeap hr (Nat.le_refl _) (by simp) (downOrder_root h)⟩
    refine (siftup_perm lt _ _ _).trans ?_
    have happ := List.dropLast_append_getLast (l := x :: rest) (by simp)
    exact (List.perm_append_singleton _ _).symm.trans (List.Perm.of_eq happ)

end LoPhi.Lib.Heapq
