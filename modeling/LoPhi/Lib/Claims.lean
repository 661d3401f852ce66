import Mathlib.Data.List.Basic

/-! # Claims to places

Claims to places are made one after the other. A place goes to whoever claims it, unless the
claim conflicts with the one who holds the place: then the holder keeps it, and the claim is
noted. What happens at one place depends on the claims to that place only. Where a conflict is a
difference in kind, every place stays with the kind that claimed it first. -/

namespace LoPhi.Lib.Claims

variable {P C K : Type} [DecidableEq P] (conflict : C → C → Prop) [DecidableRel conflict]

/-- Who holds which place, and the claims that were turned away, each with the holder. -/
structure Board (P C : Type) where
  holder : P → Option C
  noted : List (P × C × C)

/-- The holder of a place after one more claim to it. -/
def settle (holder : Option C) (c : C) : Option C :=
  match holder with
  | none => some c
  | some h => if conflict c h then some h else some c

/-- What is noted of a claim. -/
def note (p : P) (holder : Option C) (c : C) : List (P × C × C) :=
  match holder with
  | none => []
  | some h => if conflict c h then [(p, c, h)] else []

def claim (b : Board P C) (pc : P × C) : Board P C where
  holder := fun p => if p = pc.1 then settle conflict (b.holder p) pc.2 else b.holder p
  noted := b.noted ++ note conflict pc.1 (b.holder pc.1) pc.2

/-- Those who claim a place. -/
def claimants (p : P) (l : List (P × C)) : List C :=
  l.filterMap fun pc => if pc.1 = p then some pc.2 else none

/-- Those who are turned away at a place. -/
def turnedAway : Option C → List C → List C
  | _, [] => []
  | none, c :: cs => turnedAway (some c) cs
  | some h, c :: cs =>
    if conflict c h then c :: turnedAway (some h) cs else turnedAway (some c) cs

/-- The claims noted at a place. -/
def notedAt (p : P) (noted : List (P × C × C)) : List C :=
  noted.filterMap fun n => if n.1 = p then some n.2.1 else none

variable {conflict} {p : P} {l : List (P × C)} {b : Board P C} {c h o : C} {cs : List C}

theorem mem_claimants : c ∈ claimants p l ↔ (p, c) ∈ l := by
  unfold claimants
  rw [List.mem_filterMap]
  constructor
  · rintro ⟨⟨p', c'⟩, hmem, heq⟩
    split at heq
    · rename_i hp
      cases heq
      exact hp ▸ hmem
    · cases heq
  · intro hmem
    exact ⟨(p, c), hmem, if_pos rfl⟩

theorem claimants_cons (pc : P × C) (l : List (P × C)) :
    claimants p (pc :: l) = if pc.1 = p then pc.2 :: claimants p l else claimants p l := by
  unfold claimants
  rw [List.filterMap_cons]
  by_cases hp : pc.1 = p
  · rw [if_pos hp, if_pos hp]
  · rw [if_neg hp, if_neg hp]

/-! ## One place -/

theorem holder_claim (b : Board P C) (pc : P × C) (p : P) :
    (claim conflict b pc).holder p =
      if pc.1 = p then settle conflict (b.holder p) pc.2 else b.holder p := by
  unfold claim
  dsimp only
  by_cases hp : pc.1 = p
  · rw [if_pos hp, if_pos hp.symm]
  · rw [if_neg hp, if_neg (Ne.symm hp)]

theorem holder_foldl (l : List (P × C)) (b : Board P C) (p : P) :
    (l.foldl (claim conflict) b).holder p =
      (claimants p l).foldl (settle conflict) (b.holder p) := by
  induction l generalizing b with
  | nil => rfl
  | cons pc l ih =>
    rw [List.foldl_cons, ih, claimants_cons, holder_claim]
    by_cases hp : pc.1 = p
    · rw [if_pos hp, if_pos hp, List.foldl_cons]
    · rw [if_neg hp, if_neg hp]

theorem notedAt_note (p : P) (holder : Option C) (c : C) (cs : List C) :
    notedAt p (note conflict p holder c) ++ turnedAway conflict (settle conflict holder c) cs =
      turnedAway conflict holder (c :: cs) := by
  cases holder with
  | none => rfl
  | some h =>
    unfold note settle
    rw [turnedAway]
    by_cases hconflict : conflict c h
    · simp [hconflict, notedAt]
    · simp [hconflict, notedAt]

theorem notedAt_note_ne {p' : P} (hp : p' ≠ p) (holder : Option C) (c : C) :
    notedAt p (note conflict p' holder c) = [] := by
  unfold note
  cases holder with
  | none => rfl
  | some h =>
    dsimp only
    split
    · simp [notedAt, hp]
    · rfl

theorem notedAt_foldl (l : List (P × C)) (b : Board P C) (p : P) :
    notedAt p (l.foldl (claim conflict) b).noted =
      notedAt p b.noted ++ turnedAway conflict (b.holder p) (claimants p l) := by
  induction l generalizing b with
  | nil => simp [claimants, turnedAway]
  | cons pc l ih =>
    have happend : notedAt p (claim conflict b pc).noted =
        notedAt p b.noted ++ notedAt p (note conflict pc.1 (b.holder pc.1) pc.2) :=
      List.filterMap_append
    rw [List.foldl_cons, ih, happend, List.append_assoc, claimants_cons, holder_claim]
    congr 1
    by_cases hp : pc.1 = p
    · rw [if_pos hp, if_pos hp, ← notedAt_note p, hp]
    · rw [if_neg hp, if_neg hp, notedAt_note_ne hp]
      rfl

theorem isSome_foldl_settle (cs : List C) (holder : Option C) :
    (cs.foldl (settle conflict) holder).isSome ↔ holder.isSome ∨ cs ≠ [] := by
  induction cs generalizing holder with
  | nil => simp
  | cons c cs ih =>
    rw [List.foldl_cons, ih]
    have hsettle : (settle conflict holder c).isSome := by
      unfold settle
      split
      · rfl
      · split <;> rfl
    simp [hsettle]

/-- A place is held by one who claimed it. -/
theorem mem_of_foldl_settle {holder : Option C} (h : cs.foldl (settle conflict) holder = some o) :
    holder = some o ∨ o ∈ cs := by
  induction cs generalizing holder with
  | nil => exact .inl h
  | cons c cs ih =>
    rcases ih h with hsettle | hmem
    · unfold settle at hsettle
      split at hsettle
      · cases hsettle
        exact .inr List.mem_cons_self
      · split at hsettle
        · exact .inl hsettle
        · cases hsettle
          exact .inr List.mem_cons_self
    · exact .inr (List.mem_cons_of_mem _ hmem)

/-! ## Conflicts of kind -/

/-- Claims conflict where their kinds differ. -/
def OfKind (conflict : C → C → Prop) (kind : C → K) (cs : List C) : Prop :=
  ∀ c ∈ cs, ∀ h ∈ cs, conflict c h ↔ kind c ≠ kind h

/-- The first kind keeps the place, and exactly the claims of other kinds are turned away. -/
theorem foldl_settle_ofKind [DecidableEq K] {kind : C → K}
    (hkind : OfKind conflict kind (h :: cs)) :
    (∃ o ∈ h :: cs, cs.foldl (settle conflict) (some h) = some o ∧ kind o = kind h) ∧
      turnedAway conflict (some h) cs = cs.filter fun c => kind c ≠ kind h := by
  induction cs generalizing h with
  | nil => exact ⟨⟨h, List.mem_cons_self, rfl, rfl⟩, rfl⟩
  | cons c cs ih =>
    have hiff := hkind c (by simp) h (by simp)
    unfold turnedAway
    rw [List.foldl_cons]
    by_cases hsame : kind c = kind h
    · have hno : ¬ conflict c h := fun hc => hiff.mp hc hsame
      obtain ⟨⟨o, ho, hfold, hkindo⟩, haway⟩ := ih fun c' hc' h' hh' =>
        hkind c' (List.mem_cons_of_mem _ hc') h' (List.mem_cons_of_mem _ hh')
      rw [settle, if_neg hno, if_neg hno, List.filter_cons_of_neg (by simp [hsame]), haway, hsame]
      exact ⟨⟨o, List.mem_cons_of_mem _ ho, hfold, hkindo.trans hsame⟩, rfl⟩
    · have hyes : conflict c h := hiff.mpr hsame
      have hsub : ∀ {x}, x ∈ h :: cs → x ∈ h :: c :: cs := by
        intro x hx
        rcases List.mem_cons.mp hx with rfl | hx
        · exact List.mem_cons_self
        · exact List.mem_cons_of_mem _ (List.mem_cons_of_mem _ hx)
      obtain ⟨⟨o, ho, hfold, hkindo⟩, haway⟩ := ih fun c' hc' h' hh' =>
        hkind c' (hsub hc') h' (hsub hh')
      rw [settle, if_pos hyes, if_pos hyes, List.filter_cons_of_pos (by simp [hsame]), haway]
      exact ⟨⟨o, hsub ho, hfold, hkindo⟩, rfl⟩

end LoPhi.Lib.Claims
