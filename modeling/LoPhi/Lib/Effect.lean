import Mathlib.Data.List.Basic

/-! # Programs with a state and exceptions

A program runs on a state and ends with a value or an exception; what it did to the
state before an exception stays done. `Keeps R` says that a program changes the state
only as `R` allows, whether or not it raises. For a reflexive and transitive `R` the
property passes through every way programs are put together, so a fact about a whole
program needs a proof only where the state is changed. -/

namespace LoPhi.Lib.Effect

variable {ε σ α β : Type}

/-- A program: from a state to a value or an exception, and the state after it. -/
def Prog (ε σ α : Type) := σ → Except ε α × σ

instance : Monad (Prog ε σ) where
  pure a := fun s => (.ok a, s)
  bind m f := fun s =>
    match m s with
    | (.ok a, s) => f a s
    | (.error e, s) => (.error e, s)

/-- The current state. -/
def get : Prog ε σ σ := fun s => (.ok s, s)

/-- A change of the state. -/
def modify (f : σ → σ) : Prog ε σ Unit := fun s => (.ok (), f s)

/-- An exception. -/
def raise (e : ε) : Prog ε σ α := fun s => (.error e, s)

/-- The value of an option, or an exception. -/
def orRaise (e : ε) : Option α → Prog ε σ α
  | none => raise e
  | some a => pure a

/-- A value or an exception that leaves the state as it is. -/
def ofExcept (result : Except ε α) : Prog ε σ α := fun s => (result, s)

section Values
variable {m : Prog ε σ α} {f : α → Prog ε σ β} {s s' : σ}

theorem bind_ok {a : α} (h : m s = (.ok a, s')) : (m >>= f) s = f a s' := by
  show (match m s with | (.ok a, s) => f a s | (.error e, s) => (.error e, s)) = _
  rw [h]

theorem bind_error {e : ε} (h : m s = (.error e, s')) : (m >>= f) s = (.error e, s') := by
  show (match m s with | (.ok a, s) => f a s | (.error e, s) => (.error e, s)) = _
  rw [h]

theorem ofExcept_ok_bind (a : α) (f : α → Prog ε σ β) : (ofExcept (.ok a) >>= f) = f a := rfl

theorem orRaise_some_bind (e : ε) (a : α) (f : α → Prog ε σ β) :
    (orRaise e (some a) >>= f) = f a := rfl

/-- Two programs in a row, where another program does what the first does. -/
theorem bind_congr_fst {m' : Prog ε σ α} {s₁ : σ} (h : m s = m' s₁) :
    (m >>= f) s = (m' >>= f) s₁ := by
  cases hrun : m' s₁ with
  | mk result s₂ =>
    rw [hrun] at h
    cases result with
    | error e => rw [bind_error h, bind_error hrun]
    | ok a => rw [bind_ok h, bind_ok hrun]

theorem bind_bind {γ : Type} (m : Prog ε σ α) (f : α → Prog ε σ β) (k : β → Prog ε σ γ) :
    (m >>= f) >>= k = m >>= fun a => f a >>= k := by
  funext s
  cases hrun : m s with
  | mk result s₁ =>
    cases result with
    | error e => rw [bind_error hrun, bind_error (bind_error hrun)]
    | ok a =>
      rw [bind_ok hrun]
      exact bind_congr_fst (bind_ok hrun)

/-- What is returned by two programs in a row is returned by the second. -/
theorem bind_returns {b : β} (h : (m >>= f) s = (.ok b, s')) :
    ∃ a s₁, m s = (.ok a, s₁) ∧ f a s₁ = (.ok b, s') := by
  cases hrun : m s with
  | mk result s₁ =>
    cases result with
    | error e =>
      rw [bind_error hrun] at h
      cases h
    | ok a =>
      rw [bind_ok hrun] at h
      exact ⟨a, s₁, rfl, h⟩

theorem returns_of_fst {a : α} (h : (m s).1 = .ok a) : m s = (.ok a, (m s).2) := Prod.ext h rfl

theorem orRaise_returns {e : ε} {x : Option α} {a : α} (h : orRaise e x s = (.ok a, s')) :
    x = some a ∧ s' = s := by
  cases x with
  | none => cases h
  | some b =>
    cases h
    exact ⟨rfl, rfl⟩

/-- A loop that returns has gone through all its elements. -/
theorem forM_returns {xs : List β} {body : β → Prog ε σ PUnit} {a : PUnit}
    (h : xs.forM body s = (.ok a, s')) : s' = xs.foldl (fun s x => (body x s).2) s := by
  induction xs generalizing s with
  | nil =>
    cases h
    rfl
  | cons x xs ih =>
    obtain ⟨b, s₁, hx, hxs⟩ := bind_returns h
    rw [List.foldl_cons, hx]
    exact ih hxs

end Values

/-- A loop that collects what its body returns. -/
def collect (body : α → Prog ε σ β) : List α → Prog ε σ (List β)
  | [] => pure []
  | x :: xs => do
    let y ← body x
    let ys ← collect body xs
    pure (y :: ys)

/-- What the body returns for an element is at its place in the collected list. -/
theorem collect_returns {P : α → β → Prop} {body : α → Prog ε σ β}
    (hbody : ∀ x s y s', body x s = (.ok y, s') → P x y) {xs : List α} {ys : List β} {s s' : σ}
    (h : collect body xs s = (.ok ys, s')) : List.Forall₂ P xs ys := by
  induction xs generalizing ys s with
  | nil =>
    cases h
    exact .nil
  | cons x xs ih =>
    obtain ⟨y, s₁, hx, h⟩ := bind_returns h
    obtain ⟨rest, s₂, hxs, h⟩ := bind_returns h
    cases h
    exact .cons (hbody x s y s₁ hx) (ih hxs)

/-- The loop returns if its body does for every element, in what the elements before it leave. -/
theorem collect_returns_iff {body : α → Prog ε σ β} {I : List α → σ → Prop}
    {P : List α → α → Prop}
    (hbody : ∀ done x s, I done s → ((∃ y s', body x s = (.ok y, s')) ↔ P done x))
    (hkeep : ∀ done x s y s', I done s → body x s = (.ok y, s') → I (done ++ [x]) s')
    (done : List α) {xs : List α} {s : σ} (h : I done s) :
    (∃ ys s', collect body xs s = (.ok ys, s')) ↔
      ∀ before x after, xs = before ++ x :: after → P (done ++ before) x := by
  induction xs generalizing done s with
  | nil =>
    refine ⟨fun _ before x after heq => absurd heq (by simp), fun _ => ⟨[], s, rfl⟩⟩
  | cons x xs ih =>
    constructor
    · rintro ⟨ys, s', hrun⟩
      obtain ⟨y, s₁, hx, hrest⟩ := bind_returns hrun
      obtain ⟨ys', s₂, hxs, -⟩ := bind_returns hrest
      have htail := (ih (done ++ [x]) (hkeep done x s y s₁ h hx)).mp ⟨ys', s₂, hxs⟩
      intro before x' after heq
      cases before with
      | nil =>
        cases heq
        rw [List.append_nil]
        exact (hbody done x s h).mp ⟨y, s₁, hx⟩
      | cons first before =>
        cases heq
        rw [List.append_cons]
        exact htail before x' after rfl
    · intro hall
      have hhead := hall [] x xs rfl
      rw [List.append_nil] at hhead
      obtain ⟨y, s₁, hx⟩ := (hbody done x s h).mpr hhead
      obtain ⟨ys, s₂, hxs⟩ := (ih (done ++ [x]) (hkeep done x s y s₁ h hx)).mpr
        fun before x' after heq => by
        rw [← List.append_cons]
        exact hall (x :: before) x' after (congrArg (x :: ·) heq)
      exact ⟨y :: ys, s₂, (bind_ok hx).trans ((bind_ok hxs).trans rfl)⟩

/-- Whatever the program does to the state, `R` allows it. -/
def Keeps (R : σ → σ → Prop) (m : Prog ε σ α) : Prop := ∀ s, R s (m s).2

/-- Nothing is a change `R` allows, and so are two of its changes one after the other. -/
structure Composes (R : σ → σ → Prop) : Prop where
  refl : ∀ s, R s s
  trans : ∀ {s s' s''}, R s s' → R s' s'' → R s s''

section Keeps
variable {R : σ → σ → Prop} {m : Prog ε σ α} {f : α → Prog ε σ β}

/-- A program that goes on from the state it reads. -/
theorem keeps_read {f : σ → Prog ε σ β} (h : ∀ s, R s (f s s).2) : Keeps R (get >>= f) := h

/-- A program that goes on from an option it has found: it raises, or has the value. -/
theorem orRaise_allowed {e : ε} {x : Option α} {s : σ} (hrefl : R s s)
    (h : ∀ a, x = some a → R s (f a s).2) : R s ((orRaise e x >>= f : Prog ε σ β) s).2 := by
  cases x with
  | none => exact hrefl
  | some a => exact h a rfl

theorem keeps_modify {change : σ → σ} (h : ∀ s, R s (change s)) :
    Keeps R (modify change : Prog ε σ Unit) := h

variable (hR : Composes R)
include hR

theorem keeps_pure (a : α) : Keeps R (pure a : Prog ε σ α) := hR.refl

theorem keeps_get : Keeps R (get : Prog ε σ σ) := hR.refl

theorem keeps_orRaise (e : ε) (x : Option α) : Keeps R (orRaise e x : Prog ε σ α) := by
  cases x with
  | none => exact hR.refl
  | some a => exact hR.refl

theorem keeps_ofExcept (result : Except ε α) : Keeps R (ofExcept result : Prog ε σ α) := hR.refl

theorem keeps_raise (e : ε) : Keeps R (raise e : Prog ε σ α) := hR.refl

/-- Two programs in a row, from one state: the second runs only if the first returns. -/
theorem bind_allowed {s : σ} (hm : R s (m s).2)
    (hf : ∀ a s', m s = (.ok a, s') → R s' (f a s').2) : R s ((m >>= f) s).2 := by
  cases hrun : m s with
  | mk result s' =>
    rw [hrun] at hm
    cases result with
    | error e =>
      rw [bind_error hrun]
      exact hm
    | ok a =>
      rw [bind_ok hrun]
      exact hR.trans hm (hf a s' hrun)

theorem keeps_bind (hm : Keeps R m) (hf : ∀ a, Keeps R (f a)) : Keeps R (m >>= f) :=
  fun s => bind_allowed hR (hm s) fun a s' _ => hf a s'

/-- What the second of two programs does to the state the first leaves. -/
theorem bind_after (hf : ∀ a, Keeps R (f a)) (s : σ) : R (m s).2 ((m >>= f) s).2 := by
  cases hrun : m s with
  | mk result s' =>
    cases result with
    | error e =>
      rw [bind_error hrun]
      exact hR.refl s'
    | ok a =>
      rw [bind_ok hrun]
      exact hf a s'

theorem keeps_forM {xs : List β} {body : β → Prog ε σ PUnit}
    (h : ∀ x ∈ xs, Keeps R (body x)) : Keeps R (xs.forM body) := by
  induction xs with
  | nil => exact hR.refl
  | cons x xs ih =>
    refine keeps_bind hR (h x (by simp)) fun _ => ?_
    exact ih fun y hy => h y (by simp [hy])

theorem keeps_collect {body : α → Prog ε σ β} {xs : List α} (h : ∀ x ∈ xs, Keeps R (body x)) :
    Keeps R (collect body xs) := by
  induction xs with
  | nil => exact hR.refl
  | cons x xs ih =>
    refine keeps_bind hR (h x (by simp)) fun y => ?_
    exact keeps_bind hR (ih fun z hz => h z (by simp [hz])) fun ys => keeps_pure hR _

/-- A loop whose body always returns from `I`, and establishes for its element what `R`
keeps, returns with that established for all elements. -/
theorem forM_establishes {I : σ → Prop} {P : β → σ → Prop}
    (hP : ∀ x s s', R s s' → P x s → P x s') {xs : List β} {body : β → Prog ε σ PUnit}
    (hbody : ∀ x ∈ xs, ∀ s, I s → ∃ s', body x s = (.ok ⟨⟩, s') ∧ I s' ∧ R s s' ∧ P x s')
    {s : σ} (hs : I s) :
    ∃ s', xs.forM body s = (.ok ⟨⟩, s') ∧ I s' ∧ R s s' ∧ ∀ x ∈ xs, P x s' := by
  induction xs generalizing s with
  | nil => exact ⟨s, rfl, hs, hR.refl s, by simp⟩
  | cons x xs ih =>
    obtain ⟨s₁, hx, hs₁, hR₁, hP₁⟩ := hbody x (by simp) s hs
    obtain ⟨s₂, hxs, hs₂, hR₂, hP₂⟩ := ih (fun y hy => hbody y (by simp [hy])) hs₁
    refine ⟨s₂, (bind_ok hx).trans hxs, hs₂, hR.trans hR₁ hR₂, fun y hy => ?_⟩
    obtain rfl | hy := List.mem_cons.mp hy
    · exact hP y s₁ s₂ hR₂ hP₁
    · exact hP₂ y hy

/-- What a body requires in order to return, and what `R` carries back to before it, a loop that
returns requires of all its elements at its start. -/
theorem forM_requires {P : β → σ → Prop} (hP : ∀ x s s', R s s' → P x s' → P x s) {xs : List β}
    {body : β → Prog ε σ PUnit}
    (hbody : ∀ x ∈ xs, ∀ s a s', body x s = (.ok a, s') → R s s' ∧ P x s) {s s' : σ} {a : PUnit}
    (h : xs.forM body s = (.ok a, s')) : R s s' ∧ ∀ x ∈ xs, P x s := by
  induction xs generalizing s with
  | nil =>
    cases h
    exact ⟨hR.refl _, by simp⟩
  | cons x xs ih =>
    obtain ⟨b, s₁, hx, hxs⟩ := bind_returns h
    obtain ⟨hR₁, hPx⟩ := hbody x (by simp) s b s₁ hx
    obtain ⟨hR₂, hPxs⟩ := ih (fun y hy => hbody y (by simp [hy])) hxs
    refine ⟨hR.trans hR₁ hR₂, fun y hy => ?_⟩
    obtain rfl | hy := List.mem_cons.mp hy
    · exact hPx
    · exact hP y s s₁ hR₁ (hPxs y hy)

end Keeps

/-- Every exception the program raises is one that `E` allows. -/
def Raises (E : ε → Prop) (m : Prog ε σ α) : Prop := ∀ s e s', m s = (.error e, s') → E e

section Raises
variable {E : ε → Prop} {m : Prog ε σ α} {f : α → Prog ε σ β}

theorem raises_of_ok {g : σ → Except ε α × σ} (h : ∀ s, ∃ a s', g s = (.ok a, s')) :
    Raises E (g : Prog ε σ α) := by
  intro s e s' hraise
  obtain ⟨a, s₁, hok⟩ := h s
  rw [hok] at hraise
  cases hraise

theorem raises_pure (a : α) : Raises E (pure a : Prog ε σ α) :=
  raises_of_ok fun s => ⟨a, s, rfl⟩

theorem raises_get : Raises E (get : Prog ε σ σ) := raises_of_ok fun s => ⟨s, s, rfl⟩

theorem raises_ofExcept {result : Except ε α} (h : ∀ e, result = .error e → E e) :
    Raises E (ofExcept result : Prog ε σ α) := by
  intro s e s' hraise
  exact h e (congrArg Prod.fst hraise)

theorem raises_bind (hm : Raises E m) (hf : ∀ a, Raises E (f a)) : Raises E (m >>= f) := by
  intro s e s' hraise
  cases hrun : m s with
  | mk result s₁ =>
    cases result with
    | error e₁ =>
      rw [bind_error hrun] at hraise
      cases hraise
      exact hm s _ _ hrun
    | ok a =>
      rw [bind_ok hrun] at hraise
      exact hf a s₁ e s' hraise

end Raises

end LoPhi.Lib.Effect
