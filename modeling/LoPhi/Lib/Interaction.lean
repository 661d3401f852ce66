import Mathlib.Order.WellFounded

/-! # Calls that wait for the outside

A call that waits for one input after the other is a step function from the state it waits in
to the next such state, or to its result. What comes in may depend on that state and on how many
inputs came before. The rules below compose runs, carry invariants along them and show that a
call whose inputs use up a measure ends. -/

namespace LoPhi.Lib.Interaction

variable {σ ι ρ : Type*}

/-- A call that waits for an input, or has ended. -/
inductive Progress (σ ρ : Type*) where
  | waiting (s : σ)
  | ended (r : ρ)

/-- The call after one more input. One that has ended takes none. -/
def Progress.next (step : σ → ι → Progress σ ρ) (input : σ → ι) : Progress σ ρ → Progress σ ρ
  | .waiting s => step s (input s)
  | .ended r => .ended r

/-- The call after `n` inputs. -/
def after (step : σ → ι → Progress σ ρ) (world : Nat → σ → ι) (p : Progress σ ρ) :
    Nat → Progress σ ρ
  | 0 => p
  | n + 1 => (after step world p n).next step (world n)

section Run
variable {step : σ → ι → Progress σ ρ} {world : Nat → σ → ι} {p : Progress σ ρ}

theorem after_waiting {n : Nat} {s : σ} (h : after step world p n = .waiting s) :
    after step world p (n + 1) = step s (world n s) := by
  rw [after, h]
  rfl

theorem after_add (m n : Nat) :
    after step world p (m + n) =
      after step (fun k => world (m + k)) (after step world p m) n := by
  induction n with
  | zero => rfl
  | succ n ih => rw [← Nat.add_assoc, after, ih, after]

theorem after_ended {r : ρ} (n : Nat) :
    after step world (.ended r : Progress σ ρ) n = .ended r := by
  induction n with
  | zero => rfl
  | succ n ih => rw [after, ih]; rfl

/-- The first step of a run, and the rest. -/
theorem after_succ {s : σ} (n : Nat) :
    after step world (.waiting s) (n + 1) =
      after step (fun k => world (k + 1)) (step s (world 0 s)) n := by
  rw [Nat.add_comm, after_add]
  simp only [Nat.add_comm 1]
  rfl

/-- The next input. -/
def Progress.input [Inhabited ι] (world : σ → ι) : Progress σ ρ → ι
  | .waiting s => world s
  | .ended _ => default

/-- What comes in along a run can be written down beforehand. -/
theorem exists_inputs [Inhabited ι] (step : σ → ι → Progress σ ρ) (world : Nat → σ → ι)
    (p : Progress σ ρ) :
    ∃ inputs : Nat → ι, ∀ n, after step (fun k _ => inputs k) p n = after step world p n := by
  refine ⟨fun k => (after step world p k).input (world k), fun n => ?_⟩
  induction n with
  | zero => rfl
  | succ n ih =>
    rw [after, ih, after]
    dsimp only
    cases after step world p n with
    | waiting s => rfl
    | ended r => rfl

/-- A call that is still waiting later has not ended before. -/
theorem waiting_of_later {m : Nat} (h : ∀ n, ∃ s, after step world p (m + n) = .waiting s)
    (n : Nat) : ∃ s, after step world p n = .waiting s := by
  cases hn : after step world p n with
  | waiting s => exact ⟨s, rfl⟩
  | ended r =>
    obtain ⟨s, hs⟩ := h n
    rw [Nat.add_comm, after_add, hn, after_ended] at hs
    cases hs

/-- What the start has and every input keeps holds throughout. -/
theorem after_invariant (Inv : Progress σ ρ → Prop) (hstart : Inv p)
    (hstep : ∀ n s, after step world p n = .waiting s → Inv (.waiting s) →
      Inv (step s (world n s))) : ∀ n, Inv (after step world p n) := by
  intro n
  induction n with
  | zero => exact hstart
  | succ n ih =>
    cases hn : after step world p n with
    | ended r =>
      rw [hn] at ih
      rw [after, hn]
      exact ih
    | waiting s =>
      rw [hn] at ih
      rw [after_waiting hn]
      exact hstep n s hn ih

/-- A call ends if every input it takes without ending uses up a measure. -/
theorem exists_ended {α : Type*} {lt : α → α → Prop} (wf : WellFounded lt) (measure : σ → α)
    (hstep : ∀ n s s', after step world p n = .waiting s →
      step s (world n s) = .waiting s' → lt (measure s') (measure s)) :
    ∃ n r, after step world p n = .ended r := by
  have hend : ∀ a n s, after step world p n = .waiting s → measure s = a →
      ∃ n r, after step world p n = .ended r := by
    intro a
    induction a using wf.induction with
    | _ a ih =>
      intro n s hs ha
      cases hnext : step s (world n s) with
      | ended r => exact ⟨n + 1, r, (after_waiting hs).trans hnext⟩
      | waiting s' =>
        have hlt := hstep n s s' hs hnext
        rw [ha] at hlt
        exact ih _ hlt (n + 1) s' ((after_waiting hs).trans hnext) rfl
  cases hp : p with
  | ended r => exact ⟨0, r, rfl⟩
  | waiting s =>
    obtain ⟨n, r, hr⟩ := hend _ 0 s hp rfl
    exact ⟨n, r, hp ▸ hr⟩

/-- A call that keeps an invariant and uses up a measure under it ends, with the invariant. -/
theorem exists_ended_invariant {α : Type*} {lt : α → α → Prop} (wf : WellFounded lt)
    (measure : σ → α) (Inv : Progress σ ρ → Prop) (hstart : Inv p)
    (hstep : ∀ n s, after step world p n = .waiting s → Inv (.waiting s) →
      Inv (step s (world n s)))
    (hless : ∀ n s s', after step world p n = .waiting s → Inv (.waiting s) →
      step s (world n s) = .waiting s' → lt (measure s') (measure s)) :
    ∃ n r, after step world p n = .ended r ∧ Inv (.ended r) := by
  have hinv : ∀ n, Inv (after step world p n) := after_invariant Inv hstart hstep
  obtain ⟨n, r, hr⟩ := exists_ended wf measure fun n s s' hs hs' => by
    have h := hinv n
    rw [hs] at h
    exact hless n s s' hs h hs'
  refine ⟨n, r, hr, ?_⟩
  rw [← hr]
  exact hinv n

end Run

/-! ## Inputs that depend on the state only -/

/-- The call comes from one point to the other. -/
def Reaches (step : σ → ι → Progress σ ρ) (input : σ → ι) (p q : Progress σ ρ) : Prop :=
  ∃ n, after step (fun _ => input) p n = q

section Reaches
variable {step : σ → ι → Progress σ ρ} {input : σ → ι} {p q r : Progress σ ρ}

theorem Reaches.refl (p : Progress σ ρ) : Reaches step input p p := ⟨0, rfl⟩

theorem Reaches.trans (hpq : Reaches step input p q) (hqr : Reaches step input q r) :
    Reaches step input p r := by
  obtain ⟨m, rfl⟩ := hpq
  obtain ⟨n, rfl⟩ := hqr
  exact ⟨m + n, after_add m n⟩

theorem Reaches.next (s : σ) : Reaches step input (.waiting s) (step s (input s)) := ⟨1, rfl⟩

/-- Whether a call ends is decided anywhere on its way. -/
theorem Reaches.ended_iff (h : Reaches step input p q) (result : ρ) :
    Reaches step input p (.ended result) ↔ Reaches step input q (.ended result) := by
  refine ⟨?_, h.trans⟩
  rintro ⟨n, hn⟩
  obtain ⟨m, rfl⟩ := h
  refine ⟨n, ?_⟩
  have hlater : after step (fun _ => input) p (n + m) = _ := after_add n m
  rw [hn, after_ended, Nat.add_comm, after_add] at hlater
  exact hlater

end Reaches

end LoPhi.Lib.Interaction
