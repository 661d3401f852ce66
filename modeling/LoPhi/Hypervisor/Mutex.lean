import LoPhi.Hypervisor.Order

/-! # The mutex of the disk hooks

`lophi_thread` unlocks `socket_thread_mutex` at its end. There is one way out of it before:
where `lophi_init_meta` returns false, because the meta struct could not be written and it was
time for a new connection. From then on no thread gets the mutex any more. -/

namespace LoPhi.Hypervisor.Mutex
open LoPhi.Lib.Machine LoPhi.Hypervisor LoPhi.Hypervisor.Order

/-- The thread that has the mutex has finished. -/
def Orphaned (s : State) : Prop := s.holder = some .gone

/-- The event is a `write` of the meta struct that fails, while `LOPHI_COUNTER` is a multiple
of `LOPHI_RECONNECT_COUNT`. -/
def LosesMeta (drive : Drive) (s : State) (e : Event) : Prop :=
  (∃ a, s.holder = some (.announcing a)) ∧ returned drive s e = some (-1) ∧
    s.counter % reconnectCount = 0

section Step
variable {drive : Drive} {s : State}

theorem holder_lophiDiskAccess (a : Access) (bs : Nat) (connect : Connect) :
    (lophiDiskAccess drive a bs connect s).holder = s.holder := by
  unfold lophiDiskAccess
  split
  · rw [lophiInitialize_holder]
  · split
    · rfl
    · rfl

/-- An orphaned mutex stays so, and nobody gets it. -/
theorem orphaned_step (h : Orphaned s) (e : Event) :
    Orphaned (step drive s e).1 ∧ (step drive s e).2 = none := by
  cases e with
  | access a bs connect => exact ⟨(holder_lophiDiskAccess a bs connect).trans h, rfl⟩
  | start i =>
    rcases step_start drive s i with ⟨a, -, hstep⟩ | hstep
    · rw [hstep]
      exact ⟨h, rfl⟩
    · rw [hstep]
      exact ⟨h, rfl⟩
  | lock i =>
    rcases step_lock drive s i with ⟨a, hfree, -, -⟩ | hstep
    · cases h.symm.trans hfree
    · rw [hstep]
      exact ⟨h, rfl⟩
  | write result connect =>
    rw [step_write_idle drive (Or.inr h)]
    exact ⟨h, rfl⟩

/-- Only the early return of `lophi_thread` orphans it. -/
theorem losesMeta_of_orphaned (h : ¬ Orphaned s) {e : Event}
    (horphaned : Orphaned (step drive s e).1) : LosesMeta drive s e := by
  cases e with
  | access a bs connect =>
    exact absurd ((holder_lophiDiskAccess a bs connect).symm.trans horphaned) h
  | start i =>
    rcases step_start drive s i with ⟨a, -, hstep⟩ | hstep
    · rw [hstep] at horphaned
      exact absurd horphaned h
    · rw [hstep] at horphaned
      exact absurd horphaned h
  | lock i =>
    rcases step_lock drive s i with ⟨a, -, -, hstep⟩ | hstep
    · rw [hstep] at horphaned
      have hholder := Option.some.inj horphaned
      split at hholder
      · cases hholder
      · cases hholder
    · rw [hstep] at horphaned
      exact absurd horphaned h
  | write result connect =>
    cases hholder : s.holder with
    | none =>
      rw [step_write_idle drive (Or.inl hholder)] at horphaned
      exact absurd horphaned h
    | some holder =>
      cases holder with
      | gone => exact absurd hholder h
      | announcing a =>
        obtain ⟨stream, got, left, -, -, -, hstep⟩ |
            ⟨hreturned, ⟨hcounter, -⟩ | ⟨-, hstep⟩⟩ := step_announcing drive result connect hholder
        · rw [hstep] at horphaned
          cases horphaned
        · exact ⟨⟨a, hholder⟩, hreturned, hcounter⟩
        · rw [hstep] at horphaned
          cases horphaned
      | writing a written =>
        obtain ⟨stream, got, left, -, -, -, -, hstep⟩ | ⟨w, -, -, ⟨-, hstep⟩ | hstep⟩ :=
          step_writing drive result connect hholder
        · rw [hstep] at horphaned
          unfold Orphaned at horphaned
          split at horphaned
          · cases horphaned
          · cases horphaned
        · rw [hstep] at horphaned
          cases horphaned
        · rw [hstep] at horphaned
          cases horphaned

theorem orphaned_of_losesMeta {e : Event} (h : LosesMeta drive s e) :
    Orphaned (step drive s e).1 := by
  obtain ⟨⟨a, hholder⟩, hreturned, hcounter⟩ := h
  cases e with
  | write result connect =>
    obtain ⟨stream, got, left, -, -, hgot, -⟩ | ⟨-, ⟨-, hstep⟩ | ⟨hnot, -⟩⟩ :=
      step_announcing drive result connect hholder
    · have hlength := Option.some.inj (hgot.symm.trans hreturned)
      omega
    · rw [hstep]
      rfl
    · exact absurd hcounter hnot
  | _ => cases hreturned

end Step

section Run
variable (drive : Drive)

/-- Nobody ever gets an orphaned mutex. -/
theorem orphaned_forever {s : State} (h : Orphaned s) (events : List Event) :
    Orphaned (run (step drive) s events) ∧ order drive s events = [] := by
  induction events generalizing s with
  | nil => exact ⟨h, rfl⟩
  | cons e events ih =>
    obtain ⟨hnext, hnobody⟩ := @orphaned_step drive s h e
    rw [order_cons, hnobody]
    exact ih hnext

/-- **The mutex is free or with a thread that has not finished, exactly where no meta struct
is lost**: in every state of a run, if and only if no `write` of the meta struct fails while
the counter is a multiple of `LOPHI_RECONNECT_COUNT`. -/
theorem never_orphaned_iff (connect : Connect) (events : List Event) :
    (∀ k, k ≤ events.length →
      ¬ Orphaned (stateAt (step drive) (lophiInitialize connect .initial) events k)) ↔
    ∀ k e, events[k]? = some e →
      ¬ LosesMeta drive (stateAt (step drive) (lophiInitialize connect .initial) events k) e := by
  refine @throughout_iff _ _ _ (step drive) _ events (fun s => ¬ Orphaned s)
    (fun s e => ¬ LosesMeta drive s e) ?_ fun s e h => ?_
  · rw [lophiInitialize_holder]
    intro h
    cases h
  · exact not_congr ⟨losesMeta_of_orphaned h, orphaned_of_losesMeta⟩

end Run

/-- Ten accesses, whose threads all start. The meta struct of the first that gets the mutex
fails. -/
def tenStarted : List Event :=
  List.replicate 10 (.access (zeroed 0) 0 .refused) ++ List.replicate 10 (.start 0) ++
    [.lock 0, .write none .accepted]

/-- The connection is new and the other nine threads wait forever. -/
theorem orphaned_tenStarted :
    Orphaned (stateAt (step driveD) (lophiInitialize .accepted .initial) tenStarted 22) ∧
    (stateAt (step driveD) (lophiInitialize .accepted .initial) tenStarted 22).waiting.length = 9 ∧
    ∀ events, order driveD
      (stateAt (step driveD) (lophiInitialize .accepted .initial) tenStarted 22) events = [] := by
  have horphaned : Orphaned
      (stateAt (step driveD) (lophiInitialize .accepted .initial) tenStarted 22) := by
    unfold Orphaned
    decide +kernel
  exact ⟨horphaned, by decide +kernel, fun events => (orphaned_forever driveD horphaned events).2⟩

end LoPhi.Hypervisor.Mutex
