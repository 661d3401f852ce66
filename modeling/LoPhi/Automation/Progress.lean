import LoPhi.Automation.Machines

/-! # The schedulers go on

A scheduler waits in two places: for a submission, and for a machine. In a good run
a machine that is not on its queue is with an analysis whose process is alive, and
some process can always take a step: one that waits for a mutex waits for
another that has it and waits for nothing. So the machine comes back, and the
scheduler takes the next submission. -/

namespace LoPhi.Automation.Scheduler
open LoPhi.Lib LoPhi.Lib.Ledger LoPhi.Lib.Machine

/-! ## Processes -/

/-- The steps that the process of an analysis has before it. -/
def Stage.remaining : Stage → Nat
  | .started => 6
  | .locked => 5
  | .moving => 4
  | .running => 3
  | .released => 2
  | .left => 1
  | _ => 0

def remaining (s : State) : Nat := total (fun a => a.stage.remaining) s.analyses

section Processes
variable {c : Config} {s s' : State} {e : Nat} {a : Analysis}

theorem remaining_next {stage : Stage} (h : stage.active = true) :
    stage.next.remaining < stage.remaining := by
  cases stage <;> first | decide | cases h

/-- A process that is not kept waiting takes its next step. -/
theorem analyses_of_analysisStep (h : Listed s) (ha : s.analyses[e]? = some a)
    (halive : a.killed = false) (hactive : a.stage.active = true)
    (hfree : a.stage = .started → ∀ m, a.mutex = some m → m ∉ s.mutexes) :
    (analysisStep s e .returned).analyses =
      s.analyses.modify e fun b => { b with stage := a.stage.next } := by
  unfold analysisStep
  simp only [ha, halive, Bool.false_eq_true, if_false]
  cases hstage : a.stage with
  | started =>
    simp only
    split
    · rfl
    · rename_i m hmutex
      rw [if_neg (fun hin => hfree hstage m hmutex (List.contains_iff_mem.mp hin))]
      rfl
  | locked =>
    have hqueued : a.onQueued = some a.id := by simp [Analysis.onQueued, hstage]
    simp only
    rw [if_pos (List.contains_iff_mem.mpr (onQueued_mem h ha hqueued))]
    rfl
  | moving => rfl
  | running => rfl
  | released =>
    have hrunning : a.onRunning = some a.id := by simp [Analysis.onRunning, hstage]
    simp only
    rw [if_pos (List.contains_iff_mem.mpr (onRunning_mem h ha hrunning))]
    rfl
  | left =>
    rcases putBack_cases s a with ⟨_, heq⟩ | ⟨name, _, heq⟩
    · simp only [heq]; rfl
    · simp only [heq]; rfl
  | _ => rw [hstage] at hactive; cases hactive

theorem remaining_analysisStep (h : Listed s) (ha : s.analyses[e]? = some a)
    (halive : a.killed = false) (hactive : a.stage.active = true)
    (hfree : a.stage = .started → ∀ m, a.mutex = some m → m ∉ s.mutexes) :
    remaining (step c s (.analysis e .returned)).1 < remaining s := by
  show total _ (analysisStep s e .returned).analyses < total _ s.analyses
  rw [analyses_of_analysisStep h ha halive hactive hfree]
  have htotal := total_modify (fun b => b.stage.remaining)
    (fun b => { b with stage := a.stage.next }) ha
  have hlt := remaining_next hactive
  simp only at htotal
  omega

theorem active_of_holdsMutex {m : String} (h : a.holdsMutex = some m) :
    a.stage.active = true ∧ a.stage ≠ .started ∧ a.over = false := by
  unfold Analysis.holdsMutex at h
  unfold Analysis.over
  cases hstage : a.stage <;> simp_all [Stage.active]

/-- If a process is alive, one can take a step. -/
theorem Good.progress (h : Good c s) (ha : s.analyses[e]? = some a) (halive : a.killed = false)
    (hactive : a.stage.active = true) :
    ∃ e', remaining (Scheduler.step c s (.analysis e' .returned)).1 < remaining s := by
  by_cases hblocked : a.stage = .started ∧ ∃ m, a.mutex = some m ∧ m ∈ s.mutexes
  · -- whoever has the mutex is alive, since what is killed is over
    obtain ⟨_, m, _, hm⟩ := hblocked
    obtain ⟨e', b, hb, hholds⟩ := h.coherent.listed.mutexes.exists_of_mem hm
    obtain ⟨hbactive, hne, hnotover⟩ := active_of_holdsMutex hholds
    have hbalive : b.killed = false := by
      cases hk : b.killed with
      | false => rfl
      | true => rw [h.safe.killed e' b hb hk] at hnotover; cases hnotover
    exact ⟨e', remaining_analysisStep h.coherent.listed hb hbalive hbactive
      fun hstage => absurd hstage hne⟩
  · refine ⟨e, remaining_analysisStep h.coherent.listed ha halive hactive ?_⟩
    exact fun hstage m hmutex hin => hblocked ⟨hstage, m, hmutex, hin⟩

/-- A machine that is not on its queue is with an analysis whose process is alive, unless
the scheduler is about to start it. -/
theorem Good.holder (h : Good c s) {t : MachineType} {m : String} (hm : m ∈ c.pool t)
    (hqueue : m ∉ (s.schedulers t).machineQueue)
    (hphase : ∀ sub e, (s.schedulers t).phase ≠ .starting sub e) :
    ∃ (e : Nat) (a : Analysis), s.analyses[e]? = some a ∧ a.killed = false ∧
      a.stage.active = true := by
  have hcount : (c.pool t).count m = 1 := List.count_eq_one_of_mem (pool_nodup c t) hm
  have hzero : (s.schedulers t).machineQueue.count m = 0 := List.count_eq_zero.mpr hqueue
  have hall := h.stocked t m
  have hpos : 0 < owing (Analysis.borrowed t) m s.analyses := by omega
  obtain ⟨e, a, ha, hholds⟩ := exists_of_owing_pos hpos
  unfold Analysis.borrowed at hholds
  split at hholds
  · rename_i hhas
    refine ⟨e, a, ha, hhas.2.1, ?_⟩
    cases hstage : a.stage with
    | assigned =>
      obtain ⟨sub, hstarting⟩ := h.assigned e a ha hstage
      rw [hhas.1] at hstarting
      exact absurd hstarting (hphase sub e)
    | _ => first | rfl | (have hlast := hhas.2.2; rw [hstage] at hlast; cases hlast)
  · cases hholds

end Processes

/-! ## The next submission -/

/-- The processes alone can bring the scheduler to take `sub`, with `rest` left over. -/
def Takes (c : Config) (s : State) (t : MachineType) (sub : Submission) (rest : List Submission) :
    Prop :=
  ∃ more : List Action, (∀ act ∈ more, ∀ u sub', act ≠ .submit u sub') ∧
    ((run (step c) s more).schedulers t).phase = .loaded sub ∧
    ((run (step c) s more).schedulers t).analysisQueue = rest

theorem goto_phase (s : State) (t : MachineType) (p : Phase) :
    ((s.goto t p).schedulers t).phase = p := by
  rw [State.goto, setScheduler_self]

theorem goto_analysisQueue {s : State} {t : MachineType} {l : List Submission} (p : Phase)
    (h : (s.schedulers t).analysisQueue = l) :
    ((s.goto t p).schedulers t).analysisQueue = l := by
  rw [State.goto, setScheduler_self]
  exact h

section Taking
variable {c : Config} {s : State} {t : MachineType} {sub : Submission} {rest : List Submission}

theorem Takes.prepend (act : Action) (hact : ∀ u sub', act ≠ .submit u sub')
    (h : Takes c (step c s act).1 t sub rest) : Takes c s t sub rest := by
  obtain ⟨more, hmore, hphase, hqueue⟩ := h
  refine ⟨act :: more, ?_, hphase, hqueue⟩
  intro act' hmem
  rcases List.mem_cons.mp hmem with rfl | hin
  · exact hact
  · exact hmore act' hin

/-- The scheduler takes a step, and is then where it will take the submission. -/
theorem takes_of_step {order : List Nat} {s' : State}
    (hstep : schedulerStep c s t order = s') (h : Takes c s' t sub rest) :
    Takes c s t sub rest := by
  subst hstep
  exact Takes.prepend (.scheduler t order) (by simp) h

theorem takes_of_getting (hphase : (s.schedulers t).phase = .getting)
    (hqueue : (s.schedulers t).analysisQueue = sub :: rest) : Takes c s t sub rest := by
  have hstep : (step c s (.scheduler t [])).1 = s.setScheduler t { s.schedulers t with
      analysisQueue := rest, phase := .loaded sub } := by
    simp only [step, schedulerStep, hphase, hqueue]
  refine ⟨[.scheduler t []], by simp, ?_, ?_⟩
  · rw [run_cons, run_nil, hstep, setScheduler_self]
  · rw [run_cons, run_nil, hstep, setScheduler_self]

theorem takes_of_removing (rem : List Nat) (hphase : (s.schedulers t).phase = .removing rem)
    (hqueue : (s.schedulers t).analysisQueue = sub :: rest) : Takes c s t sub rest := by
  induction rem generalizing s with
  | nil =>
    have hstep : schedulerStep c s t [] = s.goto t .getting := by
      simp only [schedulerStep, hphase]
    exact takes_of_step hstep
      (takes_of_getting (goto_phase s t _) (goto_analysisQueue _ hqueue))
  | cons aid rem ih =>
    have hstep : schedulerStep c s t [] = (s.pop t aid).goto t (.removing rem) := by
      simp only [schedulerStep, hphase]
    have hpop : ((s.pop t aid).schedulers t).analysisQueue = sub :: rest := by
      rw [pop_schedulers, State.dropped, setScheduler_self]
      exact hqueue
    exact takes_of_step hstep (ih (goto_phase _ t _) (goto_analysisQueue _ hpop))

theorem takes_of_notQueued {aid : Nat} {todo rem : List Nat}
    (hnext : ∀ {s₁ : State} {rem'}, (s₁.schedulers t).analysisQueue = sub :: rest →
      Takes c (s₁.goto t (.testing todo rem')) t sub rest)
    (hphase : (s.schedulers t).phase = .notQueued aid todo rem)
    (hqueue : (s.schedulers t).analysisQueue = sub :: rest) : Takes c s t sub rest := by
  by_cases hrunning : s.running.contains aid = true
  · have hstep : schedulerStep c s t [] = s.goto t (.testing todo rem) := by
      simp only [schedulerStep, hphase, hrunning, if_true]
    exact takes_of_step hstep (hnext hqueue)
  · have hstep : schedulerStep c s t [] = s.goto t (.testing todo (rem ++ [aid])) := by
      simp only [schedulerStep, hphase, hrunning, if_false, Bool.false_eq_true]
    exact takes_of_step hstep (hnext hqueue)

theorem takes_of_testing (todo rem : List Nat)
    (hphase : (s.schedulers t).phase = .testing todo rem)
    (hqueue : (s.schedulers t).analysisQueue = sub :: rest) : Takes c s t sub rest := by
  induction todo generalizing s rem with
  | nil =>
    have hstep : schedulerStep c s t [] = s.goto t (.removing rem) := by
      simp only [schedulerStep, hphase]
    exact takes_of_step hstep
      (takes_of_removing rem (goto_phase s t _) (goto_analysisQueue _ hqueue))
  | cons aid todo ih =>
    have hgo : ∀ {s₁ : State} {rem'}, (s₁.schedulers t).analysisQueue = sub :: rest →
        Takes c (s₁.goto t (.testing todo rem')) t sub rest :=
      fun hqueue₁ => ih _ (goto_phase _ t _) (goto_analysisQueue _ hqueue₁)
    by_cases hqueued : s.queued.contains aid = true
    · have hstep : schedulerStep c s t [] = s.goto t (.testing todo rem) := by
        simp only [schedulerStep, hphase, hqueued, if_true]
      exact takes_of_step hstep (hgo hqueue)
    · have hstep : schedulerStep c s t [] = s.goto t (.notQueued aid todo rem) := by
        simp only [schedulerStep, hphase, hqueued, if_false, Bool.false_eq_true]
      exact takes_of_step hstep
        (takes_of_notQueued hgo (goto_phase s t _) (goto_analysisQueue _ hqueue))

theorem takes_of_cleanup (hphase : (s.schedulers t).phase = .cleanup)
    (hqueue : (s.schedulers t).analysisQueue = sub :: rest) : Takes c s t sub rest := by
  have hperm := List.isPerm_iff.mpr
    (List.Perm.refl ((s.schedulers t).analysisDict.items.map Prod.fst))
  have hstep : schedulerStep c s t ((s.schedulers t).analysisDict.items.map Prod.fst) =
      s.goto t (.testing ((s.schedulers t).analysisDict.items.map Prod.fst) []) := by
    simp only [schedulerStep, hphase, hperm, if_true]
  exact takes_of_step hstep
    (takes_of_testing _ [] (goto_phase s t _) (goto_analysisQueue _ hqueue))

theorem takes_of_printing {cls : AnalysisClass} (hphase : (s.schedulers t).phase = .printing cls)
    (hnamed : cls.named = true) (hqueue : (s.schedulers t).analysisQueue = sub :: rest) :
    Takes c s t sub rest := by
  have hstep : schedulerStep c s t [] = s.goto t .cleanup := by
    simp only [schedulerStep, hphase, hnamed, if_true]
  exact takes_of_step hstep
    (takes_of_cleanup (goto_phase s t _) (goto_analysisQueue _ hqueue))

theorem takes_of_entering {cls : AnalysisClass} {e : Nat} {a : Analysis}
    (hphase : (s.schedulers t).phase = .entering cls e) (ha : s.analyses[e]? = some a)
    (hnamed : cls.named = true) (hqueue : (s.schedulers t).analysisQueue = sub :: rest) :
    Takes c s t sub rest := by
  have hstep : schedulerStep c s t [] = s.setScheduler t { s.schedulers t with
      analysisDict := (s.schedulers t).analysisDict.insert a.id e, phase := .printing cls } := by
    simp only [schedulerStep, hphase, State.enter, ha]
  refine takes_of_step hstep (takes_of_printing ?_ hnamed ?_)
  · exact congrArg LophiScheduler.phase setScheduler_self
  · rw [setScheduler_self]; exact hqueue

theorem takes_of_starting {sub' : Submission} {e : Nat} {a : Analysis}
    (hphase : (s.schedulers t).phase = .starting sub' e) (ha : s.analyses[e]? = some a)
    (hstartable : sub'.startable c = true)
    (hqueue : (s.schedulers t).analysisQueue = sub :: rest) : Takes c s t sub rest := by
  obtain ⟨cls, hcls, hstarts, hnamed, _⟩ := startable_cases hstartable
  have hstep : schedulerStep c s t [] = (s.goto t (.entering cls e)).setStage e .started := by
    simp only [schedulerStep, hphase, State.start, hcls, hstarts, if_true]
  have ha' : ((s.goto t (.entering cls e)).setStage e .started).analyses[e]? =
      some { a with stage := .started } := by
    show (s.analyses.modify e _)[e]? = _
    rw [List.getElem?_modify_eq, ha]
    rfl
  exact takes_of_step hstep
    (takes_of_entering (goto_phase s t _) ha' hnamed (goto_analysisQueue _ hqueue))

/-- The scheduler has found a machine. -/
theorem takes_of_given {sub' : Submission} {e : Nat} {a : Analysis} {m : Machine} {s' : State}
    (hstep : schedulerStep c s t [] = s'.giveMachine e m) (ha : s'.analyses[e]? = some a)
    (hphase : (s'.schedulers t).phase = .starting sub' e) (hstartable : sub'.startable c = true)
    (hqueue : (s'.schedulers t).analysisQueue = sub :: rest) : Takes c s t sub rest := by
  have ha' : (s'.giveMachine e m).analyses[e]? =
      some { a with stage := .assigned, machine := some m } := by
    show (s'.analyses.modify e _)[e]? = _
    rw [List.getElem?_modify_eq, ha]
    rfl
  exact takes_of_step hstep (takes_of_starting hphase ha' hstartable hqueue)

theorem takes_of_named {sub' : Submission} {e : Nat} {a : Analysis} {name : String}
    (hphase : (s.schedulers t).phase = .placed sub' e) (ha : s.analyses[e]? = some a)
    (hname : sub'.command.machine = some name) (hstartable : sub'.startable c = true)
    (hqueue : (s.schedulers t).analysisQueue = sub :: rest) : Takes c s t sub rest := by
  obtain ⟨hlist, hvm⟩ := not_missing hstartable hname
  have hstep : schedulerStep c s t [] =
      (s.goto t (.starting sub' e)).giveMachine e (.virtual name) := by
    simp only [schedulerStep, hphase, State.place, hname]
    rw [if_neg (by rw [hlist]; exact Bool.false_ne_true), if_pos hvm]
  exact takes_of_given hstep ha (goto_phase s t _) hstartable (goto_analysisQueue _ hqueue)

theorem takes_of_drawn {sub' : Submission} {e : Nat} {a : Analysis} {name : String}
    {machines : List String} (hphase : (s.schedulers t).phase = .placed sub' e)
    (ha : s.analyses[e]? = some a) (hnone : sub'.command.machine = none)
    (hmachines : (s.schedulers t).machineQueue = name :: machines)
    (hstartable : sub'.startable c = true)
    (hqueue : (s.schedulers t).analysisQueue = sub :: rest) : Takes c s t sub rest := by
  have hstep : schedulerStep c s t [] =
      (s.setScheduler t { s.schedulers t with
        machineQueue := machines, phase := .starting sub' e }).giveMachine e (.drawn name) := by
    simp only [schedulerStep, hphase, State.place, hnone, hmachines]
  refine takes_of_given hstep ha ?_ hstartable ?_
  · exact congrArg LophiScheduler.phase setScheduler_self
  · rw [setScheduler_self]
    exact hqueue

/-- The process of an analysis takes nothing from the queue of a scheduler. -/
theorem analysisQueue_of_analysisStep {e : Nat} {o : Outcome} (h : Listed s) :
    ((step c s (.analysis e o)).1.schedulers t).analysisQueue =
      (s.schedulers t).analysisQueue := by
  have hmove := step_moves (c := c) h (.analysis e o)
  generalize (step c s (.analysis e o)).1 = s' at hmove
  cases hmove with
  | @finish _ _ a _ _ _ =>
    rcases putBack_cases s a with ⟨_, heq⟩ | ⟨name, _, heq⟩
    · rw [heq]; rfl
    · rw [heq]
      show ((s.setScheduler a.scheduler _).schedulers t).analysisQueue = _
      rw [setScheduler_schedulers]
      split
      · rename_i ht
        rw [ht]
      · rfl
  | _ => rfl

/-- The analysis waits for a machine. While there is none on the queue, some process can
take a step, and there are only so many steps left. -/
theorem takes_of_waiting {sub' : Submission} {e : Nat} (h : Good c s) (hpool : c.pool t ≠ [])
    (hphase : (s.schedulers t).phase = .placed sub' e) (hnone : sub'.command.machine = none)
    (hstartable : sub'.startable c = true)
    (hqueue : (s.schedulers t).analysisQueue = sub :: rest) : Takes c s t sub rest := by
  induction hn : remaining s using Nat.strongRecOn generalizing s with
  | ind n ih =>
    obtain ⟨a, ha, _, _⟩ := h.coherent.phased t e .queued (by rw [hphase]; rfl)
    cases hmachines : (s.schedulers t).machineQueue with
    | cons name machines =>
      exact takes_of_drawn hphase ha hnone hmachines hstartable hqueue
    | nil =>
      obtain ⟨m, hm⟩ := List.exists_mem_of_ne_nil _ hpool
      obtain ⟨e₁, b, hb, halive, hactive⟩ := h.holder hm
        (by rw [hmachines]; exact List.not_mem_nil) (by simp [hphase])
      obtain ⟨e', hless⟩ := h.progress hb halive hactive
      have hmove := step_moves (c := c) h.coherent.listed (.analysis e' .returned)
      have hphase' := (hmove.other (u := t) (by simp)).2.1
      refine Takes.prepend (.analysis e' .returned) (by simp) ?_
      refine ih _ (hn ▸ hless) (h.step rfl rfl) (hphase'.trans hphase) ?_ rfl
      exact (analysisQueue_of_analysisStep h.coherent.listed).trans hqueue

theorem takes_of_placed {sub' : Submission} {e : Nat} (h : Good c s) (hpool : c.pool t ≠ [])
    (hphase : (s.schedulers t).phase = .placed sub' e) (hstartable : sub'.startable c = true)
    (hqueue : (s.schedulers t).analysisQueue = sub :: rest) : Takes c s t sub rest := by
  cases hname : sub'.command.machine with
  | none => exact takes_of_waiting h hpool hphase hname hstartable hqueue
  | some name =>
    obtain ⟨a, ha, _, _⟩ := h.coherent.phased t e .queued (by rw [hphase]; rfl)
    exact takes_of_named hphase ha hname hstartable hqueue

theorem takes_of_issued {sub' : Submission} {e : Nat} (h : Good c s) (hpool : c.pool t ≠ [])
    (hphase : (s.schedulers t).phase = .issued sub' e) (hstartable : sub'.startable c = true)
    (hqueue : (s.schedulers t).analysisQueue = sub :: rest) : Takes c s t sub rest := by
  obtain ⟨a, ha, _, _⟩ := h.coherent.phased t e .issued (by rw [hphase]; rfl)
  have hgood : Good c (step c s (.scheduler t [])).1 :=
    h.step (by simp only [testsUnlisted, hphase]) (by simp only [takesUnstartable, hphase])
  have hstep : (step c s (.scheduler t [])).1 =
      { (s.goto t (.placed sub' e)).setStage e .queued with queued := s.queued ++ [a.id] } := by
    simp only [step, schedulerStep, hphase, State.enqueue, ha]
  refine Takes.prepend (.scheduler t []) (by simp) ?_
  rw [hstep] at hgood ⊢
  exact takes_of_placed hgood hpool (goto_phase s t _) hstartable (goto_analysisQueue _ hqueue)

theorem takes_of_loaded {sub' : Submission} (h : Good c s) (hpool : c.pool t ≠ [])
    (hphase : (s.schedulers t).phase = .loaded sub') (hstartable : sub'.startable c = true)
    (hqueue : (s.schedulers t).analysisQueue = sub :: rest) : Takes c s t sub rest := by
  have hgood : Good c (step c s (.scheduler t [])).1 :=
    h.step (by simp only [testsUnlisted, hphase]) (by simp only [takesUnstartable, hphase])
  have hstep : (step c s (.scheduler t [])).1 = s.issue t sub' := by
    simp only [step, schedulerStep, hphase]
  refine Takes.prepend (.scheduler t []) (by simp) ?_
  rw [hstep] at hgood ⊢
  have hself : (s.issue t sub').schedulers t = { s.schedulers t with
      analysisId := (s.schedulers t).analysisId + 1
      analysis := some s.analyses.length
      phase := .issued sub' s.analyses.length } := by
    rw [issue_schedulers, State.issued, setScheduler_self]
  refine takes_of_issued hgood hpool (congrArg LophiScheduler.phase hself) hstartable ?_
  rw [hself]
  exact hqueue

/-- From every state of a good run the scheduler takes the next submission. -/
theorem Good.takes (h : Good c s) (hpool : c.pool t ≠ [])
    (hqueue : (s.schedulers t).analysisQueue = sub :: rest) : Takes c s t sub rest := by
  have hready : (s.schedulers t).phase.ready c := by
    rcases h.working t with ⟨hnone, _⟩ | hready
    · exact absurd hnone hpool
    · exact hready
  cases hphase : (s.schedulers t).phase with
  | cleanup => exact takes_of_cleanup hphase hqueue
  | testing todo rem => exact takes_of_testing todo rem hphase hqueue
  | notQueued aid todo rem =>
    refine takes_of_notQueued (fun hqueue₁ => ?_) hphase hqueue
    exact takes_of_testing todo _ (goto_phase _ t _) (goto_analysisQueue _ hqueue₁)
  | removing rem => exact takes_of_removing rem hphase hqueue
  | getting => exact takes_of_getting hphase hqueue
  | loaded sub' =>
    rw [hphase] at hready
    exact takes_of_loaded h hpool hphase hready hqueue
  | issued sub' e =>
    rw [hphase] at hready
    exact takes_of_issued h hpool hphase hready hqueue
  | placed sub' e =>
    rw [hphase] at hready
    exact takes_of_placed h hpool hphase hready hqueue
  | starting sub' e =>
    rw [hphase] at hready
    obtain ⟨a, ha, _, _⟩ := h.coherent.phased t e .assigned (by rw [hphase]; rfl)
    exact takes_of_starting hphase ha hready hqueue
  | entering cls e =>
    rw [hphase] at hready
    obtain ⟨a, ha, _⟩ := (h.safe.each t).entering cls e hphase
    exact takes_of_entering hphase ha hready hqueue
  | printing cls =>
    rw [hphase] at hready
    exact takes_of_printing hphase hready hqueue
  | exited =>
    rw [hphase] at hready
    exact hready.elim

end Taking

/-- Every scheduler there is runs, and takes whatever submission is next. -/
def KeepsConsuming (c : Config) (s : State) : Prop :=
  ∀ t, c.pool t ≠ [] → (s.schedulers t).phase ≠ .exited ∧
    ∀ sub rest, (s.schedulers t).analysisQueue = sub :: rest → Takes c s t sub rest

theorem Good.keepsConsuming {c : Config} {s : State} (h : Good c s) : KeepsConsuming c s := by
  intro t hpool
  refine ⟨fun hover => ?_, fun sub rest hqueue => h.takes hpool hqueue⟩
  rcases h.working t with ⟨hnone, _⟩ | hready
  · exact hpool hnone
  · rw [hover] at hready
    exact hready

/-- One submission whose script does not load, taken by the scheduler. -/
def unloadable : List Action :=
  .submit 0 { analysisClass := none, command := ⟨none, 0⟩ } :: List.replicate 8 (.scheduler 0 [])

end LoPhi.Automation.Scheduler
