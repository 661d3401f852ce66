import LoPhi.Automation.Scheduler

/-! # What a step can do

The branches of the model, once: `Move` has one constructor for each kind of
step, with its guard and the state after it. The three shared lists have an
entry for each analysis that is at a stage for it, so an id that a process removes
is there, and no analysis ends with an exception. -/

namespace LoPhi.Automation.Scheduler
open LoPhi.Lib LoPhi.Lib.Ledger LoPhi.Lib.Machine

/-! ## The shared lists -/

/-- The entry of an analysis on the queued list. -/
def Analysis.onQueued (a : Analysis) : Option Nat :=
  match a.stage with
  | .queued | .assigned | .failed | .started | .locked => some a.id
  | _ => none

/-- The entry of an analysis on the running list. -/
def Analysis.onRunning (a : Analysis) : Option Nat :=
  match a.stage with
  | .running | .released => some a.id
  | _ => none

/-- The mutex that an analysis has. -/
def Analysis.holdsMutex (a : Analysis) : Option String :=
  match a.stage with
  | .locked | .moving | .running => a.mutex
  | _ => none

structure Listed (s : State) : Prop where
  queued : Listing Analysis.onQueued s.queued s.analyses
  running : Listing Analysis.onRunning s.running s.analyses
  mutexes : Listing Analysis.holdsMutex s.mutexes s.analyses

section Entries
variable {s : State} {e n : Nat} {a : Analysis}

theorem onQueued_eq (h : a.onQueued = some n) : n = a.id := by
  unfold Analysis.onQueued at h
  split at h <;> cases h <;> rfl

theorem onRunning_eq (h : a.onRunning = some n) : n = a.id := by
  unfold Analysis.onRunning at h
  split at h <;> cases h <;> rfl

theorem onQueued_mem (h : Listed s) (ha : s.analyses[e]? = some a) (hn : a.onQueued = some n) :
    a.id ∈ s.queued := by
  rw [← onQueued_eq hn]
  exact h.queued.mem ha hn

theorem onRunning_mem (h : Listed s) (ha : s.analyses[e]? = some a) (hn : a.onRunning = some n) :
    a.id ∈ s.running := by
  rw [← onRunning_eq hn]
  exact h.running.mem ha hn

end Entries

/-! ## Moves -/

/-- The moves of a scheduler that change its phase and nothing else. -/
inductive PhaseMove (s : State) (t : MachineType) : Phase → Prop
  | cleanup {order : List Nat} (hphase : (s.schedulers t).phase = .cleanup)
      (horder : order.Perm ((s.schedulers t).analysisDict.items.map Prod.fst)) :
      PhaseMove s t (.testing order [])
  | tested {rem : List Nat} (hphase : (s.schedulers t).phase = .testing [] rem) :
      PhaseMove s t (.removing rem)
  | isQueued {aid : Nat} {todo rem : List Nat}
      (hphase : (s.schedulers t).phase = .testing (aid :: todo) rem) (haid : aid ∈ s.queued) :
      PhaseMove s t (.testing todo rem)
  | notQueued {aid : Nat} {todo rem : List Nat}
      (hphase : (s.schedulers t).phase = .testing (aid :: todo) rem) (haid : aid ∉ s.queued) :
      PhaseMove s t (.notQueued aid todo rem)
  | isRunning {aid : Nat} {todo rem : List Nat}
      (hphase : (s.schedulers t).phase = .notQueued aid todo rem) (haid : aid ∈ s.running) :
      PhaseMove s t (.testing todo rem)
  | notRunning {aid : Nat} {todo rem : List Nat}
      (hphase : (s.schedulers t).phase = .notQueued aid todo rem) (haid : aid ∉ s.running) :
      PhaseMove s t (.testing todo (rem ++ [aid]))
  | removed (hphase : (s.schedulers t).phase = .removing []) : PhaseMove s t .getting
  | printed {cls : AnalysisClass} (hphase : (s.schedulers t).phase = .printing cls)
      (hnamed : cls.named = true) : PhaseMove s t .cleanup
  | unnamed {cls : AnalysisClass} (hphase : (s.schedulers t).phase = .printing cls)
      (hnamed : cls.named = false) : PhaseMove s t .exited

inductive Move (c : Config) (s : State) : Action → State → Prop
  | idle (act : Action) : Move c s act s
  | submit (t : MachineType) (sub : Submission) : Move c s (.submit t sub)
      (s.setScheduler t { s.schedulers t with
        analysisQueue := (s.schedulers t).analysisQueue ++ [sub] })
  | phase {t : MachineType} {order : List Nat} {p : Phase} (hmove : PhaseMove s t p) :
      Move c s (.scheduler t order) (s.goto t p)
  | pop {t : MachineType} {order rem : List Nat} {aid : Nat}
      (hphase : (s.schedulers t).phase = .removing (aid :: rem)) :
      Move c s (.scheduler t order) ((s.pop t aid).goto t (.removing rem))
  | take {t : MachineType} {order : List Nat} {sub : Submission} {rest : List Submission}
      (hphase : (s.schedulers t).phase = .getting)
      (hqueue : (s.schedulers t).analysisQueue = sub :: rest) :
      Move c s (.scheduler t order)
        (s.setScheduler t { s.schedulers t with analysisQueue := rest, phase := .loaded sub })
  | issue {t : MachineType} {order : List Nat} {sub : Submission}
      (hphase : (s.schedulers t).phase = .loaded sub) :
      Move c s (.scheduler t order) (s.issue t sub)
  | enqueue {t : MachineType} {order : List Nat} {sub : Submission} {e : Nat} {a : Analysis}
      (hphase : (s.schedulers t).phase = .issued sub e) (ha : s.analyses[e]? = some a) :
      Move c s (.scheduler t order)
        { (s.goto t (.placed sub e)).setStage e .queued with queued := s.queued ++ [a.id] }
  | draw {t : MachineType} {order : List Nat} {sub : Submission} {e : Nat} {name : String}
      {rest : List String} (hphase : (s.schedulers t).phase = .placed sub e)
      (hqueue : (s.schedulers t).machineQueue = name :: rest) :
      Move c s (.scheduler t order)
        ((s.setScheduler t { s.schedulers t with
          machineQueue := rest, phase := .starting sub e }).giveMachine e (.drawn name))
  | named {t : MachineType} {order : List Nat} {sub : Submission} {e : Nat} {m : Machine}
      (hphase : (s.schedulers t).phase = .placed sub e) (hm : m.drawn? = none)
      (hlisted : ∀ name, m = .listed name →
        sub.command.machine = some name ∧ c.has name = true) :
      Move c s (.scheduler t order) ((s.goto t (.starting sub e)).giveMachine e m)
  | missing {t : MachineType} {order : List Nat} {sub : Submission} {e : Nat} {name : String}
      (hphase : (s.schedulers t).phase = .placed sub e) (hname : sub.command.machine = some name)
      (hlist : c.has name = false)
      (hvm : ¬ (sub.command.machineType ≠ PHYSICAL ∧ sub.vmExists = true)) :
      Move c s (.scheduler t order) ((s.goto t .exited).setStage e .failed)
  | start {t : MachineType} {order : List Nat} {sub : Submission} {e : Nat} {cls : AnalysisClass}
      (hphase : (s.schedulers t).phase = .starting sub e) (hcls : sub.analysisClass = some cls) :
      Move c s (.scheduler t order) ((s.goto t (.entering cls e)).setStage e .started)
  | broken {t : MachineType} {order : List Nat} {sub : Submission} {e : Nat}
      (hphase : (s.schedulers t).phase = .starting sub e)
      (hcls : ∀ cls, sub.analysisClass = some cls → cls.starts = false) :
      Move c s (.scheduler t order) ((s.goto t .exited).setStage e .failed)
  | enter {t : MachineType} {order : List Nat} {cls : AnalysisClass} {e : Nat} {a : Analysis}
      (hphase : (s.schedulers t).phase = .entering cls e) (ha : s.analyses[e]? = some a) :
      Move c s (.scheduler t order)
        (s.setScheduler t { s.schedulers t with
          analysisDict := (s.schedulers t).analysisDict.insert a.id e, phase := .printing cls })
  | lock {e : Nat} {o : Outcome} {a : Analysis} (ha : s.analyses[e]? = some a)
      (halive : a.killed = false) (hstage : a.stage = .started)
      (hfree : ∀ m, a.mutex = some m → m ∉ s.mutexes) :
      Move c s (.analysis e o)
        { s.setStage e .locked with mutexes := s.mutexes ++ a.mutex.toList }
  | unqueue {e : Nat} {o : Outcome} {a : Analysis} (ha : s.analyses[e]? = some a)
      (halive : a.killed = false) (hstage : a.stage = .locked) :
      Move c s (.analysis e o) { s.setStage e .moving with queued := s.queued.erase a.id }
  | run {e : Nat} {o : Outcome} {a : Analysis} (ha : s.analyses[e]? = some a)
      (halive : a.killed = false) (hstage : a.stage = .moving) :
      Move c s (.analysis e o) { s.setStage e .running with running := s.running ++ [a.id] }
  | release {e : Nat} {o : Outcome} {a : Analysis} (ha : s.analyses[e]? = some a)
      (halive : a.killed = false) (hstage : a.stage = .running) :
      Move c s (.analysis e o) ((s.unlock a).setStage e .released)
  | leave {e : Nat} {o : Outcome} {a : Analysis} (ha : s.analyses[e]? = some a)
      (halive : a.killed = false) (hstage : a.stage = .released) :
      Move c s (.analysis e o) { s.setStage e .left with running := s.running.erase a.id }
  | finish {e : Nat} {o : Outcome} {a : Analysis} (ha : s.analyses[e]? = some a)
      (halive : a.killed = false) (hstage : a.stage = .left) :
      Move c s (.analysis e o) ((s.putBack a).setStage e .ended)

section Moves
variable {c : Config} {s : State} {t : MachineType} {order : List Nat}

theorem place_moves {sub : Submission} {e : Nat}
    (hphase : (s.schedulers t).phase = .placed sub e) :
    Move c s (.scheduler t order) (s.place c t sub e) := by
  unfold State.place
  split
  · split
    · exact .idle _
    · rename_i name rest hqueue
      exact .draw hphase hqueue
  · rename_i name hname
    split
    · rename_i hlist
      refine .named hphase rfl fun name' heq => ?_
      cases heq
      exact ⟨hname, hlist⟩
    · rename_i hlist
      split
      · exact .named hphase rfl nofun
      · rename_i hvm
        exact .missing hphase hname (eq_false_of_ne_true hlist) hvm

theorem start_moves {sub : Submission} {e : Nat}
    (hphase : (s.schedulers t).phase = .starting sub e) :
    Move c s (.scheduler t order) (s.start t sub e) := by
  unfold State.start
  split
  · rename_i hcls
    refine .broken hphase fun cls h => ?_
    rw [hcls] at h
    cases h
  · rename_i cls hcls
    split
    · exact .start hphase hcls
    · rename_i hstarts
      refine .broken hphase fun cls' h => ?_
      obtain rfl := Option.some.inj (hcls.symm.trans h)
      exact eq_false_of_ne_true hstarts

theorem schedulerStep_moves : Move c s (.scheduler t order) (schedulerStep c s t order) := by
  unfold schedulerStep
  split
  · rename_i hphase
    split
    · rename_i horder
      exact .phase (.cleanup hphase (List.isPerm_iff.mp horder))
    · exact .idle _
  · rename_i rem hphase
    exact .phase (.tested hphase)
  · rename_i aid todo rem hphase
    split
    · rename_i haid
      exact .phase (.isQueued hphase (List.contains_iff_mem.mp haid))
    · rename_i haid
      exact .phase (.notQueued hphase fun hmem => haid (List.contains_iff_mem.mpr hmem))
  · rename_i aid todo rem hphase
    split
    · rename_i haid
      exact .phase (.isRunning hphase (List.contains_iff_mem.mp haid))
    · rename_i haid
      exact .phase (.notRunning hphase fun hmem => haid (List.contains_iff_mem.mpr hmem))
  · rename_i hphase
    exact .phase (.removed hphase)
  · rename_i aid rem hphase
    exact .pop hphase
  · rename_i hphase
    split
    · exact .idle _
    · rename_i sub rest hqueue
      exact .take hphase hqueue
  · rename_i sub hphase
    exact .issue hphase
  · rename_i sub e hphase
    unfold State.enqueue
    split
    · exact .idle _
    · rename_i a ha
      exact .enqueue hphase ha
  · rename_i sub e hphase
    exact place_moves hphase
  · rename_i sub e hphase
    exact start_moves hphase
  · rename_i cls e hphase
    unfold State.enter
    split
    · exact .idle _
    · rename_i a ha
      exact .enter hphase ha
  · rename_i cls hphase
    split
    · rename_i hnamed
      exact .phase (.printed hphase hnamed)
    · rename_i hnamed
      exact .phase (.unnamed hphase (eq_false_of_ne_true hnamed))
  · exact .idle _

theorem analysisStep_moves (h : Listed s) (e : Nat) (o : Outcome) :
    Move c s (.analysis e o) (analysisStep s e o) := by
  unfold analysisStep
  split
  · exact .idle _
  · rename_i a ha
    split
    · exact .idle _
    · rename_i hkilled
      have halive := eq_false_of_ne_true hkilled
      split
      · rename_i hstage
        split
        · rename_i hmutex
          have hlock := Move.lock (c := c) (o := o) ha halive hstage
            (fun m hm => by rw [hmutex] at hm; cases hm)
          rw [hmutex, Option.toList_none, List.append_nil] at hlock
          exact hlock
        · rename_i m hmutex
          split
          · exact .idle _
          · rename_i hfree
            have hlock := Move.lock (c := c) (o := o) ha halive hstage (fun m' hm => by
              obtain rfl := Option.some.inj (hmutex.symm.trans hm)
              exact fun hmem => hfree (List.contains_iff_mem.mpr hmem))
            rw [hmutex, Option.toList_some] at hlock
            exact hlock
      · rename_i hstage
        split
        · exact .unqueue ha halive hstage
        · rename_i hnot
          have hqueued : a.onQueued = some a.id := by simp [Analysis.onQueued, hstage]
          exact absurd (List.contains_iff_mem.mpr (onQueued_mem h ha hqueued)) hnot
      · rename_i hstage
        exact .run ha halive hstage
      · rename_i hstage
        cases o with
        | returned => exact .release ha halive hstage
        | raised => exact .release ha halive hstage
      · rename_i hstage
        split
        · exact .leave ha halive hstage
        · rename_i hnot
          have hrunning : a.onRunning = some a.id := by simp [Analysis.onRunning, hstage]
          exact absurd (List.contains_iff_mem.mpr (onRunning_mem h ha hrunning)) hnot
      · rename_i hstage
        exact .finish ha halive hstage
      · exact .idle _

/-- A step is one of the moves. -/
theorem step_moves (h : Listed s) (act : Action) : Move c s act (step c s act).1 := by
  cases act with
  | submit t sub =>
    show Move c s _ (s.queueAnalysis c t sub)
    unfold State.queueAnalysis
    split
    · exact .idle _
    · exact .submit t sub
  | scheduler t order => exact schedulerStep_moves
  | analysis e o => exact analysisStep_moves h e o

end Moves

/-! ## The lists are right -/

section Lists
variable {s : State} {t : MachineType} {e : Nat} {a : Analysis} {f : Analysis → Analysis}

theorem Listed.setScheduler (h : Listed s) (sch : LophiScheduler) :
    Listed (s.setScheduler t sch) := ⟨h.queued, h.running, h.mutexes⟩

/-- A change of an analysis that no list is about. -/
theorem Listed.modify (h : Listed s)
    (hqueued : ∀ a, s.analyses[e]? = some a → (f a).onQueued = a.onQueued)
    (hrunning : ∀ a, s.analyses[e]? = some a → (f a).onRunning = a.onRunning)
    (hmutex : ∀ a, s.analyses[e]? = some a → (f a).holdsMutex = a.holdsMutex) :
    Listed (s.modify e f) :=
  ⟨h.queued.keep hqueued, h.running.keep hrunning, h.mutexes.keep hmutex⟩

theorem kill_stage (a : Analysis) : a.kill.stage = a.stage := by
  unfold Analysis.kill
  split
  · rfl
  · rfl

theorem kill_id (a : Analysis) : a.kill.id = a.id := by
  unfold Analysis.kill
  split
  · rfl
  · rfl

theorem kill_scheduler (a : Analysis) : a.kill.scheduler = a.scheduler := by
  unfold Analysis.kill
  split
  · rfl
  · rfl

theorem kill_machine (a : Analysis) : a.kill.machine = a.machine := by
  unfold Analysis.kill
  split
  · rfl
  · rfl

theorem Listed.kill (h : Listed s) : Listed (s.modify e Analysis.kill) := by
  refine h.modify (fun a _ => ?_) (fun a _ => ?_) (fun a _ => ?_)
  · simp [Analysis.onQueued, kill_stage, kill_id]
  · simp [Analysis.onRunning, kill_stage, kill_id]
  · simp [Analysis.holdsMutex, Analysis.mutex, kill_stage, kill_machine]

theorem release_cases (s : State) (t : MachineType) (e : Nat) :
    s.release t e = s ∨
      ((s.schedulers t).analysis ≠ some e ∧ e ∉ (s.schedulers t).analysisDict.values ∧
        s.release t e = s.modify e Analysis.kill) := by
  unfold State.release
  split
  · exact .inl rfl
  · rename_i hnot
    rw [not_or] at hnot
    exact .inr ⟨hnot.1, fun hmem => hnot.2 (List.contains_iff_mem.mpr hmem), rfl⟩

theorem Listed.release (h : Listed s) : Listed (s.release t e) := by
  rcases release_cases s t e with heq | ⟨_, _, heq⟩
  · rw [heq]; exact h
  · rw [heq]; exact h.kill

theorem pop_cases (s : State) (t : MachineType) (aid : Nat) :
    ((s.schedulers t).analysisDict.get? aid = none ∧ s.pop t aid = s.dropped t aid) ∨
      ∃ e, (s.schedulers t).analysisDict.get? aid = some e ∧
        s.pop t aid = (s.dropped t aid).release t e := by
  unfold State.pop
  split
  · rename_i hget
    exact .inl ⟨hget, rfl⟩
  · rename_i e hget
    exact .inr ⟨e, hget, rfl⟩

theorem issue_cases (s : State) (t : MachineType) (sub : Submission) :
    ((s.schedulers t).analysis = none ∧ s.issue t sub = s.issued t sub) ∨
      ∃ old, (s.schedulers t).analysis = some old ∧
        s.issue t sub = (s.issued t sub).release t old := by
  unfold State.issue
  split
  · rename_i hget
    exact .inl ⟨hget, rfl⟩
  · rename_i old hget
    exact .inr ⟨old, hget, rfl⟩

theorem putBack_cases (s : State) (a : Analysis) :
    (a.drawn = none ∧ s.putBack a = s) ∨ ∃ name, a.drawn = some name ∧
      s.putBack a = s.setScheduler a.scheduler { s.schedulers a.scheduler with
        machineQueue := (s.schedulers a.scheduler).machineQueue ++ [name] } := by
  unfold State.putBack
  split
  · rename_i name hname
    exact .inr ⟨name, hname, rfl⟩
  · rename_i hnone
    exact .inl ⟨hnone, rfl⟩

theorem Listed.issued (h : Listed s) (sub : Submission) : Listed (s.issued t sub) :=
  ⟨h.queued.new rfl, h.running.new rfl, h.mutexes.new rfl⟩

theorem Listed.unlock (h : Listing Analysis.holdsMutex s.mutexes s.analyses)
    (ha : s.analyses[e]? = some a) (hstage : a.stage = .running) :
    Listing Analysis.holdsMutex (s.unlock a).mutexes
      (s.analyses.modify e fun a => { a with stage := .released }) := by
  have hold : a.holdsMutex = a.mutex := by simp [Analysis.holdsMutex, hstage]
  simp only [State.unlock]
  split
  · rename_i m hmutex
    exact h.leave ha (hold.trans hmutex) rfl
  · rename_i hmutex
    exact h.keepAt ha (by rw [hold, hmutex]; rfl)

end Lists

/-! ## The engine that a scheduler works on -/

/-- The engine in hand before its process is started, and its stage. -/
def Phase.pending : Phase → Option (Nat × Stage)
  | .issued _ e => some (e, .issued)
  | .placed _ e => some (e, .queued)
  | .starting _ e => some (e, .assigned)
  | _ => none

def Engine (s : State) (t : MachineType) (e : Nat) (stage : Stage) : Prop :=
  ∃ a, s.analyses[e]? = some a ∧ a.scheduler = t ∧ a.stage = stage

def Phased (s : State) : Prop :=
  ∀ t e stage, (s.schedulers t).phase.pending = some (e, stage) → Engine s t e stage

section Pending
variable {c : Config} {s s' : State} {t : MachineType} {e : Nat} {a : Analysis} {act : Action}
  {f : Analysis → Analysis} {stage : Stage}

theorem not_begun_of_pending {p : Phase} (h : p.pending = some (e, stage)) :
    stage.begun = false := by
  unfold Phase.pending at h
  split at h
  · cases h; rfl
  · cases h; rfl
  · cases h; rfl
  · cases h

theorem PhaseMove.pending_eq_none {p : Phase} (h : PhaseMove s t p) : p.pending = none := by
  cases h <;> rfl

theorem Phased.setScheduler (h : Phased s) {sch : LophiScheduler}
    (hsch : ∀ e stage, sch.phase.pending = some (e, stage) → Engine s t e stage) :
    Phased (s.setScheduler t sch) := by
  intro u e stage hp
  rw [setScheduler_schedulers] at hp
  split at hp
  · rename_i hu
    rw [hu]
    exact hsch e stage hp
  · exact h u e stage hp

theorem Phased.goto (h : Phased s) {p : Phase} (hp : p.pending = none) : Phased (s.goto t p) :=
  h.setScheduler fun e stage hsome => by rw [hp] at hsome; cases hsome

/-- A change of an analysis whose process has begun. -/
theorem Phased.modify (h : Phased s) (ha : s.analyses[e]? = some a)
    (hbegun : a.stage.begun = true) : Phased (s.modify e f) := by
  intro u e' stage hp
  obtain ⟨b, hb, hbu, hbstage⟩ := h u e' stage hp
  refine ⟨b, ?_, hbu, hbstage⟩
  have hne : e ≠ e' := by
    rintro rfl
    obtain rfl := Option.some.inj (ha.symm.trans hb)
    rw [hbstage, not_begun_of_pending hp] at hbegun
    cases hbegun
  rw [modify_analyses, List.getElem?_modify_ne f s.analyses hne]
  exact hb

theorem Engine.kill (h : Engine s t e stage) (e' : Nat) :
    Engine (s.modify e' Analysis.kill) t e stage := by
  obtain ⟨a, ha, hat, hstage⟩ := h
  by_cases he : e' = e
  · subst he
    refine ⟨a.kill, ?_, (kill_scheduler a).trans hat, (kill_stage a).trans hstage⟩
    rw [modify_analyses, List.getElem?_modify_eq, ha]
    rfl
  · refine ⟨a, ?_, hat, hstage⟩
    rw [modify_analyses, List.getElem?_modify_ne _ s.analyses he]
    exact ha

theorem Phased.release (h : Phased s) : Phased (s.release t e) := by
  rcases release_cases s t e with heq | ⟨_, _, heq⟩
  · rw [heq]; exact h
  · rw [heq]; exact fun u e' stage hp => (h u e' stage hp).kill e

/-- The scheduler goes on with its engine. -/
theorem Phased.advance (h : Phased s) (he : Engine s t e stage) (stage' : Stage)
    {sch : LophiScheduler}
    (hf : ∀ a, (f a).scheduler = a.scheduler ∧ (f a).stage = stage')
    (hsch : sch.phase.pending = none ∨ sch.phase.pending = some (e, stage')) :
    Phased ((s.setScheduler t sch).modify e f) := by
  obtain ⟨a, ha, hat, _⟩ := he
  intro u e' st hp
  rw [modify_schedulers, setScheduler_schedulers] at hp
  split at hp
  · rename_i hu
    rcases hsch with hnone | hsome
    · rw [hnone] at hp; cases hp
    · rw [hsome] at hp
      cases hp
      refine ⟨f a, ?_, (hf a).1.trans (hat.trans hu.symm), (hf a).2⟩
      rw [modify_analyses, List.getElem?_modify_eq, setScheduler_analyses, ha]
      rfl
  · rename_i hu
    obtain ⟨b, hb, hbu, hbstage⟩ := h u e' st hp
    refine ⟨b, ?_, hbu, hbstage⟩
    have hne : e ≠ e' := by
      rintro rfl
      obtain rfl := Option.some.inj (ha.symm.trans hb)
      exact hu (hbu.symm.trans hat)
    rw [modify_analyses, List.getElem?_modify_ne f _ hne]
    exact hb

theorem Phased.issued (h : Phased s) (sub : Submission) : Phased (s.issued t sub) := by
  intro u e stage hp
  unfold State.issued at hp
  rw [setScheduler_schedulers] at hp
  split at hp
  · rename_i hu
    cases hp
    refine ⟨{ scheduler := t, id := (s.schedulers t).analysisId }, ?_, hu.symm, rfl⟩
    exact List.getElem?_concat_length
  · obtain ⟨b, hb, hbu, hbstage⟩ := h u e stage hp
    refine ⟨b, ?_, hbu, hbstage⟩
    exact (List.getElem?_append_left (List.getElem?_eq_some_iff.mp hb).1).trans hb

theorem Phased.dropped (h : Phased s) (aid : Nat) : Phased (s.dropped t aid) :=
  h.setScheduler fun e stage hp => h t e stage hp

theorem Move.phased (hmove : Move c s act s') (h : Phased s) : Phased s' := by
  cases hmove with
  | idle => exact h
  | submit t sub => exact h.setScheduler fun e stage hp => h t e stage hp
  | phase hmove => exact h.goto hmove.pending_eq_none
  | @pop t _ rem aid _ =>
    refine Phased.goto ?_ rfl
    rcases pop_cases s t aid with ⟨_, heq⟩ | ⟨e, _, heq⟩
    · rw [heq]; exact h.dropped aid
    · rw [heq]; exact (h.dropped aid).release
  | take => exact h.setScheduler fun e stage hp => by cases hp
  | @issue t _ sub _ =>
    rcases issue_cases s t sub with ⟨_, heq⟩ | ⟨old, _, heq⟩
    · rw [heq]; exact h.issued sub
    · rw [heq]; exact (h.issued sub).release
  | @enqueue t _ sub e a hphase _ =>
    exact h.advance (h t e .issued (by rw [hphase]; rfl)) .queued
      (fun _ => ⟨rfl, rfl⟩) (.inr rfl)
  | @draw t _ sub e _ _ hphase _ =>
    exact h.advance (h t e .queued (by rw [hphase]; rfl)) .assigned
      (fun _ => ⟨rfl, rfl⟩) (.inr rfl)
  | @named t _ sub e _ hphase _ =>
    exact h.advance (h t e .queued (by rw [hphase]; rfl)) .assigned
      (fun _ => ⟨rfl, rfl⟩) (.inr rfl)
  | @missing t _ sub e _ hphase _ _ _ =>
    exact h.advance (h t e .queued (by rw [hphase]; rfl)) .failed
      (fun _ => ⟨rfl, rfl⟩) (.inl rfl)
  | @start t _ sub e _ hphase _ =>
    exact h.advance (h t e .assigned (by rw [hphase]; rfl)) .started
      (fun _ => ⟨rfl, rfl⟩) (.inl rfl)
  | @broken t _ sub e hphase _ =>
    exact h.advance (h t e .assigned (by rw [hphase]; rfl)) .failed
      (fun _ => ⟨rfl, rfl⟩) (.inl rfl)
  | enter => exact h.setScheduler fun e stage hp => by cases hp
  | lock ha _ hstage => exact h.modify ha (by rw [hstage]; rfl)
  | unqueue ha _ hstage => exact h.modify ha (by rw [hstage]; rfl)
  | run ha _ hstage => exact h.modify ha (by rw [hstage]; rfl)
  | release ha _ hstage => exact h.modify ha (by rw [hstage]; rfl)
  | leave ha _ hstage => exact h.modify ha (by rw [hstage]; rfl)
  | @finish e _ a ha _ hstage =>
    rcases putBack_cases s a with ⟨_, heq⟩ | ⟨name, _, heq⟩
    · rw [heq]; exact h.modify ha (by rw [hstage]; rfl)
    · rw [heq]
      exact Phased.modify (h.setScheduler fun e stage hp => h _ e stage hp) ha (by rw [hstage]; rfl)

/-- On the queued list, and the process does not have the mutex. -/
def Stage.waits : Stage → Bool
  | .queued | .assigned | .failed | .started => true
  | _ => false

theorem entries_of_waits (h : a.stage.waits = true) :
    a.onQueued = some a.id ∧ a.onRunning = none ∧ a.holdsMutex = none := by
  unfold Analysis.onQueued Analysis.onRunning Analysis.holdsMutex
  cases hstage : a.stage <;> simp_all [Stage.waits]

theorem Listed.wait (h : Listed s) (he : Engine s t e stage) (hstage : stage.waits = true)
    (hf : ∀ a : Analysis, (f a).id = a.id ∧ (f a).stage.waits = true) :
    Listed (s.modify e f) := by
  obtain ⟨a, ha, _, rfl⟩ := he
  obtain ⟨hid, hwaits⟩ := hf a
  obtain ⟨hqueued, hrunning, hmutex⟩ := entries_of_waits hstage
  obtain ⟨hqueued', hrunning', hmutex'⟩ := entries_of_waits hwaits
  refine ⟨h.queued.keepAt ha ?_, h.running.keepAt ha ?_, h.mutexes.keepAt ha ?_⟩
  · rw [hqueued', hqueued, hid]
  · rw [hrunning', hrunning]
  · rw [hmutex', hmutex]

theorem Listed.lock (h : Listed s) (ha : s.analyses[e]? = some a) (hstage : a.stage = .started) :
    Listed { s.setStage e .locked with mutexes := s.mutexes ++ a.mutex.toList } := by
  have hnone : a.holdsMutex = none := by simp [Analysis.holdsMutex, hstage]
  refine ⟨h.queued.keepAt ha ?_, h.running.keepAt ha ?_, ?_⟩
  · simp [Analysis.onQueued, hstage]
  · simp [Analysis.onRunning, hstage]
  · show Listing _ (s.mutexes ++ a.mutex.toList) (s.analyses.modify e _)
    cases hmutex : a.mutex with
    | none =>
      rw [Option.toList_none, List.append_nil]
      exact h.mutexes.keepAt ha (by rw [hnone]; exact hmutex)
    | some m => exact h.mutexes.enter ha hnone hmutex

theorem Move.listed (hmove : Move c s act s') (hp : Phased s) (h : Listed s) : Listed s' := by
  cases hmove with
  | idle => exact h
  | submit t sub => exact h.setScheduler _
  | phase hmove => exact h.setScheduler _
  | @pop t _ rem aid _ =>
    refine Listed.setScheduler ?_ _
    rcases pop_cases s t aid with ⟨_, heq⟩ | ⟨e, _, heq⟩
    · rw [heq]; exact h.setScheduler _
    · rw [heq]; exact (h.setScheduler _).release
  | take => exact h.setScheduler _
  | @issue t _ sub _ =>
    rcases issue_cases s t sub with ⟨_, heq⟩ | ⟨old, _, heq⟩
    · rw [heq]; exact h.issued sub
    · rw [heq]; exact (h.issued sub).release
  | @enqueue t _ sub e a hphase ha =>
    obtain ⟨b, hb, _, hstage⟩ := hp t e .issued (by rw [hphase]; rfl)
    obtain rfl := Option.some.inj (ha.symm.trans hb)
    refine ⟨h.queued.enter ha ?_ rfl, h.running.keepAt ha ?_, h.mutexes.keepAt ha ?_⟩
    · simp [Analysis.onQueued, hstage]
    · simp [Analysis.onRunning, hstage]
    · simp [Analysis.holdsMutex, hstage]
  | @draw t _ sub e _ _ hphase _ =>
    exact (h.setScheduler _).wait (hp t e .queued (by rw [hphase]; rfl)) rfl fun _ => ⟨rfl, rfl⟩
  | @named t _ sub e _ hphase _ =>
    exact (h.setScheduler _).wait (hp t e .queued (by rw [hphase]; rfl)) rfl fun _ => ⟨rfl, rfl⟩
  | @missing t _ sub e _ hphase _ _ _ =>
    exact (h.setScheduler _).wait (hp t e .queued (by rw [hphase]; rfl)) rfl fun _ => ⟨rfl, rfl⟩
  | @start t _ sub e _ hphase _ =>
    exact (h.setScheduler _).wait (hp t e .assigned (by rw [hphase]; rfl)) rfl fun _ => ⟨rfl, rfl⟩
  | @broken t _ sub e hphase _ =>
    exact (h.setScheduler _).wait (hp t e .assigned (by rw [hphase]; rfl)) rfl fun _ => ⟨rfl, rfl⟩
  | enter => exact h.setScheduler _
  | lock ha _ hstage => exact h.lock ha hstage
  | @unqueue e _ a ha _ hstage =>
    refine ⟨h.queued.leave ha ?_ rfl, h.running.keepAt ha ?_, h.mutexes.keepAt ha ?_⟩
    · simp [Analysis.onQueued, hstage]
    · simp [Analysis.onRunning, hstage]
    · simp [Analysis.holdsMutex, Analysis.mutex, hstage]
  | @run e _ a ha _ hstage =>
    refine ⟨h.queued.keepAt ha ?_, h.running.enter ha ?_ rfl, h.mutexes.keepAt ha ?_⟩
    · simp [Analysis.onQueued, hstage]
    · simp [Analysis.onRunning, hstage]
    · simp [Analysis.holdsMutex, Analysis.mutex, hstage]
  | @release e _ a ha _ hstage =>
    refine ⟨h.queued.keepAt ha ?_, h.running.keepAt ha ?_, Listed.unlock h.mutexes ha hstage⟩
    · simp [Analysis.onQueued, hstage]
    · simp [Analysis.onRunning, hstage]
  | @leave e _ a ha _ hstage =>
    refine ⟨h.queued.keepAt ha ?_, h.running.leave ha ?_ rfl, h.mutexes.keepAt ha ?_⟩
    · simp [Analysis.onQueued, hstage]
    · simp [Analysis.onRunning, hstage]
    · simp [Analysis.holdsMutex, hstage]
  | @finish e _ a ha _ hstage =>
    have hmodify : Listed (s.setStage e .ended) := by
      refine ⟨h.queued.keepAt ha ?_, h.running.keepAt ha ?_, h.mutexes.keepAt ha ?_⟩
      · simp [Analysis.onQueued, hstage]
      · simp [Analysis.onRunning, hstage]
      · simp [Analysis.holdsMutex, hstage]
    rcases putBack_cases s a with ⟨_, heq⟩ | ⟨name, _, heq⟩
    · rw [heq]; exact hmodify
    · rw [heq]; exact ⟨hmodify.queued, hmodify.running, hmodify.mutexes⟩

end Pending

/-! ## One analysis over a step -/

/-- What comes after a stage of the process. -/
def Stage.next : Stage → Stage
  | .started => .locked
  | .locked => .moving
  | .moving => .running
  | .running => .released
  | .released => .left
  | .left => .ended
  | stage => stage

/-- What a step makes of one analysis. -/
inductive Evolves (s : State) : Action → Nat → Analysis → Analysis → Prop
  | same (act : Action) (e : Nat) (a : Analysis) : Evolves s act e a a
  | popped {t : MachineType} {order rem : List Nat} {aid e : Nat} (a : Analysis)
      (hphase : (s.schedulers t).phase = .removing (aid :: rem))
      (hget : (s.schedulers t).analysisDict.get? aid = some e) :
      Evolves s (.scheduler t order) e a a.kill
  | rebound {t : MachineType} {order : List Nat} {sub : Submission} {e : Nat} (a : Analysis)
      (hphase : (s.schedulers t).phase = .loaded sub) (hvar : (s.schedulers t).analysis = some e)
      (hdict : e ∉ (s.schedulers t).analysisDict.values) :
      Evolves s (.scheduler t order) e a a.kill
  | enqueued {t : MachineType} {order : List Nat} {sub : Submission} {e : Nat} (a : Analysis)
      (hphase : (s.schedulers t).phase = .issued sub e) :
      Evolves s (.scheduler t order) e a { a with stage := .queued }
  | given {t : MachineType} {order : List Nat} {sub : Submission} {e : Nat} (a : Analysis)
      (m : Machine) (hphase : (s.schedulers t).phase = .placed sub e) :
      Evolves s (.scheduler t order) e a { a with stage := .assigned, machine := some m }
  | failed {t : MachineType} {order : List Nat} {stage : Stage} {e : Nat} (a : Analysis)
      (hphase : (s.schedulers t).phase.pending = some (e, stage)) :
      Evolves s (.scheduler t order) e a { a with stage := .failed }
  | started {t : MachineType} {order : List Nat} {sub : Submission} {e : Nat} (a : Analysis)
      (hphase : (s.schedulers t).phase = .starting sub e) :
      Evolves s (.scheduler t order) e a { a with stage := .started }
  | moved {e : Nat} {a : Analysis} (o : Outcome) (halive : a.killed = false)
      (hactive : a.stage.active = true) :
      Evolves s (.analysis e o) e a { a with stage := a.stage.next }

section Evolution
variable {c : Config} {s s' : State} {act : Action} {e : Nat} {a a' : Analysis}

/-- One analysis is changed. -/
theorem evolves_of_modify {e₀ : Nat} {f : Analysis → Analysis}
    (hf : ∀ a, s.analyses[e₀]? = some a → Evolves s act e₀ a (f a))
    (h : (s.analyses.modify e₀ f)[e]? = some a') :
    ∃ a, s.analyses[e]? = some a ∧ Evolves s act e a a' := by
  rcases getElem?_modify_cases h with ⟨rfl, a, ha, rfl⟩ | ⟨_, ha⟩
  · exact ⟨a, ha, hf a ha⟩
  · exact ⟨a', ha, .same _ _ _⟩

theorem release_getElem {t : MachineType} {e₀ : Nat}
    (h : (s.release t e₀).analyses[e]? = some a') :
    s.analyses[e]? = some a' ∨ (e = e₀ ∧ e ∉ (s.schedulers t).analysisDict.values ∧
      ∃ a, s.analyses[e]? = some a ∧ a' = a.kill) := by
  rcases release_cases s t e₀ with heq | ⟨_, hdict, heq⟩
  · rw [heq] at h
    exact .inl h
  · rw [heq, modify_analyses] at h
    rcases getElem?_modify_cases h with ⟨rfl, a, ha, rfl⟩ | ⟨_, ha⟩
    · exact .inr ⟨rfl, hdict, a, ha, rfl⟩
    · exact .inl ha

/-- The process of an analysis goes on. -/
theorem evolves_of_next {e₀ : Nat} {o : Outcome} {b : Analysis} {stage : Stage}
    (hb : s.analyses[e₀]? = some b) (halive : b.killed = false) (hactive : b.stage.active = true)
    (hnext : b.stage.next = stage)
    (h : (s.analyses.modify e₀ fun a => { a with stage := stage })[e]? = some a') :
    ∃ a, s.analyses[e]? = some a ∧ Evolves s (.analysis e₀ o) e a a' := by
  refine evolves_of_modify (fun a ha => ?_) h
  obtain rfl := Option.some.inj (hb.symm.trans ha)
  rw [← hnext]
  exact .moved o halive hactive

/-- The analysis that a scheduler makes. -/
def newAnalysis (s : State) (t : MachineType) : Analysis :=
  { scheduler := t, id := (s.schedulers t).analysisId }

theorem issued_getElem {t : MachineType} {sub : Submission}
    (h : (s.issued t sub).analyses[e]? = some a) :
    s.analyses[e]? = some a ∨ (e = s.analyses.length ∧ a = newAnalysis s t) := by
  have hcases := List.getElem?_append.symm.trans h
  split at hcases
  · exact .inl hcases
  · obtain ⟨hzero, hval⟩ := List.getElem?_eq_some_iff.mp hcases
    rw [List.length_singleton] at hzero
    refine .inr ⟨by omega, ?_⟩
    rw [← hval, List.getElem_singleton]
    rfl

/-- An analysis after a step is what became of one before it, or is new. -/
theorem Move.evolves (hmove : Move c s act s') (h : s'.analyses[e]? = some a') :
    (∃ a, s.analyses[e]? = some a ∧ Evolves s act e a a') ∨
      ∃ t order sub, act = .scheduler t order ∧ (s.schedulers t).phase = .loaded sub ∧
        e = s.analyses.length ∧ a' = newAnalysis s t := by
  cases hmove with
  | idle => exact .inl ⟨a', h, .same _ _ _⟩
  | submit => exact .inl ⟨a', h, .same _ _ _⟩
  | phase => exact .inl ⟨a', h, .same _ _ _⟩
  | @pop t _ rem aid hphase =>
    rw [goto_analyses] at h
    rcases pop_cases s t aid with ⟨_, heq⟩ | ⟨e₀, hget, heq⟩
    · rw [heq] at h
      exact .inl ⟨a', h, .same _ _ _⟩
    · rw [heq] at h
      rcases release_getElem h with ha | ⟨rfl, _, a, ha, rfl⟩
      · exact .inl ⟨a', ha, .same _ _ _⟩
      · exact .inl ⟨a, ha, .popped a hphase hget⟩
  | take => exact .inl ⟨a', h, .same _ _ _⟩
  | @issue t order sub hphase =>
    have hnew : (s.issued t sub).analyses[e]? = some a' →
        (∃ a, s.analyses[e]? = some a ∧ Evolves s (.scheduler t order) e a a') ∨
          ∃ u order' sub, Action.scheduler t order = .scheduler u order' ∧
            (s.schedulers u).phase = .loaded sub ∧ e = s.analyses.length ∧
            a' = newAnalysis s u := by
      intro ha'
      rcases issued_getElem ha' with ha | ⟨he, ha⟩
      · exact .inl ⟨a', ha, .same _ _ _⟩
      · exact .inr ⟨t, order, sub, rfl, hphase, he, ha⟩
    rcases issue_cases s t sub with ⟨_, heq⟩ | ⟨old, hvar, heq⟩
    · rw [heq] at h
      exact hnew h
    · rw [heq] at h
      rcases release_getElem h with ha | ⟨rfl, hdict, a, ha, rfl⟩
      · exact hnew ha
      · rcases issued_getElem ha with ha | ⟨he, rfl⟩
        · have hdict' : e ∉ (s.schedulers t).analysisDict.values := by
            simpa [State.issued] using hdict
          exact .inl ⟨a, ha, .rebound a hphase hvar hdict'⟩
        · exact .inr ⟨t, order, sub, rfl, hphase, he, rfl⟩
  | enqueue hphase ha => exact .inl (evolves_of_modify (fun a _ => .enqueued a hphase) h)
  | draw hphase _ => exact .inl (evolves_of_modify (fun a _ => .given a _ hphase) h)
  | named hphase _ => exact .inl (evolves_of_modify (fun a _ => .given a _ hphase) h)
  | @missing t _ sub e₀ _ hphase _ _ _ =>
    have hpending : (s.schedulers t).phase.pending = some (e₀, .queued) := by rw [hphase]; rfl
    exact .inl (evolves_of_modify (fun a _ => .failed a hpending) h)
  | start hphase _ => exact .inl (evolves_of_modify (fun a _ => .started a hphase) h)
  | @broken t _ sub e₀ hphase _ =>
    have hpending : (s.schedulers t).phase.pending = some (e₀, .assigned) := by rw [hphase]; rfl
    exact .inl (evolves_of_modify (fun a _ => .failed a hpending) h)
  | enter => exact .inl ⟨a', h, .same _ _ _⟩
  | lock hb halive hstage =>
    exact .inl (evolves_of_next hb halive (by rw [hstage]; rfl) (by rw [hstage]; rfl) h)
  | unqueue hb halive hstage =>
    exact .inl (evolves_of_next hb halive (by rw [hstage]; rfl) (by rw [hstage]; rfl) h)
  | run hb halive hstage =>
    exact .inl (evolves_of_next hb halive (by rw [hstage]; rfl) (by rw [hstage]; rfl) h)
  | release hb halive hstage =>
    exact .inl (evolves_of_next hb halive (by rw [hstage]; rfl) (by rw [hstage]; rfl) h)
  | leave hb halive hstage =>
    exact .inl (evolves_of_next hb halive (by rw [hstage]; rfl) (by rw [hstage]; rfl) h)
  | @finish e₀ _ b hb halive hstage =>
    have hsame : ((s.putBack b).setStage e₀ .ended).analyses =
        s.analyses.modify e₀ fun a => { a with stage := .ended } := by
      rcases putBack_cases s b with ⟨_, heq⟩ | ⟨name, _, heq⟩
      · rw [heq]; rfl
      · rw [heq]; rfl
    rw [hsame] at h
    exact .inl (evolves_of_next hb halive (by rw [hstage]; rfl) (by rw [hstage]; rfl) h)

theorem length_release (s : State) (t : MachineType) (e : Nat) :
    (s.release t e).analyses.length = s.analyses.length := by
  rcases release_cases s t e with heq | ⟨_, _, heq⟩
  · rw [heq]
  · rw [heq, modify_analyses, List.length_modify]

theorem Move.length_le (hmove : Move c s act s') : s.analyses.length ≤ s'.analyses.length := by
  have hmodify : ∀ e f, s.analyses.length ≤ (s.analyses.modify e f).length :=
    fun e f => Nat.le_of_eq (List.length_modify f s.analyses e).symm
  cases hmove with
  | @pop t _ _ aid _ =>
    rw [goto_analyses]
    rcases pop_cases s t aid with ⟨_, heq⟩ | ⟨e, _, heq⟩
    · rw [heq]; exact Nat.le_refl _
    · rw [heq, length_release]; exact Nat.le_refl _
  | @issue t _ sub _ =>
    have hissued : s.analyses.length ≤ (s.issued t sub).analyses.length := by
      simp [State.issued]
    rcases issue_cases s t sub with ⟨_, heq⟩ | ⟨old, _, heq⟩
    · rw [heq]; exact hissued
    · rw [heq, length_release]; exact hissued
  | @finish e _ a _ _ _ =>
    rcases putBack_cases s a with ⟨_, heq⟩ | ⟨name, _, heq⟩
    · rw [heq]; exact hmodify _ _
    · rw [heq]; exact hmodify _ _
  | _ => first | exact Nat.le_refl _ | exact hmodify _ _

/-- An analysis before a step becomes one after it. -/
theorem Move.forward (hmove : Move c s act s') (ha : s.analyses[e]? = some a) :
    ∃ a', s'.analyses[e]? = some a' ∧ Evolves s act e a a' := by
  have hlt := (List.getElem?_eq_some_iff.mp ha).1
  have hle := hmove.length_le
  have ha' : s'.analyses[e]? = some (s'.analyses.get ⟨e, by omega⟩) :=
    List.getElem?_eq_getElem (by omega)
  rcases hmove.evolves ha' with ⟨b, hb, hev⟩ | ⟨_, _, _, _, _, he, _⟩
  · obtain rfl := Option.some.inj (ha.symm.trans hb)
    exact ⟨_, ha', hev⟩
  · omega

theorem Evolves.id_eq (h : Evolves s act e a a') : a'.id = a.id := by
  cases h with
  | popped => exact kill_id a
  | rebound => exact kill_id a
  | _ => rfl

theorem Evolves.scheduler_eq (h : Evolves s act e a a') : a'.scheduler = a.scheduler := by
  cases h with
  | popped => exact kill_scheduler a
  | rebound => exact kill_scheduler a
  | _ => rfl

/-- Before its process begins, an analysis is changed by its scheduler only. -/
theorem stage_of_pending (hp : Phased s) (ha : s.analyses[e]? = some a) {t : MachineType}
    {stage : Stage} (hphase : (s.schedulers t).phase.pending = some (e, stage)) :
    a.scheduler = t ∧ a.stage = stage := by
  obtain ⟨b, hb, hbt, hbstage⟩ := hp t e stage hphase
  obtain rfl := Option.some.inj (ha.symm.trans hb)
  exact ⟨hbt, hbstage⟩

theorem next_begun {stage : Stage} (h : stage.active = true) : stage.next.begun = true := by
  cases stage <;> first | rfl | cases h

theorem begun_of_active {stage : Stage} (h : stage.active = true) : stage.begun = true := by
  cases stage <;> first | rfl | cases h

/-- A process that has begun has begun. -/
theorem Evolves.begun (h : Evolves s act e a a') (hp : Phased s) (ha : s.analyses[e]? = some a)
    (hbegun : a.stage.begun = true) : a'.stage.begun = true := by
  have hno : ∀ {t stage}, (s.schedulers t).phase.pending = some (e, stage) → False := by
    intro t stage hphase
    have hstage := (stage_of_pending hp ha hphase).2
    rw [hstage, not_begun_of_pending hphase] at hbegun
    cases hbegun
  cases h with
  | same => exact hbegun
  | popped => rw [kill_stage]; exact hbegun
  | rebound => rw [kill_stage]; exact hbegun
  | enqueued _ hphase => exact (hno (by rw [hphase]; rfl)).elim
  | given _ _ hphase => exact (hno (by rw [hphase]; rfl)).elim
  | failed _ hphase => exact (hno hphase).elim
  | started => rfl
  | moved _ _ hactive => exact next_begun hactive

theorem killed_or_active_of_kill (h : a.kill.killed = true) :
    a.killed = true ∨ a.stage.active = true := by
  unfold Analysis.kill at h
  split at h
  · rename_i hactive
    exact .inr hactive
  · exact .inl h

theorem Evolves.begun_of_killed (h : Evolves s act e a a') (hp : Phased s)
    (ha : s.analyses[e]? = some a) (hwas : a.killed = true → a.stage.begun = true)
    (hkilled : a'.killed = true) : a'.stage.begun = true := by
  have hbefore : a.killed = true ∨ a.stage.active = true := by
    cases h with
    | popped => exact killed_or_active_of_kill hkilled
    | rebound => exact killed_or_active_of_kill hkilled
    | moved _ _ hactive => exact .inr hactive
    | _ => exact .inl hkilled
  rcases hbefore with hbefore | hactive
  · exact h.begun hp ha (hwas hbefore)
  · exact h.begun hp ha (begun_of_active hactive)

/-- What the code keeps in every run: the shared lists are right, the engine in hand is at
the stage for it, no process ends with an exception and only a process is killed. -/
structure Coherent (s : State) : Prop where
  listed : Listed s
  phased : Phased s
  killed : ∀ (e : Nat) (a : Analysis), s.analyses[e]? = some a → a.killed = true →
    a.stage.begun = true
  ne_died : ∀ (e : Nat) (a : Analysis), s.analyses[e]? = some a → a.stage ≠ .died

theorem Evolves.ne_died (h : Evolves s act e a a') (ha : a.stage ≠ .died) :
    a'.stage ≠ .died := by
  cases h with
  | same => exact ha
  | popped => rw [kill_stage]; exact ha
  | rebound => rw [kill_stage]; exact ha
  | moved =>
    intro hdied
    cases hstage : a.stage <;> simp_all [Stage.next]
  | _ => nofun

theorem Coherent.step (h : Coherent s) (c : Config) (act : Action) :
    Coherent (step c s act).1 := by
  have hmove := step_moves (c := c) h.listed act
  refine ⟨hmove.listed h.phased h.listed, hmove.phased h.phased, fun e a' ha' hkilled => ?_,
    fun e a' ha' => ?_⟩
  · rcases hmove.evolves ha' with ⟨a, ha, hev⟩ | ⟨t, _, _, _, _, _, rfl⟩
    · exact hev.begun_of_killed h.phased ha (h.killed e a ha) hkilled
    · cases hkilled
  · rcases hmove.evolves ha' with ⟨a, ha, hev⟩ | ⟨t, _, _, _, _, _, rfl⟩
    · exact hev.ne_died (h.ne_died e a ha)
    · nofun

theorem coherent_init (c : Config) : Coherent (State.init c) where
  listed := ⟨.nil, .nil, .nil⟩
  phased t e stage hp := by
    simp only [State.init] at hp
    split at hp
    · cases hp
    · cases hp
  killed e a ha := by cases ha
  ne_died e a ha := by cases ha

theorem coherent_stateAt (c : Config) (acts : List Action) {k : Nat} (hk : k ≤ acts.length) :
    Coherent (stateAt (Scheduler.step c) (State.init c) acts k) := by
  refine stateAt_invariant Coherent (coherent_init c) ?_ k hk
  intro k act hact hs
  rw [stateAt_succ hact]
  exact hs.step c act

end Evolution

end LoPhi.Automation.Scheduler
