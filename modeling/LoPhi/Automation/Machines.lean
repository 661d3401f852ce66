import LoPhi.Automation.Cleanup

/-! # Machines

A machine leaves its queue in the scheduler and comes back in the process of the
analysis. Between the two there is nobody else who would put it back: if the
script does not load or does not start, the scheduler ends with the machine in its
hands, and so it does, with or without a machine, if a class has no name or
a requested machine is nowhere. A machine of the configuration that a command names is
given to the analysis as it is: it stays on its queue, or with whoever has it. -/

namespace LoPhi.Automation.Scheduler
open LoPhi.Lib LoPhi.Lib.Ledger LoPhi.Lib.Machine

/-! ## Who has a machine -/

/-- About to run or running, with a machine. -/
def Stage.holding : Stage → Bool
  | .assigned | .started | .locked | .moving | .running | .released | .left => true
  | _ => false

/-- The machine an analysis has from the queue of type `t`. -/
def Analysis.borrowed (t : MachineType) (a : Analysis) : Option String :=
  if a.scheduler = t ∧ a.killed = false ∧ a.stage.holding = true then a.drawn else none

/-- The machine of the configuration an analysis has, from a queue or because the command named
it. -/
def Analysis.holds (a : Analysis) : Option String :=
  if a.killed = false ∧ a.stage.holding = true then a.mutex else none

/-- Every machine of the pool is on the queue and nobody has it, or it is not and one analysis has
it. -/
def Conserved (c : Config) (s : State) : Prop :=
  ∀ t m, m ∈ c.pool t →
    ((s.schedulers t).machineQueue.count m = 1 ∧ owing Analysis.holds m s.analyses = 0) ∨
      ((s.schedulers t).machineQueue.count m = 0 ∧ owing Analysis.holds m s.analyses = 1)

/-- Queue and analyses together have each machine as often as the pool has it. -/
def Stocked (c : Config) (s : State) : Prop :=
  ∀ t, Stock (Analysis.borrowed t) (c.pool t) (s.schedulers t).machineQueue s.analyses

theorem pool_nodup (c : Config) (t : MachineType) : (c.pool t).Nodup :=
  c.nodup.sublist (List.filter_sublist.map Prod.fst)

/-- A machine is in the pool of one type only. -/
theorem pool_type {c : Config} {t u : MachineType} {m : String} (ht : m ∈ c.pool t)
    (hu : m ∈ c.pool u) : t = u := by
  unfold Config.pool at ht hu
  obtain ⟨p, hp, hpm⟩ := List.mem_map.mp ht
  obtain ⟨q, hq, hqm⟩ := List.mem_map.mp hu
  obtain ⟨hp, hpt⟩ := List.mem_filter.mp hp
  obtain ⟨hq, hqu⟩ := List.mem_filter.mp hq
  have hpq : p = q := List.inj_on_of_nodup_map c.nodup hp hq (hpm.trans hqm.symm)
  rw [← of_decide_eq_true hpt, ← of_decide_eq_true hqu, hpq]

/-- No analysis runs on a machine of the configuration because the command named it. -/
def Unlisted (s : State) : Prop :=
  ∀ (e : Nat) (a : Analysis), s.analyses[e]? = some a → ∀ name, a.machine ≠ some (.listed name)

/-- Then who has a machine has it from its queue. -/
theorem owing_holds {c : Config} {s : State} {t : MachineType} {m : String} (h : Stocked c s)
    (hunlisted : Unlisted s) (hm : m ∈ c.pool t) :
    owing Analysis.holds m s.analyses = owing (Analysis.borrowed t) m s.analyses := by
  refine List.countP_congr fun a ha => ?_
  obtain ⟨e, he⟩ := List.getElem?_of_mem ha
  rw [decide_eq_true_iff, decide_eq_true_iff]
  unfold Analysis.holds
  constructor
  · intro hholds
    split at hholds
    · rename_i hhas
      have hdrawn : a.drawn = some m := by
        unfold Analysis.mutex at hholds
        unfold Analysis.drawn
        cases hmachine : a.machine with
        | none =>
          rw [hmachine] at hholds
          cases hholds
        | some machine =>
          rw [hmachine] at hholds
          cases machine with
          | drawn name => exact hholds
          | listed name => exact absurd hmachine (hunlisted e a he name)
          | virtual name => cases hholds
      have hborrowed : a.borrowed a.scheduler = some m := by
        unfold Analysis.borrowed
        rw [if_pos ⟨rfl, hhas.1, hhas.2⟩, hdrawn]
      have hpool : m ∈ c.pool a.scheduler := by
        rw [← List.count_pos_iff, ← h a.scheduler m]
        have := owing_pos he hborrowed
        omega
      rw [pool_type hm hpool]
      exact hborrowed
    · cases hholds
  · intro hborrowed
    unfold Analysis.borrowed at hborrowed
    split at hborrowed
    · rename_i hhas
      rw [if_pos ⟨hhas.2.1, hhas.2.2⟩]
      unfold Analysis.drawn at hborrowed
      unfold Analysis.mutex
      cases hmachine : a.machine with
      | none =>
        rw [hmachine] at hborrowed
        cases hborrowed
      | some machine =>
        rw [hmachine] at hborrowed
        cases machine with
        | drawn name => exact hborrowed
        | listed name => cases hborrowed
        | virtual name => cases hborrowed
    · cases hborrowed

theorem Stocked.conserved {c : Config} {s : State} (h : Stocked c s) (hunlisted : Unlisted s) :
    Conserved c s := by
  intro t m hm
  have hcount : (c.pool t).count m = 1 := List.count_eq_one_of_mem (pool_nodup c t) hm
  have hall := h t m
  rw [owing_holds h hunlisted hm]
  omega

/-! ## Submissions that can be started -/

/-- The command names no machine, or an existing virtual one that is not of the configuration. A
machine of the configuration would be used without a look at its queue. -/
def Submission.placeable (c : Config) (sub : Submission) : Bool :=
  match sub.command.machine with
  | none => true
  | some name => !c.has name && (sub.command.machineType ≠ PHYSICAL && sub.vmExists)

/-- The script loads, its class can be started and has a name, and the machine is not taken from
elsewhere. -/
def Submission.startable (c : Config) (sub : Submission) : Bool :=
  match sub.analysisClass with
  | none => false
  | some cls => cls.starts && cls.named && sub.placeable c

/-- The next step takes another kind of submission. -/
def takesUnstartable (c : Config) (s : State) : Action → Bool
  | .scheduler t _ =>
    match (s.schedulers t).phase, (s.schedulers t).analysisQueue with
    | .getting, sub :: _ => !sub.startable c
    | _, _ => false
  | _ => false

/-- What a scheduler has in its hands can be started. -/
def Phase.ready (c : Config) : Phase → Prop
  | .loaded sub | .issued sub _ | .placed sub _ | .starting sub _ => sub.startable c = true
  | .entering cls _ | .printing cls => cls.named = true
  | .exited => False
  | _ => True

/-- Every scheduler there is runs, and what it has can be started. -/
def Working (c : Config) (s : State) : Prop :=
  ∀ t, (c.pool t = [] ∧ (s.schedulers t).phase = .exited) ∨ (s.schedulers t).phase.ready c

section Submissions
variable {c : Config} {sub : Submission}

theorem startable_cases (h : sub.startable c = true) :
    ∃ cls, sub.analysisClass = some cls ∧ cls.starts = true ∧ cls.named = true ∧
      sub.placeable c = true := by
  unfold Submission.startable at h
  split at h
  · cases h
  · rename_i cls hcls
    rw [Bool.and_eq_true, Bool.and_eq_true] at h
    exact ⟨cls, hcls, h.1.1, h.1.2, h.2⟩

theorem not_missing (h : sub.startable c = true) {name : String}
    (hname : sub.command.machine = some name) :
    c.has name = false ∧ sub.command.machineType ≠ PHYSICAL ∧ sub.vmExists = true := by
  obtain ⟨_, _, _, _, hplace⟩ := startable_cases h
  unfold Submission.placeable at hplace
  rw [hname] at hplace
  simpa using hplace

end Submissions

/-! ## Steps -/

section Steps
variable {c : Config} {s s' : State} {act : Action} {t u : MachineType} {e : Nat}
  {a a' : Analysis}

theorem borrowed_of_not_holding (h : a.stage.holding = false) : a.borrowed t = none := by
  unfold Analysis.borrowed
  rw [if_neg]
  rw [h]
  exact fun hand => by cases hand.2.2

theorem borrowed_of_other (h : a.scheduler ≠ t) : a.borrowed t = none :=
  if_neg fun hand => h hand.1

theorem borrowed_of_over (h : a.over = true) : a.borrowed t = none := by
  unfold Analysis.over at h
  rcases of_decide_eq_true h with hstage | ⟨_, hdrawn⟩
  · exact borrowed_of_not_holding (by rw [hstage]; rfl)
  · unfold Analysis.borrowed
    rw [hdrawn]
    exact ite_self none

theorem over_of_over_kill (h : a.kill.over = true) : a.over = true := by
  unfold Analysis.over Analysis.drawn at h ⊢
  rw [kill_stage, kill_machine] at h
  exact h

/-- Killing what is over takes no machine away. -/
theorem borrowed_kill (h : a.kill.killed = true → a.kill.over = true) :
    a.kill.borrowed t = a.borrowed t := by
  by_cases hactive : a.stage.active = true
  · have hover : a.kill.over = true := h (by simp [Analysis.kill, hactive])
    rw [borrowed_of_over hover, borrowed_of_over (over_of_over_kill hover)]
  · rw [Analysis.kill, if_neg hactive]

/-- The same machine before and after a step of the process. -/
theorem borrowed_stage {stage : Stage} (h : a.stage.holding = true)
    (hstage : stage.holding = true) :
    ({ a with stage := stage } : Analysis).borrowed t = a.borrowed t := by
  unfold Analysis.borrowed
  simp only [h, hstage]
  rfl

theorem setScheduler_machineQueue {sch : LophiScheduler}
    (hsch : sch.machineQueue = (s.schedulers t).machineQueue) (u : MachineType) :
    ((s.setScheduler t sch).schedulers u).machineQueue = (s.schedulers u).machineQueue := by
  rw [setScheduler_schedulers]
  split
  · rename_i hu
    rw [hsch, hu]
  · rfl

/-- The queues are as they were, and an analysis keeps what it has. -/
theorem Stocked.modify (h : Stocked c s) {f : Analysis → Analysis}
    (hqueues : ∀ u, (s'.schedulers u).machineQueue = (s.schedulers u).machineQueue)
    (hanalyses : s'.analyses = s.analyses.modify e f)
    (hkeep : ∀ u a, s.analyses[e]? = some a → (f a).borrowed u = a.borrowed u) : Stocked c s' := by
  intro u
  rw [hqueues, hanalyses]
  exact (h u).keep (hkeep u)

theorem Stocked.congr (h : Stocked c s)
    (hqueues : ∀ u, (s'.schedulers u).machineQueue = (s.schedulers u).machineQueue)
    (hanalyses : s'.analyses = s.analyses) : Stocked c s' := by
  intro u
  rw [hqueues, hanalyses]
  exact h u

/-- A change of an analysis of scheduler `t`, between stages without a machine. -/
theorem keep_of_not_holding {f : Analysis → Analysis} {stage : Stage} (he : Engine s t e stage)
    (hstage : stage.holding = false) (hf : ∀ a : Analysis, (f a).borrowed u = none) :
    ∀ a, s.analyses[e]? = some a → (f a).borrowed u = a.borrowed u := by
  intro a ha
  obtain ⟨b, hb, _, hbstage⟩ := he
  obtain rfl := Option.some.inj (ha.symm.trans hb)
  rw [hf a, borrowed_of_not_holding (by rw [hbstage]; exact hstage)]

/-- The process of an analysis goes on and keeps the machine. -/
theorem Stocked.next (h : Stocked c s) {stage : Stage}
    (hqueues : ∀ u, (s'.schedulers u).machineQueue = (s.schedulers u).machineQueue)
    (hanalyses : s'.analyses = s.analyses.modify e fun a => { a with stage := stage })
    (ha : s.analyses[e]? = some a) (hold : a.stage.holding = true)
    (hnew : stage.holding = true) : Stocked c s' := by
  refine h.modify hqueues hanalyses fun u b hb => ?_
  obtain rfl := Option.some.inj (ha.symm.trans hb)
  exact borrowed_stage hold hnew

theorem Stocked.release (h : Stocked c s)
    (hkill : ∀ a, s.analyses[e]? = some a → (s.release t e).analyses[e]? = some a.kill →
      a.kill.killed = true → a.kill.over = true) : Stocked c (s.release t e) := by
  rcases release_cases s t e with heq | ⟨_, _, heq⟩
  · rw [heq]; exact h
  · rw [heq] at hkill ⊢
    refine h.modify (fun u => rfl) rfl fun u a ha => borrowed_kill (hkill a ha ?_)
    rw [modify_analyses, List.getElem?_modify_eq, ha]
    rfl

theorem Stocked.issued (h : Stocked c s) (sub : Submission) : Stocked c (s.issued t sub) := by
  intro u
  have hqueue : ((s.issued t sub).schedulers u).machineQueue = (s.schedulers u).machineQueue := by
    unfold State.issued
    exact setScheduler_machineQueue (by rfl) u
  rw [hqueue]
  exact (h u).new (borrowed_of_not_holding rfl)

/-- The scheduler gives its analysis the first machine of the queue. -/
theorem Stocked.draw (h : Stocked c s) {sub : Submission} {name : String} {rest : List String}
    (he : Engine s t e .queued) (hlive : ∀ a, s.analyses[e]? = some a → a.killed = false)
    (hqueue : (s.schedulers t).machineQueue = name :: rest) :
    Stocked c ((s.setScheduler t { s.schedulers t with
      machineQueue := rest, phase := .starting sub e }).giveMachine e (.drawn name)) := by
  obtain ⟨a, ha, hat, hstage⟩ := he
  have hno : a.borrowed t = none := borrowed_of_not_holding (by rw [hstage]; rfl)
  intro u
  show Stock _ _ ((s.setScheduler t _).schedulers u).machineQueue (s.analyses.modify e _)
  rw [setScheduler_schedulers]
  split
  · rename_i hu
    subst hu
    have hstock := h u
    rw [hqueue] at hstock
    refine hstock.take ha hno ?_
    simp [Analysis.borrowed, Analysis.drawn, hat, hlive a ha, Stage.holding, Machine.drawn?]
  · rename_i hu
    refine (h u).keepAt ha ?_
    rw [borrowed_of_other (by rw [hat]; exact Ne.symm hu),
      borrowed_of_other (show a.scheduler ≠ u by rw [hat]; exact Ne.symm hu)]

/-- The analysis puts its machine back. -/
theorem Stocked.finish (h : Stocked c s) (ha : s.analyses[e]? = some a)
    (halive : a.killed = false) (hstage : a.stage = .left) :
    Stocked c ((s.putBack a).setStage e .ended) := by
  have hnone : ∀ u, ({ a with stage := .ended } : Analysis).borrowed u = none :=
    fun u => borrowed_of_not_holding rfl
  have hself : a.borrowed a.scheduler = a.drawn :=
    if_pos ⟨rfl, halive, by rw [hstage]; rfl⟩
  intro u
  rcases putBack_cases s a with ⟨hdrawn, heq⟩ | ⟨name, hdrawn, heq⟩
  · rw [heq]
    refine (h u).keepAt ha ?_
    rw [hnone]
    unfold Analysis.borrowed
    rw [hdrawn]
    exact (ite_self none).symm
  · rw [heq]
    show Stock _ _ ((s.setScheduler a.scheduler _).schedulers u).machineQueue
      (s.analyses.modify e _)
    rw [setScheduler_schedulers]
    split
    · rename_i hu
      subst hu
      exact (h a.scheduler).put ha (hself.trans hdrawn) (hnone a.scheduler)
    · rename_i hu
      refine (h u).keepAt ha ?_
      rw [hnone, borrowed_of_other (Ne.symm hu)]

/-- A move keeps the stock, unless it starts what cannot be started. -/
theorem Move.stocked (hmove : Move c s act s') (hc : Coherent s) (hsafe : Safe s')
    (hworking : Working c s) (h : Stocked c s) : Stocked c s' := by
  cases hmove with
  | idle => exact h
  | submit => exact h.congr (setScheduler_machineQueue rfl) rfl
  | phase => exact h.congr (setScheduler_machineQueue rfl) rfl
  | @pop t _ rem aid _ =>
    have hdropped : Stocked c (s.dropped t aid) := h.congr (setScheduler_machineQueue rfl) rfl
    have hpop : Stocked c (s.pop t aid) := by
      rcases pop_cases s t aid with ⟨_, heq⟩ | ⟨e, _, heq⟩
      · rw [heq]; exact hdropped
      · rw [heq]
        refine hdropped.release fun a _ ha' hkilled => hsafe.killed e a.kill ?_ hkilled
        rw [goto_analyses, heq]
        exact ha'
    exact hpop.congr (setScheduler_machineQueue rfl) rfl
  | take => exact h.congr (setScheduler_machineQueue rfl) rfl
  | @issue t _ sub _ =>
    rcases issue_cases s t sub with ⟨_, heq⟩ | ⟨old, _, heq⟩
    · rw [heq]; exact h.issued sub
    · rw [heq] at hsafe ⊢
      exact (h.issued sub).release fun a _ ha' => hsafe.killed old a.kill ha'
  | @enqueue t _ sub e a hphase _ =>
    refine h.modify (setScheduler_machineQueue rfl) rfl fun u => ?_
    exact keep_of_not_holding (hc.phased t e .issued (by rw [hphase]; rfl)) rfl
      fun a => borrowed_of_not_holding rfl
  | @draw t _ sub e _ _ hphase hqueue =>
    have he : Engine s t e .queued := hc.phased t e .queued (by rw [hphase]; rfl)
    refine h.draw he (fun a ha => ?_) hqueue
    cases hk : a.killed with
    | false => rfl
    | true =>
      have hbegun := hc.killed e a ha hk
      obtain ⟨b, hb, _, hstage⟩ := he
      obtain rfl := Option.some.inj (ha.symm.trans hb)
      rw [hstage] at hbegun
      cases hbegun
  | @named t _ sub e m hphase hm _ =>
    refine h.modify (setScheduler_machineQueue rfl) rfl fun u => ?_
    refine keep_of_not_holding (hc.phased t e .queued (by rw [hphase]; rfl)) rfl fun a => ?_
    simp [Analysis.borrowed, Analysis.drawn, hm]
  | @missing t _ sub e _ hphase _ _ _ =>
    refine h.modify (setScheduler_machineQueue rfl) rfl fun u => ?_
    exact keep_of_not_holding (hc.phased t e .queued (by rw [hphase]; rfl)) rfl
      fun a => borrowed_of_not_holding rfl
  | @start t _ sub e _ hphase _ =>
    obtain ⟨a, ha, _, hstage⟩ := hc.phased t e .assigned (by rw [hphase]; rfl)
    exact h.next (setScheduler_machineQueue rfl) rfl ha (by rw [hstage]; rfl) rfl
  | @broken t _ sub e hphase hcls =>
    rcases hworking t with ⟨_, hover⟩ | hready
    · rw [hphase] at hover
      cases hover
    · rw [hphase] at hready
      obtain ⟨cls, hsome, hstarts, _⟩ := startable_cases hready
      rw [hcls cls hsome] at hstarts
      cases hstarts
  | enter => exact h.congr (setScheduler_machineQueue rfl) rfl
  | lock ha _ hstage => exact h.next (fun u => rfl) rfl ha (by rw [hstage]; rfl) rfl
  | unqueue ha _ hstage => exact h.next (fun u => rfl) rfl ha (by rw [hstage]; rfl) rfl
  | run ha _ hstage => exact h.next (fun u => rfl) rfl ha (by rw [hstage]; rfl) rfl
  | release ha _ hstage => exact h.next (fun u => rfl) rfl ha (by rw [hstage]; rfl) rfl
  | leave ha _ hstage => exact h.next (fun u => rfl) rfl ha (by rw [hstage]; rfl) rfl
  | finish ha halive hstage => exact h.finish ha halive hstage

theorem PhaseMove.ready {p : Phase} (hmove : PhaseMove s t p)
    (h : (s.schedulers t).phase.ready c) : p.ready c := by
  cases hmove with
  | unnamed hphase hnamed =>
    rw [hphase] at h
    exact absurd h (by rw [Phase.ready, hnamed]; nofun)
  | _ => trivial

/-- A scheduler's own step, if it does not take what cannot be started. -/
theorem Move.ready {order : List Nat} (hmove : Move c s (.scheduler t order) s')
    (hok : takesUnstartable c s (.scheduler t order) = false)
    (h : (s.schedulers t).phase.ready c) : (s'.schedulers t).phase.ready c := by
  have hfrom : ∀ {p}, (s.schedulers t).phase = p → p.ready c := by
    intro p hphase
    rw [← hphase]
    exact h
  cases hmove with
  | idle => exact h
  | phase hmove =>
    rw [State.goto, setScheduler_self]
    exact hmove.ready h
  | pop => rw [State.goto, setScheduler_self]; trivial
  | @take _ _ sub rest hphase hqueue =>
    rw [setScheduler_self]
    show sub.startable c = true
    simpa [takesUnstartable, hphase, hqueue] using hok
  | issue hphase =>
    rw [issue_schedulers, State.issued, setScheduler_self]
    have hready := hfrom hphase
    exact hready
  | enqueue hphase _ =>
    show ((s.goto t _).schedulers t).phase.ready c
    rw [State.goto, setScheduler_self]
    have hready := hfrom hphase
    exact hready
  | draw hphase _ =>
    show ((s.setScheduler t _).schedulers t).phase.ready c
    rw [setScheduler_self]
    have hready := hfrom hphase
    exact hready
  | named hphase _ _ =>
    show ((s.goto t _).schedulers t).phase.ready c
    rw [State.goto, setScheduler_self]
    have hready := hfrom hphase
    exact hready
  | missing hphase hname _ hvm => exact absurd (not_missing (hfrom hphase) hname).2 hvm
  | @start _ _ sub e cls hphase hcls =>
    show ((s.goto t _).schedulers t).phase.ready c
    rw [State.goto, setScheduler_self]
    obtain ⟨cls', hcls', _, hnamed, _⟩ := startable_cases (hfrom hphase)
    obtain rfl := Option.some.inj (hcls.symm.trans hcls')
    exact hnamed
  | broken hphase hcls =>
    obtain ⟨cls, hsome, hstarts, _⟩ := startable_cases (hfrom hphase)
    rw [hcls cls hsome] at hstarts
    cases hstarts
  | enter hphase _ =>
    rw [setScheduler_self]
    have hready := hfrom hphase
    exact hready

/-- A scheduler that is over stays so. -/
theorem Move.exited {order : List Nat} (hmove : Move c s (.scheduler t order) s')
    (h : (s.schedulers t).phase = .exited) : s' = s := by
  have hno : ∀ {p}, (s.schedulers t).phase = p → p ≠ .exited → s' = s :=
    fun hphase hne => absurd (hphase.symm.trans h) hne
  cases hmove with
  | idle => rfl
  | phase hmove =>
    cases hmove with
    | cleanup hphase => exact hno hphase nofun
    | tested hphase => exact hno hphase nofun
    | isQueued hphase => exact hno hphase nofun
    | notQueued hphase => exact hno hphase nofun
    | isRunning hphase => exact hno hphase nofun
    | notRunning hphase => exact hno hphase nofun
    | removed hphase => exact hno hphase nofun
    | printed hphase => exact hno hphase nofun
    | unnamed hphase => exact hno hphase nofun
  | pop hphase => exact hno hphase nofun
  | take hphase => exact hno hphase nofun
  | issue hphase => exact hno hphase nofun
  | enqueue hphase => exact hno hphase nofun
  | draw hphase => exact hno hphase nofun
  | named hphase => exact hno hphase nofun
  | missing hphase => exact hno hphase nofun
  | start hphase => exact hno hphase nofun
  | broken hphase => exact hno hphase nofun
  | enter hphase => exact hno hphase nofun

theorem Move.working (hmove : Move c s act s') (hok : takesUnstartable c s act = false)
    (h : Working c s) : Working c s' := by
  intro u
  by_cases hact : ∃ order, act = .scheduler u order
  · obtain ⟨order, rfl⟩ := hact
    rcases h u with ⟨hpool, hover⟩ | hready
    · rw [hmove.exited hover]
      exact .inl ⟨hpool, hover⟩
    · exact .inr (hmove.ready hok hready)
  · obtain ⟨_, hphase, _⟩ := hmove.other fun order heq => hact ⟨order, heq⟩
    rw [hphase]
    exact h u

/-- A change that gives nobody a machine by its name. -/
theorem Unlisted.modify (h : Unlisted s) {f : Analysis → Analysis}
    (hanalyses : s'.analyses = s.analyses.modify e f)
    (hf : ∀ a name, (f a).machine = some (.listed name) → a.machine = some (.listed name)) :
    Unlisted s' := by
  intro e' a' ha' name hname
  rw [hanalyses] at ha'
  rcases getElem?_modify_cases ha' with ⟨rfl, a, ha, rfl⟩ | ⟨-, ha⟩
  · exact h e' a ha name (hf a name hname)
  · exact h e' a' ha name hname

theorem Unlisted.release (h : Unlisted s) (t : MachineType) (e : Nat) :
    Unlisted (s.release t e) := by
  rcases release_cases s t e with heq | ⟨_, _, heq⟩
  · rw [heq]; exact h
  · rw [heq]
    exact h.modify rfl fun a name hname => by rwa [kill_machine] at hname

theorem Unlisted.issued (h : Unlisted s) (t : MachineType) (sub : Submission) :
    Unlisted (s.issued t sub) := by
  intro e a ha name hname
  rcases issued_getElem ha with ha | ⟨_, rfl⟩
  · exact h e a ha name hname
  · cases hname

/-- What can be started does not name a machine of the configuration. -/
theorem Move.unlisted (hmove : Move c s act s') (hworking : Working c s) (h : Unlisted s) :
    Unlisted s' := by
  cases hmove with
  | idle => exact h
  | submit => exact h
  | phase => exact h
  | @pop t _ rem aid _ =>
    rcases pop_cases s t aid with ⟨_, heq⟩ | ⟨e, _, heq⟩
    · rw [heq]; exact h
    · rw [heq]
      exact Unlisted.release (s := s.dropped t aid) h t e
  | take => exact h
  | @issue t _ sub _ =>
    rcases issue_cases s t sub with ⟨_, heq⟩ | ⟨old, _, heq⟩
    · rw [heq]; exact h.issued t sub
    · rw [heq]; exact (h.issued t sub).release t old
  | enqueue => exact h.modify rfl fun a name hname => hname
  | draw => exact h.modify rfl fun a name hname => nomatch hname
  | @named t _ sub e m hphase _ hlisted =>
    refine h.modify rfl fun a name hname => ?_
    cases hname
    obtain ⟨hcommand, hhas⟩ := hlisted name rfl
    rcases hworking t with ⟨_, hover⟩ | hready
    · rw [hphase] at hover
      cases hover
    · rw [hphase] at hready
      rw [(not_missing hready hcommand).1] at hhas
      cases hhas
  | missing => exact h.modify rfl fun a name hname => hname
  | start => exact h.modify rfl fun a name hname => hname
  | broken => exact h.modify rfl fun a name hname => hname
  | enter => exact h
  | lock => exact h.modify rfl fun a name hname => hname
  | unqueue => exact h.modify rfl fun a name hname => hname
  | run => exact h.modify rfl fun a name hname => hname
  | release => exact h.modify rfl fun a name hname => hname
  | leave => exact h.modify rfl fun a name hname => hname
  | @finish e _ b _ _ _ =>
    have hsame : ((s.putBack b).setStage e .ended).analyses =
        s.analyses.modify e fun a => { a with stage := .ended } := by
      rcases putBack_cases s b with ⟨_, heq⟩ | ⟨name, _, heq⟩
      · rw [heq]; rfl
      · rw [heq]; rfl
    exact h.modify hsame fun a name hname => hname

/-- An analysis that has a machine and no process is in the hands of its scheduler. -/
def Assigned (s : State) : Prop :=
  ∀ (e : Nat) (a : Analysis), s.analyses[e]? = some a → a.stage = .assigned →
    ∃ sub, (s.schedulers a.scheduler).phase = .starting sub e

theorem stage_start {sub : Submission} (ha' : (s.start t sub e).analyses[e]? = some a') :
    a'.stage ≠ .assigned := by
  have hmodify : ∀ stage, stage ≠ Stage.assigned →
      (s.analyses.modify e fun a => { a with stage := stage })[e]? = some a' →
      a'.stage ≠ .assigned := by
    intro stage hne h
    rcases getElem?_modify_cases h with ⟨_, a, _, rfl⟩ | ⟨hfalse, _⟩
    · exact hne
    · exact absurd rfl hfalse
  unfold State.start at ha'
  split at ha'
  · exact hmodify .failed nofun ha'
  · split at ha'
    · exact hmodify .started nofun ha'
    · exact hmodify .failed nofun ha'

theorem phase_place {sub : Submission} (he : Engine s t e .queued)
    (ha' : (s.place c t sub e).analyses[e]? = some a') (hstage : a'.stage = .assigned) :
    ((s.place c t sub e).schedulers t).phase = .starting sub e := by
  have hgoto : ∀ {m}, (((s.goto t (.starting sub e)).giveMachine e m).schedulers t).phase =
      .starting sub e := by
    intro m
    show ((s.goto t _).schedulers t).phase = _
    rw [State.goto, setScheduler_self]
  unfold State.place at ha' ⊢
  split
  · rename_i hnone
    simp only [hnone] at ha'
    split
    · rename_i hqueue
      obtain ⟨b, hb, _, hbstage⟩ := he
      simp only [hqueue] at ha'
      obtain rfl := Option.some.inj (hb.symm.trans ha')
      rw [hbstage] at hstage
      cases hstage
    · show ((s.setScheduler t _).schedulers t).phase = _
      rw [setScheduler_self]
  · rename_i name hname
    simp only [hname] at ha'
    split
    · exact hgoto
    · rename_i hlist
      rw [if_neg hlist] at ha'
      split
      · exact hgoto
      · rename_i hvm
        rw [if_neg hvm] at ha'
        rcases getElem?_modify_cases ha' with ⟨_, a, _, rfl⟩ | ⟨hfalse, _⟩
        · cases hstage
        · exact absurd rfl hfalse

theorem Assigned.step (h : Assigned s) (hc : Coherent s) (c : Config) (act : Action) :
    Assigned (step c s act).1 := by
  intro e a' ha' hstage
  have hmove := step_moves (c := c) hc.listed act
  -- an analysis that was assigned stays so unless its scheduler takes a step
  have hkept : ∀ a, s.analyses[e]? = some a → a.scheduler = a'.scheduler → a.stage = .assigned →
      ∃ sub, ((Scheduler.step c s act).1.schedulers a'.scheduler).phase = .starting sub e := by
    intro a ha hsch hassigned
    obtain ⟨sub, hphase⟩ := h e a ha hassigned
    rw [hsch] at hphase
    by_cases hact : ∃ order, act = .scheduler a'.scheduler order
    · obtain ⟨order, rfl⟩ := hact
      have hs' : (Scheduler.step c s (.scheduler a'.scheduler order)).1 =
          s.start a'.scheduler sub e := by
        simp only [Scheduler.step, schedulerStep, hphase]
      rw [hs'] at ha'
      exact absurd hstage (stage_start ha')
    · obtain ⟨_, hsame, _⟩ := hmove.other fun order heq => hact ⟨order, heq⟩
      exact ⟨sub, hsame.trans hphase⟩
  rcases hmove.evolves ha' with ⟨a, ha, hev⟩ | ⟨_, _, _, _, _, _, rfl⟩
  · have hsch := hev.scheduler_eq
    cases hev with
    | same => exact hkept a' ha rfl hstage
    | popped => exact hkept a ha hsch.symm (by rw [← kill_stage]; exact hstage)
    | rebound => exact hkept a ha hsch.symm (by rw [← kill_stage]; exact hstage)
    | @given t order sub _ _ m hphase =>
      have hpending : (s.schedulers t).phase.pending = some (e, .queued) := by rw [hphase]; rfl
      have hat := (stage_of_pending hc.phased ha hpending).1
      have hs' : (Scheduler.step c s (.scheduler t order)).1 = s.place c t sub e := by
        simp only [Scheduler.step, schedulerStep, hphase]
      refine ⟨sub, ?_⟩
      rw [hs'] at ha' ⊢
      show ((s.place c t sub e).schedulers a.scheduler).phase = _
      rw [hat]
      exact phase_place (hc.phased t e .queued hpending) ha' rfl
    | moved _ _ hactive =>
      have hbegun : a.stage.next.begun = true := next_begun hactive
      rw [show a.stage.next = .assigned from hstage] at hbegun
      cases hbegun
    | _ => cases hstage
  · cases hstage

end Steps

/-! ## Good runs -/

structure Good (c : Config) (s : State) : Prop where
  coherent : Coherent s
  numbered : Numbered s
  safe : Safe s
  stocked : Stocked c s
  unlisted : Unlisted s
  working : Working c s
  assigned : Assigned s

section GoodRuns
variable {c : Config} {s : State} {act : Action}

theorem Good.step (h : Good c s) (htest : testsUnlisted s act = false)
    (htake : takesUnstartable c s act = false) : Good c (step c s act).1 := by
  have hmove := step_moves (c := c) h.coherent.listed act
  have hsafe := h.safe.step h.coherent h.numbered c htest
  exact
    { coherent := h.coherent.step c act
      numbered := hmove.numbered h.numbered
      safe := hsafe
      stocked := hmove.stocked h.coherent hsafe h.working h.stocked
      unlisted := hmove.unlisted h.working h.unlisted
      working := hmove.working htake h.working
      assigned := h.assigned.step h.coherent c act }

theorem good_init (c : Config) : Good c (State.init c) where
  coherent := coherent_init c
  numbered := numbered_init c
  safe := safe_init c
  stocked t := .full
  unlisted := nofun
  working t := by
    by_cases hpool : c.pool t = []
    · exact .inl ⟨hpool, if_pos hpool⟩
    · refine .inr ?_
      simp only [State.init, if_neg hpool]
      trivial
  assigned := nofun

theorem good_stateAt {acts : List Action}
    (hok : ∀ k act, acts[k]? = some act →
      testsUnlisted (stateAt (Scheduler.step c) (State.init c) acts k) act = false ∧
      takesUnstartable c (stateAt (Scheduler.step c) (State.init c) acts k) act = false)
    {k : Nat} (hk : k ≤ acts.length) :
    Good c (stateAt (Scheduler.step c) (State.init c) acts k) := by
  refine stateAt_invariant (Good c) (good_init c) ?_ k hk
  intro k act hact hs
  rw [stateAt_succ hact]
  exact hs.step (hok k act hact).1 (hok k act hact).2

end GoodRuns

end LoPhi.Automation.Scheduler
