import Mathlib.Data.List.Basic
import Mathlib.Data.List.Nodup
import LoPhi.Lib.Dict
import LoPhi.Lib.Ledger
import LoPhi.Lib.Machine

/-! # Schedulers and analyses

The controller starts one `LophiScheduler` process for each type of machine it
has. A scheduler takes submissions off its `analysis_queue`, gives each a machine
and starts it as a process of its own, a `LophiAnalysis`. All of them share the
two lists `ANALYSIS_QUEUED` and `ANALYSIS_RUNNING`, held by a manager process; the
machine queue is a manager's too. Each operation on one of these is atomic,
and nothing else is: a step below is what one process does up to its next
operation on something shared.

A scheduler keeps its engines alive through `ANALYSIS_DICT`. An engine that nobody
refers to any more is destroyed, and its destructor terminates the analysis.
Engines are numbered in the order they are made; the number stands for the
object, the field `id` is what `AnalysisEngine.__init__` gave it.

Commands to a running analysis, the datastore and log lines are left out: no
modelled function reads them. -/

namespace LoPhi.Automation.Scheduler
open LoPhi.Lib LoPhi.Lib.Ledger LoPhi.Lib.Machine

/-! ## Submissions -/

/-- `G.MACHINE_TYPES`, as the integers the controller uses for keys. -/
abbrev MachineType := Nat

def PHYSICAL : MachineType := 0

/-- What the scheduler does with the class in a script. -/
structure AnalysisClass where
  /-- Making an object of the class and starting its process raises nothing. -/
  starts : Bool
  /-- The class has an attribute `NAME`. -/
  named : Bool
  deriving DecidableEq, Repr

/-- The fields of a `LophiCommand` that the scheduler reads. -/
structure LophiCommand where
  machine : Option String
  machineType : MachineType
  deriving DecidableEq, Repr

/-- A pair on the analysis queue. -/
structure Submission where
  /-- What `load_analysis` makes of the file, `None` if that fails. -/
  analysisClass : Option AnalysisClass
  command : LophiCommand
  /-- A virtual machine of the requested name has a power status other than `UNKNOWN`. -/
  vmExists : Bool := false
  deriving DecidableEq, Repr

/-- The machines of the configuration, with their types. -/
structure Config where
  machineList : List (String × MachineType)
  nodup : (machineList.map Prod.fst).Nodup

/-- What the controller puts on the machine queue of a type. -/
def Config.pool (c : Config) (t : MachineType) : List String :=
  (c.machineList.filter fun p => p.2 = t).map Prod.fst

/-- `machine_name in self.machine_list.keys()`. -/
def Config.has (c : Config) (name : String) : Bool := (c.machineList.map Prod.fst).contains name

/-! ## Analyses -/

/-- The machine of an analysis: drawn from the machine queue, or asked for by name, and
then one of the configuration or a virtual machine object made for it. -/
inductive Machine where
  | drawn (name : String)
  | listed (name : String)
  | virtual (name : String)
  deriving DecidableEq, Repr

/-- Whose `MUTEX` the analysis takes. That of a new object nobody else has. -/
def Machine.mutex : Machine → Option String
  | .drawn name | .listed name => some name
  | .virtual _ => none

def Machine.drawn? : Machine → Option String
  | .drawn name => some name
  | _ => none

/-- How far an analysis has come. -/
inductive Stage where
  /-- The engine is made. -/
  | issued
  /-- Its id is on the queued list. -/
  | queued
  /-- It has a machine. -/
  | assigned
  /-- There is no machine, or `start` raised. -/
  | failed
  /-- The process runs, and waits for the mutex of the machine. -/
  | started
  /-- It has the mutex. -/
  | locked
  /-- It has removed its id from the queued list, -/
  | moving
  /-- and has put it on the running list. -/
  | running
  /-- The user's code is over and the mutex is free. -/
  | released
  /-- The id is off the running list. -/
  | left
  /-- The machine is back on its queue. -/
  | ended
  /-- The process ended with an exception. -/
  | died
  deriving DecidableEq, Repr

structure Analysis where
  /-- The type of machine its scheduler is for. -/
  scheduler : MachineType
  id : Nat
  stage : Stage := .issued
  machine : Option Machine := none
  killed : Bool := false
  deriving DecidableEq, Repr

/-- The process has been started. -/
def Stage.begun : Stage → Bool
  | .issued | .queued | .assigned | .failed => false
  | _ => true

/-- There is a process that can be terminated. -/
def Stage.active : Stage → Bool
  | .started | .locked | .moving | .running | .released | .left => true
  | _ => false

/-- `AnalysisEngine.__del__`. -/
def Analysis.kill (a : Analysis) : Analysis :=
  if a.stage.active then { a with killed := true } else a

def Analysis.mutex (a : Analysis) : Option String := a.machine.bind Machine.mutex

/-- The machine it has from the queue. -/
def Analysis.drawn (a : Analysis) : Option String := a.machine.bind Machine.drawn?

/-! ## The system -/

/-- Where a scheduler is in its loop. -/
inductive Phase where
  | cleanup
  /-- In `_cleanup_pointers`, before the test of the first id against the queued list. -/
  | testing (todo rem : List Nat)
  /-- The id is not on the queued list; before the test against the running list. -/
  | notQueued (aid : Nat) (todo rem : List Nat)
  | removing (rem : List Nat)
  /-- Before `analysis_queue.get()`. -/
  | getting
  | loaded (sub : Submission)
  | issued (sub : Submission) (e : Nat)
  | placed (sub : Submission) (e : Nat)
  | starting (sub : Submission) (e : Nat)
  /-- The analysis is started; before the update of `ANALYSIS_DICT`. -/
  | entering (cls : AnalysisClass) (e : Nat)
  | printing (cls : AnalysisClass)
  /-- There is no process: `run` has returned or raised, or there was none. -/
  | exited
  deriving DecidableEq, Repr

structure LophiScheduler where
  analysisQueue : List Submission
  machineQueue : List String
  /-- `ANALYSIS_DICT`, from ids to engines. -/
  analysisDict : Dict Nat Nat
  /-- `AnalysisEngine.analysis_id`, in the process of the scheduler. -/
  analysisId : Nat
  /-- The engine that the variable `analysis` of `run` refers to. -/
  analysis : Option Nat
  phase : Phase

structure State where
  /-- `ANALYSIS_QUEUED`. -/
  queued : List Nat
  /-- `ANALYSIS_RUNNING`. -/
  running : List Nat
  /-- The machines whose `MUTEX` is taken. -/
  mutexes : List String
  schedulers : MachineType → LophiScheduler
  analyses : List Analysis

/-- When the controller has started the schedulers and filled the machine queues. -/
def State.init (c : Config) : State where
  queued := []
  running := []
  mutexes := []
  schedulers t :=
    { analysisQueue := []
      machineQueue := c.pool t
      analysisDict := .empty
      analysisId := 0
      analysis := none
      phase := if c.pool t = [] then .exited else .cleanup }
  analyses := []

def State.setScheduler (s : State) (t : MachineType) (sch : LophiScheduler) : State :=
  { s with schedulers := fun u => if u = t then sch else s.schedulers u }

def State.goto (s : State) (t : MachineType) (p : Phase) : State :=
  s.setScheduler t { s.schedulers t with phase := p }

def State.modify (s : State) (e : Nat) (f : Analysis → Analysis) : State :=
  { s with analyses := s.analyses.modify e f }

def State.setStage (s : State) (e : Nat) (stage : Stage) : State :=
  s.modify e fun a => { a with stage := stage }

def State.giveMachine (s : State) (e : Nat) (m : Machine) : State :=
  s.modify e fun a => { a with stage := .assigned, machine := some m }

/-- The mutex of the analysis is free again. -/
def State.unlock (s : State) (a : Analysis) : State :=
  { s with
    mutexes := match a.mutex with
      | some m => s.mutexes.erase m
      | none => s.mutexes }

/-! ## The loop of a scheduler -/

/-- An engine loses a reference. What is left are the variable `analysis` and the entry in
the dictionary. -/
def State.release (s : State) (t : MachineType) (e : Nat) : State :=
  if (s.schedulers t).analysis = some e ∨ (s.schedulers t).analysisDict.values.contains e then s
  else s.modify e Analysis.kill

/-- An entry of the dictionary is gone. -/
def State.dropped (s : State) (t : MachineType) (aid : Nat) : State :=
  s.setScheduler t { s.schedulers t with
    analysisDict := (s.schedulers t).analysisDict.erase aid }

/-- `analysis = self.ANALYSIS_DICT.pop(aid)`, `del analysis`. -/
def State.pop (s : State) (t : MachineType) (aid : Nat) : State :=
  match (s.schedulers t).analysisDict.get? aid with
  | none => s.dropped t aid
  | some e => (s.dropped t aid).release t e

/-- There is a new engine, and the variable `analysis` refers to it. -/
def State.issued (s : State) (t : MachineType) (sub : Submission) : State :=
  let sch := s.schedulers t
  let s₁ : State := { s with analyses := s.analyses ++ [{ scheduler := t, id := sch.analysisId }] }
  s₁.setScheduler t { sch with
    analysisId := sch.analysisId + 1
    analysis := some s.analyses.length
    phase := .issued sub s.analyses.length }

/-- `analysis = LoPhiAnalysisEngine(..)`. The variable lets go of the old engine. -/
def State.issue (s : State) (t : MachineType) (sub : Submission) : State :=
  match (s.schedulers t).analysis with
  | none => s.issued t sub
  | some old => (s.issued t sub).release t old

/-- The choice of a machine. Without a name the scheduler waits for one on the machine
queue; a name that is nowhere ends it. -/
def State.place (c : Config) (s : State) (t : MachineType) (sub : Submission) (e : Nat) : State :=
  match sub.command.machine with
  | none =>
    match (s.schedulers t).machineQueue with
    | [] => s
    | name :: rest =>
      (s.setScheduler t { s.schedulers t with machineQueue := rest, phase := .starting sub e })
        |>.giveMachine e (.drawn name)
  | some name =>
    if c.has name then (s.goto t (.starting sub e)).giveMachine e (.listed name)
    else if sub.command.machineType ≠ PHYSICAL ∧ sub.vmExists then
      (s.goto t (.starting sub e)).giveMachine e (.virtual name)
    else (s.goto t .exited).setStage e .failed

/-- `analysis.start(AnalysisClass, ..)`. -/
def State.start (s : State) (t : MachineType) (sub : Submission) (e : Nat) : State :=
  match sub.analysisClass with
  | none => (s.goto t .exited).setStage e .failed
  | some cls =>
    if cls.starts then (s.goto t (.entering cls e)).setStage e .started
    else (s.goto t .exited).setStage e .failed

/-- `self.ANALYSIS_DICT.update({analysis.id: analysis})`. -/
def State.enter (s : State) (t : MachineType) (cls : AnalysisClass) (e : Nat) : State :=
  match s.analyses[e]? with
  | none => s
  | some a =>
    let sch := s.schedulers t
    s.setScheduler t { sch with
      analysisDict := sch.analysisDict.insert a.id e
      phase := .printing cls }

/-- `ANALYSIS_QUEUED.append(analysis.id)`. -/
def State.enqueue (s : State) (t : MachineType) (sub : Submission) (e : Nat) : State :=
  match s.analyses[e]? with
  | none => s
  | some a => { (s.goto t (.placed sub e)).setStage e .queued with queued := s.queued ++ [a.id] }

/-- The next step of a scheduler. The ids of the dictionary come in any order. -/
def schedulerStep (c : Config) (s : State) (t : MachineType) (order : List Nat) : State :=
  match (s.schedulers t).phase with
  | .cleanup =>
    if order.isPerm ((s.schedulers t).analysisDict.items.map Prod.fst) then
      s.goto t (.testing order [])
    else s
  | .testing [] rem => s.goto t (.removing rem)
  | .testing (aid :: todo) rem =>
    if s.queued.contains aid then s.goto t (.testing todo rem)
    else s.goto t (.notQueued aid todo rem)
  | .notQueued aid todo rem =>
    if s.running.contains aid then s.goto t (.testing todo rem)
    else s.goto t (.testing todo (rem ++ [aid]))
  | .removing [] => s.goto t .getting
  | .removing (aid :: rem) => (s.pop t aid).goto t (.removing rem)
  | .getting =>
    match (s.schedulers t).analysisQueue with
    | [] => s
    | sub :: rest =>
      s.setScheduler t { s.schedulers t with analysisQueue := rest, phase := .loaded sub }
  | .loaded sub => s.issue t sub
  | .issued sub e => s.enqueue t sub e
  | .placed sub e => s.place c t sub e
  | .starting sub e => s.start t sub e
  | .entering cls e => s.enter t cls e
  | .printing cls => if cls.named then s.goto t .cleanup else s.goto t .exited
  | .exited => s

/-! ## The process of an analysis -/

/-- How the user's code ends. -/
inductive Outcome where
  | returned
  | raised
  deriving DecidableEq, Repr

/-- `self.machine_queue.put(self.machine_name)`, if it came from there. -/
def State.putBack (s : State) (a : Analysis) : State :=
  match a.drawn with
  | some name =>
    let sch := s.schedulers a.scheduler
    s.setScheduler a.scheduler { sch with machineQueue := sch.machineQueue ++ [name] }
  | none => s

/-- The next step of `LophiAnalysis.run`. Removing an id that is not there raises. An
exception in the user's code is caught. -/
def analysisStep (s : State) (e : Nat) (outcome : Outcome) : State :=
  match s.analyses[e]? with
  | none => s
  | some a =>
    if a.killed then s
    else
      match a.stage with
      | .started =>
        match a.mutex with
        | none => s.setStage e .locked
        | some m =>
          if s.mutexes.contains m then s
          else { s.setStage e .locked with mutexes := s.mutexes ++ [m] }
      | .locked =>
        if s.queued.contains a.id then
          { s.setStage e .moving with queued := s.queued.erase a.id }
        else (s.unlock a).setStage e .died
      | .moving => { s.setStage e .running with running := s.running ++ [a.id] }
      | .running =>
        match outcome with
        | .returned | .raised => (s.unlock a).setStage e .released
      | .released =>
        if s.running.contains a.id then
          { s.setStage e .left with running := s.running.erase a.id }
        else s.setStage e .died
      | .left => (s.putBack a).setStage e .ended
      | _ => s

/-! ## Runs -/

/-- A command reaches the controller, or a process takes its next step. -/
inductive Action where
  | submit (t : MachineType) (sub : Submission)
  | scheduler (t : MachineType) (order : List Nat)
  | analysis (e : Nat) (outcome : Outcome)
  deriving DecidableEq, Repr

/-- `self.ANALYSIS_SCHEDULER[machine_type].queue_analysis(..)`, if there is such a type. -/
def State.queueAnalysis (c : Config) (s : State) (t : MachineType) (sub : Submission) : State :=
  if c.pool t = [] then s
  else
    let sch := s.schedulers t
    s.setScheduler t { sch with analysisQueue := sch.analysisQueue ++ [sub] }

def step (c : Config) (s : State) : Action → State × Unit
  | .submit t sub => (s.queueAnalysis c t sub, ())
  | .scheduler t order => (schedulerStep c s t order, ())
  | .analysis e outcome => (analysisStep s e outcome, ())

/-! ## Fields after an update -/

section Fields
variable {s : State} {t u : MachineType} {sch : LophiScheduler} {p : Phase} {e : Nat}
  {f : Analysis → Analysis}

@[simp] theorem setScheduler_analyses : (s.setScheduler t sch).analyses = s.analyses := rfl

theorem setScheduler_schedulers :
    (s.setScheduler t sch).schedulers u = if u = t then sch else s.schedulers u := rfl

@[simp] theorem setScheduler_self : (s.setScheduler t sch).schedulers t = sch := if_pos rfl

@[simp] theorem goto_analyses : (s.goto t p).analyses = s.analyses := rfl

@[simp] theorem modify_schedulers : (s.modify e f).schedulers = s.schedulers := rfl
@[simp] theorem modify_analyses : (s.modify e f).analyses = s.analyses.modify e f := rfl

end Fields

end LoPhi.Automation.Scheduler
