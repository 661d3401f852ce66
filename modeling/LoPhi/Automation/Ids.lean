import LoPhi.Automation.Steps

/-! # Ids

Each scheduler counts its own analyses from zero, in a class attribute of its
own process. So the id of an analysis is its number among the analyses of its
scheduler: within one scheduler ids are different, and across schedulers the
n-th analyses all have the same one. -/

namespace LoPhi.Automation.Scheduler
open LoPhi.Lib LoPhi.Lib.Ledger LoPhi.Lib.Machine

/-! ## Numbers -/

/-- How many analyses the scheduler had made before engine `e`. -/
def ordinal (s : State) (t : MachineType) (e : Nat) : Nat :=
  (s.analyses.take e).countP fun a => a.scheduler = t

/-- Scheduler and id of each analysis. -/
def State.keys (s : State) : List (MachineType × Nat) :=
  s.analyses.map fun a => (a.scheduler, a.id)

/-- The counters say how many analyses there are, and an id how many there were. -/
structure Numbered (s : State) : Prop where
  next : ∀ t, (s.schedulers t).analysisId = s.keys.countP fun k => k.1 = t
  id : ∀ e t n, s.keys[e]? = some (t, n) → n = (s.keys.take e).countP fun k => k.1 = t

section Numbers
variable {c : Config} {s s' : State} {act : Action} {t : MachineType} {e e' : Nat} {a a' : Analysis}

theorem ordinal_eq : ordinal s t e = (s.keys.take e).countP fun k => k.1 = t := by
  rw [State.keys, ← List.map_take, List.countP_map]
  rfl

theorem keys_getElem (ha : s.analyses[e]? = some a) : s.keys[e]? = some (a.scheduler, a.id) := by
  rw [State.keys, List.getElem?_map, ha]
  rfl

theorem Numbered.id_eq (h : Numbered s) (ha : s.analyses[e]? = some a) :
    a.id = ordinal s a.scheduler e := by
  rw [ordinal_eq]
  exact h.id e a.scheduler a.id (keys_getElem ha)

/-- A later analysis of the same scheduler has a greater number. -/
theorem ordinal_lt (ha : s.analyses[e]? = some a) (hlt : e < e') :
    ordinal s a.scheduler e < ordinal s a.scheduler e' := by
  have hupto : ordinal s a.scheduler (e + 1) = ordinal s a.scheduler e + 1 := by
    rw [ordinal, List.take_add_one, ha, List.countP_append, ordinal]
    simp
  have hsub : (s.analyses.take (e + 1)).Sublist (s.analyses.take e') :=
    (List.take_prefix_take_left (by omega)).sublist
  have hle : ordinal s a.scheduler (e + 1) ≤ ordinal s a.scheduler e' := hsub.countP_le
  omega

/-- Within one scheduler an id belongs to one analysis. -/
theorem Numbered.unique (h : Numbered s) (ha : s.analyses[e]? = some a)
    (ha' : s.analyses[e']? = some a') (hsch : a.scheduler = a'.scheduler) (hid : a.id = a'.id) :
    e = e' := by
  rw [h.id_eq ha, h.id_eq ha'] at hid
  rcases Nat.lt_trichotomy e e' with hlt | heq | hlt
  · have hord := ordinal_lt ha hlt
    rw [hsch] at hord hid
    omega
  · exact heq
  · have hord := ordinal_lt ha' hlt
    rw [hsch] at hid
    omega

/-- Nothing is issued. -/
theorem Numbered.keep (h : Numbered s) (hkeys : s'.keys = s.keys)
    (hids : ∀ u, (s'.schedulers u).analysisId = (s.schedulers u).analysisId) : Numbered s' := by
  refine ⟨fun u => ?_, ?_⟩
  · rw [hids, hkeys]
    exact h.next u
  · rw [hkeys]
    exact h.id

theorem Numbered.issued (h : Numbered s) (sub : Submission) : Numbered (s.issued t sub) := by
  have hkeys : (s.issued t sub).keys = s.keys ++ [(t, (s.schedulers t).analysisId)] := by
    rw [State.keys, State.keys, State.issued, setScheduler_analyses, List.map_append]
    rfl
  refine ⟨fun u => ?_, fun e u n hk => ?_⟩
  · rw [hkeys, List.countP_append, List.countP_singleton]
    by_cases hu : u = t
    · subst hu
      simp [State.issued, h.next u]
    · simp [State.issued, setScheduler_schedulers, hu, Ne.symm hu, h.next u]
  · rw [hkeys] at hk ⊢
    rw [List.getElem?_append] at hk
    split at hk
    · rename_i hlt
      rw [List.take_append_of_le_length (by omega)]
      exact h.id e u n hk
    · obtain ⟨hzero, hval⟩ := List.getElem?_eq_some_iff.mp hk
      rw [List.length_singleton] at hzero
      rw [List.getElem_singleton] at hval
      cases hval
      have he : e = s.keys.length := by omega
      rw [he, List.take_append_of_le_length (Nat.le_refl _), List.take_length]
      exact h.next t

theorem Numbered.release (h : Numbered s) : Numbered (s.release t e) := by
  rcases release_cases s t e with heq | ⟨_, _, heq⟩
  · rw [heq]; exact h
  · rw [heq]
    refine h.keep (map_modify (fun a => ?_) s.analyses e) fun u => rfl
    rw [kill_scheduler, kill_id]

/-- The counters are those before, for every update of a scheduler that leaves its own. -/
theorem setScheduler_analysisId {sch : LophiScheduler}
    (hsch : sch.analysisId = (s.schedulers t).analysisId) (u : MachineType) :
    ((s.setScheduler t sch).schedulers u).analysisId = (s.schedulers u).analysisId := by
  rw [setScheduler_schedulers]
  split
  · rename_i hu
    rw [hsch, hu]
  · rfl

/-- An analysis is changed, and a scheduler perhaps. -/
theorem Numbered.modify (h : Numbered s) {s₁ : State} {f : Analysis → Analysis}
    (hs₁ : s₁.analyses = s.analyses.modify e f)
    (hf : ∀ a, (f a).scheduler = a.scheduler ∧ (f a).id = a.id)
    (hids : ∀ u, (s₁.schedulers u).analysisId = (s.schedulers u).analysisId) : Numbered s₁ := by
  refine h.keep ?_ hids
  rw [State.keys, hs₁, map_modify]
  · rfl
  · intro a
    rw [(hf a).1, (hf a).2]

theorem Move.numbered (hmove : Move c s act s') (h : Numbered s) : Numbered s' := by
  have hsame : ∀ a : Analysis, a.scheduler = a.scheduler ∧ a.id = a.id := fun _ => ⟨rfl, rfl⟩
  cases hmove with
  | idle => exact h
  | submit => exact h.keep rfl (setScheduler_analysisId rfl)
  | phase => exact h.keep rfl (setScheduler_analysisId rfl)
  | @pop t _ rem aid _ =>
    have hdropped : Numbered (s.dropped t aid) := h.keep rfl (setScheduler_analysisId rfl)
    have hpop : Numbered (s.pop t aid) := by
      rcases pop_cases s t aid with ⟨_, heq⟩ | ⟨e, _, heq⟩
      · rw [heq]; exact hdropped
      · rw [heq]; exact hdropped.release
    exact hpop.keep rfl (setScheduler_analysisId rfl)
  | take => exact h.keep rfl (setScheduler_analysisId rfl)
  | @issue t _ sub _ =>
    rcases issue_cases s t sub with ⟨_, heq⟩ | ⟨old, _, heq⟩
    · rw [heq]; exact h.issued sub
    · rw [heq]; exact (h.issued sub).release
  | enqueue => exact h.modify rfl hsame (setScheduler_analysisId rfl)
  | draw => exact h.modify rfl hsame (setScheduler_analysisId rfl)
  | named => exact h.modify rfl hsame (setScheduler_analysisId rfl)
  | missing => exact h.modify rfl hsame (setScheduler_analysisId rfl)
  | start => exact h.modify rfl hsame (setScheduler_analysisId rfl)
  | broken => exact h.modify rfl hsame (setScheduler_analysisId rfl)
  | enter => exact h.keep rfl (setScheduler_analysisId rfl)
  | lock => exact h.modify rfl hsame fun u => rfl
  | unqueue => exact h.modify rfl hsame fun u => rfl
  | run => exact h.modify rfl hsame fun u => rfl
  | release => exact h.modify rfl hsame fun u => rfl
  | leave => exact h.modify rfl hsame fun u => rfl
  | @finish e _ a _ _ _ =>
    rcases putBack_cases s a with ⟨_, heq⟩ | ⟨name, _, heq⟩
    · rw [heq]; exact h.modify rfl hsame fun u => rfl
    · rw [heq]; exact h.modify rfl hsame (setScheduler_analysisId rfl)

theorem numbered_init (c : Config) : Numbered (State.init c) :=
  ⟨fun _ => rfl, fun e t n hk => by cases hk⟩

theorem numbered_stateAt (c : Config) (acts : List Action) {k : Nat} (hk : k ≤ acts.length) :
    Numbered (stateAt (step c) (State.init c) acts k) := by
  refine stateAt_invariant Numbered (numbered_init c) ?_ k hk
  intro k act hact hs
  have hlt := (List.getElem?_eq_some_iff.mp hact).1
  rw [stateAt_succ hact]
  exact (step_moves (coherent_stateAt c acts (by omega)).listed act).numbered hs

end Numbers

/-! ## Analyses that are alive -/

/-- From the append to the queued list to the remove from the running list. -/
def Stage.live : Stage → Bool
  | .queued | .assigned | .started | .locked | .moving | .running | .released => true
  | _ => false

def Analysis.alive (a : Analysis) : Bool := !a.killed && a.stage.live

/-- No two analyses that are alive have the same id. -/
def UniqueIds (s : State) : Prop :=
  ∀ (e e' : Nat) (a a' : Analysis), s.analyses[e]? = some a → s.analyses[e']? = some a' →
    a.alive = true → a'.alive = true → a.id = a'.id → e = e'

/-- The step does not queue an analysis while another scheduler's analysis of the same
number is alive. -/
def Apart (s : State) (act : Action) : Prop :=
  ∀ (t : MachineType) (order : List Nat) (sub : Submission) (e : Nat),
    act = .scheduler t order → (s.schedulers t).phase = .issued sub e →
    ∀ (e' : Nat) (a' : Analysis), s.analyses[e']? = some a' → a'.alive = true →
      a'.scheduler ≠ t → ordinal s a'.scheduler e' ≠ ordinal s t e

section Alive
variable {c : Config} {s s' : State} {act : Action} {e : Nat} {a a' : Analysis}

theorem alive_of_kill (h : a.kill.alive = true) : a.alive = true := by
  unfold Analysis.kill at h
  split at h
  · cases h
  · exact h

theorem live_of_next {stage : Stage} (h : stage.next.live = true) : stage.live = true := by
  cases stage <;> first | rfl | cases h

/-- An analysis comes alive when its id is queued. -/
theorem Evolves.alive (h : Evolves s act e a a') (hp : Phased s) (ha : s.analyses[e]? = some a)
    (halive : a'.alive = true) :
    a.alive = true ∨ ∃ t order sub, act = .scheduler t order ∧
      (s.schedulers t).phase = .issued sub e := by
  have hpending : ∀ {t stage}, (s.schedulers t).phase.pending = some (e, stage) →
      a.stage = stage := fun hphase => (stage_of_pending hp ha hphase).2
  cases h with
  | same => exact .inl halive
  | popped => exact .inl (alive_of_kill halive)
  | rebound => exact .inl (alive_of_kill halive)
  | @enqueued t order sub _ _ hphase => exact .inr ⟨t, order, sub, rfl, hphase⟩
  | given _ _ hphase =>
    have hstage : a.stage = .queued := hpending (by rw [hphase]; rfl)
    simp only [Analysis.alive, hstage, Bool.and_eq_true] at halive ⊢
    exact .inl ⟨halive.1, rfl⟩
  | failed => simp [Analysis.alive, Stage.live] at halive
  | started _ hphase =>
    have hstage : a.stage = .assigned := hpending (by rw [hphase]; rfl)
    simp only [Analysis.alive, hstage, Bool.and_eq_true] at halive ⊢
    exact .inl ⟨halive.1, rfl⟩
  | moved =>
    simp only [Analysis.alive, Bool.and_eq_true] at halive ⊢
    exact .inl ⟨halive.1, live_of_next halive.2⟩

theorem alive_of_move (hmove : Move c s act s') (hp : Phased s) (ha' : s'.analyses[e]? = some a')
    (halive : a'.alive = true) :
    ∃ a, s.analyses[e]? = some a ∧ a.id = a'.id ∧ (a.alive = true ∨
      ∃ t order sub, act = .scheduler t order ∧ (s.schedulers t).phase = .issued sub e ∧
        a.scheduler = t) := by
  rcases hmove.evolves ha' with ⟨a, ha, hev⟩ | ⟨t, _, _, _, _, _, rfl⟩
  · refine ⟨a, ha, hev.id_eq.symm, ?_⟩
    rcases hev.alive hp ha halive with hwas | ⟨t, order, sub, hact, hphase⟩
    · exact .inl hwas
    · have hpending : (s.schedulers t).phase.pending = some (e, .issued) := by rw [hphase]; rfl
      exact .inr ⟨t, order, sub, hact, hphase, (stage_of_pending hp ha hpending).1⟩
  · cases halive

/-- The id that is queued is that of no analysis that is alive. -/
theorem Apart.eq (h : Apart s act) (hn : Numbered s) {t : MachineType} {order : List Nat}
    {sub : Submission} {e' : Nat} (hact : act = .scheduler t order)
    (hphase : (s.schedulers t).phase = .issued sub e) (ha : s.analyses[e]? = some a)
    (hsch : a.scheduler = t) (ha' : s.analyses[e']? = some a') (halive : a'.alive = true)
    (hid : a.id = a'.id) : e = e' := by
  by_cases hsame : a'.scheduler = t
  · exact hn.unique ha ha' (hsch.trans hsame.symm) hid
  · refine absurd ?_ (h t order sub e hact hphase e' a' ha' halive hsame)
    rw [← hn.id_eq ha', ← hid, hn.id_eq ha, hsch]

theorem uniqueIds_step_iff (hc : Coherent s) (hn : Numbered s) (hu : UniqueIds s) :
    UniqueIds (step c s act).1 ↔ Apart s act := by
  have hmove := step_moves (c := c) hc.listed act
  constructor
  · rintro h t order sub e rfl hphase e' a' ha' halive hne hord
    obtain ⟨a, ha, hat, hstage⟩ := hc.phased t e .issued (by rw [hphase]; rfl)
    have hid : a.id = a'.id := by rw [hn.id_eq ha, hn.id_eq ha', hat, hord]
    have hee : e ≠ e' := by
      rintro rfl
      obtain rfl := Option.some.inj (ha.symm.trans ha')
      exact hne hat
    have hkilled : a.killed = false := by
      cases hk : a.killed with
      | false => rfl
      | true =>
        have hbegun := hc.killed e a ha hk
        rw [hstage] at hbegun
        cases hbegun
    have hs' : (step c s (.scheduler t order)).1.analyses =
        s.analyses.modify e fun a => { a with stage := .queued } := by
      simp only [step, schedulerStep, hphase, State.enqueue, ha]
      rfl
    refine hee (h e e' { a with stage := .queued } a' ?_ ?_ ?_ halive hid)
    · rw [hs', List.getElem?_modify_eq, ha]
      rfl
    · rw [hs', List.getElem?_modify_ne _ _ hee]
      exact ha'
    · simp [Analysis.alive, hkilled, Stage.live]
  · intro h e e' b b' hb hb' halive halive' hid
    obtain ⟨a, ha, haid, hwas⟩ := alive_of_move hmove hc.phased hb halive
    obtain ⟨a', ha', haid', hwas'⟩ := alive_of_move hmove hc.phased hb' halive'
    have hids : a.id = a'.id := haid.trans (hid.trans haid'.symm)
    rcases hwas with hwas | ⟨t, order, sub, hact, hphase, hsch⟩
    · rcases hwas' with hwas' | ⟨t, order, sub, hact, hphase, hsch⟩
      · exact hu e e' a a' ha ha' hwas hwas' hids
      · exact (h.eq hn hact hphase ha' hsch ha hwas hids.symm).symm
    · rcases hwas' with hwas' | ⟨t', order', sub', hact', hphase', _⟩
      · exact h.eq hn hact hphase ha hsch ha' hwas' hids
      · obtain ⟨rfl, rfl⟩ := Action.scheduler.inj (hact.symm.trans hact')
        exact (Phase.issued.inj (hphase.symm.trans hphase')).2

/-- **For every configuration, every assignment of submissions to schedulers and every
interleaving: no two analyses that are alive ever have the same id if and only if no
scheduler queues its n-th analysis while the n-th analysis of another scheduler is
alive.** -/
theorem unique_ids_iff (c : Config) (acts : List Action) :
    (∀ k, k ≤ acts.length → UniqueIds (stateAt (step c) (State.init c) acts k)) ↔
      ∀ k act, acts[k]? = some act → Apart (stateAt (step c) (State.init c) acts k) act := by
  have hinit : UniqueIds (State.init c) := fun e e' a a' ha => by cases ha
  constructor
  · intro h k act hact
    have hk := (List.getElem?_eq_some_iff.mp hact).1
    have hnext := h (k + 1) (by omega)
    rw [stateAt_succ hact] at hnext
    exact (uniqueIds_step_iff (coherent_stateAt c acts (by omega))
      (numbered_stateAt c acts (by omega)) (h k (by omega))).mp hnext
  · intro h
    apply stateAt_invariant UniqueIds hinit
    intro k act hact hu
    have hk := (List.getElem?_eq_some_iff.mp hact).1
    rw [stateAt_succ hact]
    exact (uniqueIds_step_iff (coherent_stateAt c acts (by omega))
      (numbered_stateAt c acts (by omega)) hu).mpr (h k act hact)

end Alive

/-- A script that loads and starts, on any machine. -/
def goodSubmission : Submission where
  analysisClass := some ⟨true, true⟩
  command := ⟨none, 0⟩

/-- A machine of each of two types. -/
def twoTypes : Config where
  machineList := [("minnow", 0), ("lophi-0", 2)]
  nodup := by decide

/-- Each scheduler gets one submission and queues its analysis. -/
def bothQueue : List Action :=
  .submit 0 goodSubmission :: .submit 2 goodSubmission ::
    (List.replicate 6 (.scheduler 0 []) ++ List.replicate 6 (.scheduler 2 []))

/-- Both analyses have the id 0. -/
theorem first_analyses_share_id :
    ¬ ∀ k, k ≤ bothQueue.length →
      UniqueIds (stateAt (step twoTypes) (State.init twoTypes) bothQueue k) := by
  intro h
  have heq : 0 = 1 := h 14 (by decide) 0 1 { scheduler := 0, id := 0, stage := .queued }
    { scheduler := 2, id := 0, stage := .queued } (by decide) (by decide) rfl rfl rfl
  cases heq

end LoPhi.Automation.Scheduler
