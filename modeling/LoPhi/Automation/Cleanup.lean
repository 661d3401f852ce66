import LoPhi.Automation.Ids

/-! # Cleaning up

`_cleanup_pointers` drops an analysis from `ANALYSIS_DICT` when its id is on neither
of the shared lists. It looks at them one after the other, and a process moves its
id from the first to the second in two steps, so between those steps a live analysis
looks finished. A process is also off both lists before it puts its machine back. -/

namespace LoPhi.Automation.Scheduler
open LoPhi.Lib LoPhi.Lib.Ledger LoPhi.Lib.Machine

/-- The process has left the running list, and has put its machine back if it came from
the queue. -/
def Analysis.over (a : Analysis) : Bool :=
  a.stage = .ended ∨ (a.stage = .left ∧ a.drawn = none)

/-- The process is between the two lists, or is off both and has its machine still. -/
def Analysis.unlisted (a : Analysis) : Bool :=
  a.stage = .moving ∨ (a.stage = .left ∧ a.drawn ≠ none)

/-- The next step tests such an analysis against the running list. -/
def testsUnlisted (s : State) : Action → Bool
  | .scheduler t _ =>
    match (s.schedulers t).phase with
    | .notQueued aid _ _ =>
      match (s.schedulers t).analysisDict.get? aid with
      | none => false
      | some e => s.analyses[e]?.any Analysis.unlisted
    | _ => false
  | _ => false

/-- The process was started and entered in `ANALYSIS_DICT`, and is no longer there. -/
def Dropped (s : State) (e : Nat) (a : Analysis) : Prop :=
  s.analyses[e]? = some a ∧ a.stage.begun = true ∧
    (∀ cls, (s.schedulers a.scheduler).phase ≠ .entering cls e) ∧
    (s.schedulers a.scheduler).analysisDict.get? a.id ≠ some e

/-! ## One analysis -/

/-- A change that is not the start of the process. -/
structure Stable (a a' : Analysis) : Prop where
  scheduler : a'.scheduler = a.scheduler
  id : a'.id = a.id
  begun : a'.stage.begun = a.stage.begun
  ends : a.over = true → a'.over = true
  unqueued : a.stage.begun = true → a.onQueued = none → a'.onQueued = none

section Stability
variable {s : State} {act : Action} {e : Nat} {a a' : Analysis}

theorem begun_of_over (h : a.over = true) : a.stage.begun = true := by
  unfold Analysis.over at h
  rcases of_decide_eq_true h with hstage | ⟨hstage, _⟩
  · rw [hstage]; rfl
  · rw [hstage]; rfl

theorem Stable.refl (a : Analysis) : Stable a a := ⟨rfl, rfl, rfl, fun h => h, fun _ h => h⟩

theorem stable_kill (a : Analysis) : Stable a a.kill where
  scheduler := kill_scheduler a
  id := kill_id a
  begun := by rw [kill_stage]
  ends h := by
    unfold Analysis.over Analysis.drawn at h ⊢
    rw [kill_stage, kill_machine]
    exact h
  unqueued _ h := by
    unfold Analysis.onQueued at h ⊢
    rw [kill_stage, kill_id]
    exact h

/-- Nothing is promised of an analysis that has not begun. -/
theorem stable_of_not_begun (hsch : a'.scheduler = a.scheduler) (hid : a'.id = a.id)
    (hbegun : a.stage.begun = false) (hbegun' : a'.stage.begun = false) : Stable a a' where
  scheduler := hsch
  id := hid
  begun := by rw [hbegun, hbegun']
  ends h := by rw [begun_of_over h] at hbegun; cases hbegun
  unqueued h := by rw [h] at hbegun; cases hbegun

theorem stable_next (hactive : a.stage.active = true) :
    Stable a { a with stage := a.stage.next } where
  scheduler := rfl
  id := rfl
  begun := by
    show a.stage.next.begun = a.stage.begun
    rw [next_begun hactive, begun_of_active hactive]
  ends h := by
    unfold Analysis.over at h
    rcases of_decide_eq_true h with hstage | ⟨hstage, _⟩
    · rw [hstage] at hactive; cases hactive
    · simp [Analysis.over, hstage, Stage.next]
  unqueued _ h := by
    unfold Analysis.onQueued at h ⊢
    cases hstage : a.stage <;> simp_all [Stage.next, Stage.active]

theorem Evolves.stable (h : Evolves s act e a a') (hp : Phased s) (ha : s.analyses[e]? = some a) :
    Stable a a' ∨ ∃ t order sub, act = .scheduler t order ∧
      (s.schedulers t).phase = .starting sub e ∧ a' = { a with stage := .started } := by
  have hpending : ∀ {t stage}, (s.schedulers t).phase.pending = some (e, stage) →
      a.stage.begun = false := by
    intro t stage hphase
    rw [(stage_of_pending hp ha hphase).2]
    exact not_begun_of_pending hphase
  cases h with
  | same => exact .inl (.refl a)
  | popped => exact .inl (stable_kill a)
  | rebound => exact .inl (stable_kill a)
  | enqueued _ hphase =>
    exact .inl (stable_of_not_begun rfl rfl (hpending (by rw [hphase]; rfl)) rfl)
  | given _ _ hphase =>
    exact .inl (stable_of_not_begun rfl rfl (hpending (by rw [hphase]; rfl)) rfl)
  | failed _ hphase => exact .inl (stable_of_not_begun rfl rfl (hpending hphase) rfl)
  | @started t order sub _ _ hphase => exact .inr ⟨t, order, sub, rfl, hphase, rfl⟩
  | moved _ _ hactive => exact .inl (stable_next hactive)

end Stability

/-! ## One scheduler -/

/-- The ids that `_cleanup_pointers` has decided to drop. -/
def Phase.removals : Phase → List Nat
  | .testing _ rem | .notQueued _ _ rem | .removing rem => rem
  | _ => []

/-- Outside of `_cleanup_pointers`, and not between a start and its entry. -/
def Phase.quiet : Phase → Bool
  | .testing _ _ | .notQueued _ _ _ | .removing _ | .entering _ _ => false
  | _ => true

/-- What a scheduler knows of its analyses. -/
structure SafeFor (as : List Analysis) (t : MachineType) (sch : LophiScheduler) : Prop where
  dict : ∀ aid e, sch.analysisDict.get? aid = some e →
    ∃ a, as[e]? = some a ∧ a.scheduler = t ∧ a.id = aid ∧ a.stage.begun = true
  entering : ∀ cls e, sch.phase = .entering cls e →
    ∃ a, as[e]? = some a ∧ a.scheduler = t ∧ a.stage.begun = true
  kept : ∀ (e : Nat) (a : Analysis), as[e]? = some a → a.scheduler = t → a.stage.begun = true →
    sch.analysisDict.get? a.id = some e ∨ (∃ cls, sch.phase = .entering cls e) ∨ a.over = true
  removals : ∀ aid ∈ sch.phase.removals, ∀ (e : Nat) (a : Analysis),
    sch.analysisDict.get? aid = some e → as[e]? = some a → a.over = true
  tested : ∀ aid todo rem, sch.phase = .notQueued aid todo rem → ∀ (e : Nat) (a : Analysis),
    sch.analysisDict.get? aid = some e → as[e]? = some a → a.onQueued = none
  own : ∀ e, sch.analysis = some e → ∃ a, as[e]? = some a ∧ a.scheduler = t

/-- Every scheduler is safe, and only what is over is killed. -/
structure Safe (s : State) : Prop where
  each : ∀ t, SafeFor s.analyses t (s.schedulers t)
  killed : ∀ (e : Nat) (a : Analysis), s.analyses[e]? = some a → a.killed = true → a.over = true

section One
variable {as as' : List Analysis} {t : MachineType} {sch sch' : LophiScheduler}

/-- Only the analyses change, and none of the scheduler's begins. -/
theorem SafeFor.evolve (h : SafeFor as t sch)
    (hback : ∀ (e : Nat) (a' : Analysis), as'[e]? = some a' → a'.scheduler = t →
      a'.stage.begun = true → ∃ a, as[e]? = some a ∧ Stable a a')
    (hforward : ∀ (e : Nat) (a : Analysis), as[e]? = some a → ∃ a', as'[e]? = some a' ∧
      a'.scheduler = a.scheduler ∧ (a.scheduler = t → Stable a a')) :
    SafeFor as' t sch := by
  -- what the dictionary refers to
  have hentry : ∀ {aid e a'}, sch.analysisDict.get? aid = some e → as'[e]? = some a' →
      ∃ a, as[e]? = some a ∧ a.stage.begun = true ∧ Stable a a' := by
    intro aid e a' hget ha'
    obtain ⟨a, ha, hat, _, hbegun⟩ := h.dict aid e hget
    obtain ⟨b, hb, _, hstable⟩ := hforward e a ha
    obtain rfl := Option.some.inj (ha'.symm.trans hb)
    exact ⟨a, ha, hbegun, hstable hat⟩
  refine ⟨?_, ?_, ?_, ?_, ?_, ?_⟩
  · intro aid e hget
    obtain ⟨a, ha, hat, hid, hbegun⟩ := h.dict aid e hget
    obtain ⟨a', ha', _, hstable⟩ := hforward e a ha
    have hst := hstable hat
    exact ⟨a', ha', hst.scheduler.trans hat, hst.id.trans hid, hst.begun.trans hbegun⟩
  · intro cls e hphase
    obtain ⟨a, ha, hat, hbegun⟩ := h.entering cls e hphase
    obtain ⟨a', ha', _, hstable⟩ := hforward e a ha
    have hst := hstable hat
    exact ⟨a', ha', hst.scheduler.trans hat, hst.begun.trans hbegun⟩
  · intro e a' ha' hat hbegun
    obtain ⟨a, ha, hst⟩ := hback e a' ha' hat hbegun
    rcases h.kept e a ha (hst.scheduler.symm.trans hat) (hst.begun.symm.trans hbegun) with
      hget | hentering | hover
    · exact .inl (by rw [hst.id]; exact hget)
    · exact .inr (.inl hentering)
    · exact .inr (.inr (hst.ends hover))
  · intro aid haid e a' hget ha'
    obtain ⟨a, ha, _, hst⟩ := hentry hget ha'
    exact hst.ends (h.removals aid haid e a hget ha)
  · intro aid todo rem hphase e a' hget ha'
    obtain ⟨a, ha, hbegun, hst⟩ := hentry hget ha'
    exact hst.unqueued hbegun (h.tested aid todo rem hphase e a hget ha)
  · intro e hvar
    obtain ⟨a, ha, hat⟩ := h.own e hvar
    obtain ⟨a', ha', hsch, _⟩ := hforward e a ha
    exact ⟨a', ha', hsch.trans hat⟩

/-- The phase changes, and the scheduler enters nothing. -/
theorem SafeFor.goto (h : SafeFor as t sch) (hdict : sch'.analysisDict = sch.analysisDict)
    (hown : ∀ e, sch'.analysis = some e → ∃ a, as[e]? = some a ∧ a.scheduler = t)
    (hold : ∀ cls e, sch.phase ≠ .entering cls e)
    (hnew : ∀ cls e, sch'.phase ≠ .entering cls e)
    (hremovals : ∀ aid ∈ sch'.phase.removals, ∀ (e : Nat) (a : Analysis),
      sch.analysisDict.get? aid = some e → as[e]? = some a → a.over = true)
    (htested : ∀ aid todo rem, sch'.phase = .notQueued aid todo rem → ∀ (e : Nat) (a : Analysis),
      sch.analysisDict.get? aid = some e → as[e]? = some a → a.onQueued = none) :
    SafeFor as t sch' := by
  refine ⟨?_, fun cls e hphase => absurd hphase (hnew cls e), ?_, ?_, ?_, ?_⟩
  · rw [hdict]; exact h.dict
  · intro e a ha hat hbegun
    rw [hdict]
    rcases h.kept e a ha hat hbegun with hget | ⟨cls, hentering⟩ | hover
    · exact .inl hget
    · exact absurd hentering (hold cls e)
    · exact .inr (.inr hover)
  · rw [hdict]; exact hremovals
  · rw [hdict]; exact htested
  · exact hown

theorem removals_of_quiet {p : Phase} (h : p.quiet = true) : p.removals = [] := by
  cases p <;> first | rfl | cases h

/-- The scheduler comes to a phase where it decides nothing. -/
theorem SafeFor.quiet (h : SafeFor as t sch) (hquiet : sch'.phase.quiet = true)
    (hold : ∀ cls e, sch.phase ≠ .entering cls e)
    (hdict : sch'.analysisDict = sch.analysisDict)
    (hown : ∀ e, sch'.analysis = some e → ∃ a, as[e]? = some a ∧ a.scheduler = t) :
    SafeFor as t sch' := by
  refine h.goto hdict hown hold ?_ ?_ ?_
  · intro cls e hphase
    rw [hphase] at hquiet
    cases hquiet
  · rw [removals_of_quiet hquiet]
    exact fun aid haid => absurd haid List.not_mem_nil
  · intro aid todo rem hphase
    rw [hphase] at hquiet
    cases hquiet

/-- An id whose analysis is over is dropped. -/
theorem SafeFor.pop (h : SafeFor as t sch) {aid : Nat} {rem : List Nat}
    (hphase : sch.phase = .removing (aid :: rem)) :
    SafeFor as t { sch with
      analysisDict := sch.analysisDict.erase aid, phase := .removing rem } := by
  have hget : ∀ {aid' e}, (sch.analysisDict.erase aid).get? aid' = some e →
      sch.analysisDict.get? aid' = some e := by
    intro aid' e hsome
    rw [Dict.get?_erase] at hsome
    split at hsome
    · cases hsome
    · exact hsome
  refine ⟨fun aid' e hsome => h.dict aid' e (hget hsome), by simp, ?_, ?_, by simp, h.own⟩
  · intro e a ha hat hbegun
    rcases h.kept e a ha hat hbegun with hsome | ⟨cls, hentering⟩ | hover
    · by_cases hid : a.id = aid
      · refine .inr (.inr (h.removals aid ?_ e a (hid ▸ hsome) ha))
        rw [hphase]
        exact List.mem_cons_self
      · refine .inl ?_
        rw [Dict.get?_erase, if_neg hid]
        exact hsome
    · rw [hphase] at hentering
      cases hentering
    · exact .inr (.inr hover)
  · intro aid' haid' e a hsome ha
    refine h.removals aid' ?_ e a (hget hsome) ha
    rw [hphase]
    exact List.mem_cons_of_mem _ haid'

/-- The analysis that was started is entered. -/
theorem SafeFor.enter (h : SafeFor as t sch) {cls : AnalysisClass} {e : Nat} {a : Analysis}
    (hphase : sch.phase = .entering cls e) (ha : as[e]? = some a)
    (hunique : ∀ (e' : Nat) (a' : Analysis), as[e']? = some a' → a'.scheduler = t →
      a'.id = a.id → e' = e) :
    SafeFor as t { sch with
      analysisDict := sch.analysisDict.insert a.id e, phase := .printing cls } := by
  obtain ⟨b, hb, hbt, hbegun⟩ := h.entering cls e hphase
  obtain rfl := Option.some.inj (ha.symm.trans hb)
  refine ⟨?_, by simp, ?_, by simp [Phase.removals], by simp, h.own⟩
  · intro aid e' hget
    rw [Dict.get?_insert] at hget
    split at hget
    · rename_i haid
      cases hget
      exact ⟨a, ha, hbt, haid.symm, hbegun⟩
    · exact h.dict aid e' hget
  · intro e' a' ha' hat' hbegun'
    rw [Dict.get?_insert]
    rcases h.kept e' a' ha' hat' hbegun' with hget | ⟨cls', hentering⟩ | hover
    · left
      split
      · rename_i hid
        rw [hunique e' a' ha' hat' hid]
      · exact hget
    · rw [hphase] at hentering
      cases hentering
      obtain rfl := Option.some.inj (ha.symm.trans ha')
      exact .inl (if_pos rfl)
    · exact .inr (.inr hover)

theorem SafeFor.congr (h : SafeFor as t sch) (hdict : sch'.analysisDict = sch.analysisDict)
    (hphase : sch'.phase = sch.phase) (hvar : sch'.analysis = sch.analysis) :
    SafeFor as t sch' := by
  refine ⟨?_, ?_, ?_, ?_, ?_, ?_⟩
  · rw [hdict]; exact h.dict
  · rw [hphase]; exact h.entering
  · rw [hdict, hphase]; exact h.kept
  · rw [hdict, hphase]; exact h.removals
  · rw [hdict, hphase]; exact h.tested
  · rw [hvar]; exact h.own

end One

/-! ## Steps -/

section Steps
variable {c : Config} {s s' : State} {act : Action} {t u : MachineType} {order : List Nat}

/-- Only its own steps change what a scheduler knows. -/
theorem setScheduler_other {sch : LophiScheduler} (hu : u ≠ t) :
    (s.setScheduler t sch).schedulers u = s.schedulers u := by
  rw [setScheduler_schedulers, if_neg hu]

theorem release_schedulers (s : State) (t : MachineType) (e : Nat) :
    (s.release t e).schedulers = s.schedulers := by
  rcases release_cases s t e with heq | ⟨_, _, heq⟩
  · rw [heq]
  · rw [heq]; rfl

theorem pop_schedulers (s : State) (t : MachineType) (aid : Nat) :
    (s.pop t aid).schedulers = (s.dropped t aid).schedulers := by
  rcases pop_cases s t aid with ⟨_, heq⟩ | ⟨e, _, heq⟩
  · rw [heq]
  · rw [heq, release_schedulers]

theorem issue_schedulers (s : State) (t : MachineType) (sub : Submission) :
    (s.issue t sub).schedulers = (s.issued t sub).schedulers := by
  rcases issue_cases s t sub with ⟨_, heq⟩ | ⟨old, _, heq⟩
  · rw [heq]
  · rw [heq, release_schedulers]

/-- A step of somebody else leaves a scheduler its dictionary, its phase and its variable. -/
theorem Move.other (hmove : Move c s act s') (hact : ∀ order, act ≠ .scheduler u order) :
    (s'.schedulers u).analysisDict = (s.schedulers u).analysisDict ∧
      (s'.schedulers u).phase = (s.schedulers u).phase ∧
      (s'.schedulers u).analysis = (s.schedulers u).analysis := by
  have hupdate : ∀ (s : State) {t sch}, sch.analysisDict = (s.schedulers t).analysisDict →
      sch.phase = (s.schedulers t).phase → sch.analysis = (s.schedulers t).analysis →
      ((s.setScheduler t sch).schedulers u).analysisDict = (s.schedulers u).analysisDict ∧
        ((s.setScheduler t sch).schedulers u).phase = (s.schedulers u).phase ∧
        ((s.setScheduler t sch).schedulers u).analysis = (s.schedulers u).analysis := by
    intro s t sch hdict hphase hvar
    rw [setScheduler_schedulers]
    split
    · rename_i hu
      rw [hu]
      exact ⟨hdict, hphase, hvar⟩
    · exact ⟨rfl, rfl, rfl⟩
  have hother : ∀ {s₁ : State}, s₁.schedulers u = s.schedulers u →
      (s₁.schedulers u).analysisDict = (s.schedulers u).analysisDict ∧
        (s₁.schedulers u).phase = (s.schedulers u).phase ∧
        (s₁.schedulers u).analysis = (s.schedulers u).analysis := by
    intro s₁ h
    rw [h]
    exact ⟨rfl, rfl, rfl⟩
  have hne : ∀ {t order}, act = .scheduler t order → u ≠ t := by
    rintro t order rfl rfl
    exact hact order rfl
  cases hmove with
  | idle => exact ⟨rfl, rfl, rfl⟩
  | submit => exact hupdate s rfl rfl rfl
  | phase => exact hother (setScheduler_other (hne rfl))
  | @pop t _ rem aid _ =>
    refine hother ((setScheduler_other (hne rfl)).trans ?_)
    rw [pop_schedulers]
    exact setScheduler_other (hne rfl)
  | take => exact hother (setScheduler_other (hne rfl))
  | issue =>
    refine hother ?_
    rw [issue_schedulers]
    exact setScheduler_other (hne rfl)
  | enqueue => exact hother (setScheduler_other (hne rfl))
  | draw => exact hother (setScheduler_other (hne rfl))
  | named => exact hother (setScheduler_other (hne rfl))
  | missing => exact hother (setScheduler_other (hne rfl))
  | start => exact hother (setScheduler_other (hne rfl))
  | broken => exact hother (setScheduler_other (hne rfl))
  | enter => exact hother (setScheduler_other (hne rfl))
  | @finish e _ a _ _ _ =>
    rcases putBack_cases s a with ⟨_, heq⟩ | ⟨name, _, heq⟩
    · rw [heq]; exact ⟨rfl, rfl, rfl⟩
    · rw [heq]; exact hupdate s rfl rfl rfl
  | _ => exact ⟨rfl, rfl, rfl⟩

/-- The analyses after a step, for a scheduler that does not start one. -/
theorem SafeFor.after {sch : LophiScheduler} (h : SafeFor s.analyses u sch)
    (hmove : Move c s act s') (hp : Phased s)
    (hact : ∀ sub e, (s.schedulers u).phase = .starting sub e →
      ∀ a', s'.analyses[e]? = some a' → a'.stage ≠ .started) :
    SafeFor s'.analyses u sch := by
  have hstable : ∀ {e a a'}, s.analyses[e]? = some a → s'.analyses[e]? = some a' →
      Evolves s act e a a' → a.scheduler = u → Stable a a' := by
    intro e a a' ha ha' hev hau
    rcases hev.stable hp ha with hst | ⟨t, order, sub, _, hphase, heq⟩
    · exact hst
    · have hpending : (s.schedulers t).phase.pending = some (e, .assigned) := by rw [hphase]; rfl
      obtain rfl := (stage_of_pending hp ha hpending).1.symm.trans hau
      exact absurd (by rw [heq]) (hact sub e hphase a' ha')
  refine h.evolve ?_ ?_
  · intro e a' ha' hau hbegun
    rcases hmove.evolves ha' with ⟨a, ha, hev⟩ | ⟨t, _, _, _, _, _, rfl⟩
    · exact ⟨a, ha, hstable ha ha' hev (hev.scheduler_eq.symm.trans hau)⟩
    · cases hbegun
  · intro e a ha
    obtain ⟨a', ha', hev⟩ := hmove.forward ha
    exact ⟨a', ha', hev.scheduler_eq, hstable ha ha' hev⟩

/-- On neither list, and not in one of the two gaps: the analysis is over. -/
theorem over_of_not_listed {a : Analysis} (hbegun : a.stage.begun = true)
    (hdied : a.stage ≠ .died) (hqueued : a.onQueued = none) (hrunning : a.onRunning = none)
    (hgap : a.unlisted = false) : a.over = true := by
  unfold Analysis.onQueued at hqueued
  unfold Analysis.onRunning at hrunning
  unfold Analysis.unlisted at hgap
  unfold Analysis.over
  cases hstage : a.stage <;> simp_all [Stage.begun]

theorem SafeFor.phase (h : SafeFor s.analyses t (s.schedulers t)) (hc : Coherent s) {p : Phase}
    (hmove : PhaseMove s t p) (hok : testsUnlisted s (.scheduler t order) = false) :
    SafeFor s.analyses t { s.schedulers t with phase := p } := by
  cases hmove with
  | cleanup hphase _ =>
    refine h.goto rfl h.own (by simp [hphase]) (by simp) (fun aid haid => ?_) (by simp)
    exact absurd haid List.not_mem_nil
  | tested hphase =>
    refine h.goto rfl h.own (by simp [hphase]) (by simp) (fun aid haid => ?_) (by simp)
    exact h.removals aid (by rw [hphase]; exact haid)
  | isQueued hphase _ =>
    refine h.goto rfl h.own (by simp [hphase]) (by simp) (fun aid haid => ?_) (by simp)
    exact h.removals aid (by rw [hphase]; exact haid)
  | @notQueued aid todo rem hphase haid =>
    refine h.goto rfl h.own (by simp [hphase]) (by simp) (fun aid haid => ?_) ?_
    · exact h.removals aid (by rw [hphase]; exact haid)
    · intro aid' todo' rem' heq e a hget ha
      cases heq
      obtain ⟨b, hb, _, hid, _⟩ := h.dict aid e hget
      obtain rfl := Option.some.inj (ha.symm.trans hb)
      cases hq : a.onQueued with
      | none => rfl
      | some n => exact absurd (onQueued_mem hc.listed ha hq) (hid ▸ haid)
  | isRunning hphase _ =>
    refine h.goto rfl h.own (by simp [hphase]) (by simp) (fun aid haid => ?_) (by simp)
    exact h.removals aid (by rw [hphase]; exact haid)
  | @notRunning aid todo rem hphase haid =>
    refine h.goto rfl h.own (by simp [hphase]) (by simp) (fun aid' haid' e a hget ha => ?_)
      (by simp)
    rcases List.mem_append.mp haid' with hold | hnew
    · exact h.removals aid' (by rw [hphase]; exact hold) e a hget ha
    · obtain rfl := List.mem_singleton.mp hnew
      obtain ⟨b, hb, _, hid, hbegun⟩ := h.dict aid' e hget
      obtain rfl := Option.some.inj (ha.symm.trans hb)
      refine over_of_not_listed hbegun (hc.ne_died e a ha) (h.tested _ _ _ hphase e a hget ha) ?_ ?_
      · cases hr : a.onRunning with
        | none => rfl
        | some n => exact absurd (onRunning_mem hc.listed ha hr) (hid ▸ haid)
      · cases hgap : a.unlisted with
        | false => rfl
        | true =>
          simp only [testsUnlisted, hphase, hget, ha, Option.any_some, hgap] at hok
          cases hok
  | removed hphase => exact h.quiet rfl (by simp [hphase]) rfl h.own
  | printed hphase _ => exact h.quiet rfl (by simp [hphase]) rfl h.own
  | unnamed hphase _ => exact h.quiet rfl (by simp [hphase]) rfl h.own

/-- The process of the analysis in hand is started. -/
theorem SafeFor.start (h : SafeFor s.analyses t (s.schedulers t)) (hp : Phased s)
    (hmove : Move c s act s') {sub : Submission} {cls : AnalysisClass} {e : Nat}
    (hphase : (s.schedulers t).phase = .starting sub e)
    (hs' : s'.schedulers t = { s.schedulers t with phase := .entering cls e })
    (he : ∃ a, s'.analyses[e]? = some a ∧ a.scheduler = t ∧ a.stage = .started)
    (hact : ∀ {u order}, act = .scheduler u order → u = t) :
    SafeFor s'.analyses t (s'.schedulers t) := by
  rw [hs']
  refine ⟨?_, ?_, ?_, by simp [Phase.removals], by simp, ?_⟩
  · intro aid e' hget
    obtain ⟨a, ha, hat, hid, hbegun⟩ := h.dict aid e' hget
    obtain ⟨a', ha', hev⟩ := hmove.forward ha
    exact ⟨a', ha', hev.scheduler_eq.trans hat, hev.id_eq.trans hid, hev.begun hp ha hbegun⟩
  · intro cls' e' hentering
    cases hentering
    obtain ⟨a, ha, hat, hstage⟩ := he
    exact ⟨a, ha, hat, by rw [hstage]; rfl⟩
  · intro e' a' ha' hat' hbegun'
    rcases hmove.evolves ha' with ⟨a, ha, hev⟩ | ⟨_, _, _, _, _, _, rfl⟩
    · rcases hev.stable hp ha with hst | ⟨u, order, sub', hu, hphase', _⟩
      · rcases h.kept e' a ha (hst.scheduler.symm.trans hat') (hst.begun.symm.trans hbegun') with
          hget | ⟨cls', hentering⟩ | hover
        · exact .inl (by rw [hst.id]; exact hget)
        · rw [hphase] at hentering
          cases hentering
        · exact .inr (.inr (hst.ends hover))
      · obtain rfl := hact hu
        obtain ⟨_, rfl⟩ := Phase.starting.inj (hphase.symm.trans hphase')
        exact .inr (.inl ⟨cls, rfl⟩)
    · cases hbegun'
  · intro e' hvar
    obtain ⟨a, ha, hat⟩ := h.own e' hvar
    obtain ⟨a', ha', hev⟩ := hmove.forward ha
    exact ⟨a', ha', hev.scheduler_eq.trans hat⟩

theorem issue_own (s : State) (t : MachineType) (sub : Submission) :
    ∃ a, (s.issue t sub).analyses[s.analyses.length]? = some a ∧ a.scheduler = t := by
  have hnew : (s.issued t sub).analyses[s.analyses.length]? = some (newAnalysis s t) :=
    List.getElem?_concat_length
  rcases issue_cases s t sub with ⟨_, heq⟩ | ⟨old, _, heq⟩
  · rw [heq]
    exact ⟨_, hnew, rfl⟩
  · rw [heq]
    rcases release_cases (s.issued t sub) t old with hsame | ⟨_, _, hkill⟩
    · rw [hsame]
      exact ⟨_, hnew, rfl⟩
    · rw [hkill, modify_analyses, List.getElem?_modify, hnew]
      refine ⟨_, rfl, ?_⟩
      show (if old = s.analyses.length then _ else _ : Analysis).scheduler = t
      split
      · exact kill_scheduler _
      · rfl

/-- A scheduler's own step. -/
theorem SafeFor.step (h : SafeFor s.analyses t (s.schedulers t)) (hc : Coherent s)
    (hn : Numbered s) (hmove : Move c s (.scheduler t order) s')
    (hok : testsUnlisted s (.scheduler t order) = false) :
    SafeFor s'.analyses t (s'.schedulers t) := by
  have hafter : (∀ sub e, (s.schedulers t).phase ≠ .starting sub e) →
      SafeFor s'.analyses t (s.schedulers t) :=
    fun hphase => h.after hmove hc.phased fun sub e hstarting => absurd hstarting (hphase sub e)
  have hown : ∀ e, (s.schedulers t).analysis = some e →
      ∃ a, s'.analyses[e]? = some a ∧ a.scheduler = t := by
    intro e hvar
    obtain ⟨a, ha, hat⟩ := h.own e hvar
    obtain ⟨a', ha', hev⟩ := hmove.forward ha
    exact ⟨a', ha', hev.scheduler_eq.trans hat⟩
  -- the moves to a quiet phase; the start of a process changes the analysis in hand only
  have hquiet : ∀ {p sch}, (s.schedulers t).phase = p → (∀ cls e, p ≠ .entering cls e) →
      s'.schedulers t = sch → sch.phase.quiet = true →
      sch.analysisDict = (s.schedulers t).analysisDict →
      sch.analysis = (s.schedulers t).analysis →
      SafeFor s'.analyses t (s.schedulers t) → SafeFor s'.analyses t (s'.schedulers t) := by
    intro p sch hphase hold hsch hquiet hdict hvar hsafe
    rw [hsch]
    exact hsafe.quiet hquiet (by rw [hphase]; exact hold) hdict (by rw [hvar]; exact hown)
  have hm := hmove
  cases hmove with
  | idle => exact h
  | phase hphase =>
    rw [State.goto, setScheduler_self]
    exact h.phase hc hphase hok
  | @pop _ _ rem aid hphase =>
    have hpop := (hafter (by simp [hphase])).pop hphase
    rw [State.goto, setScheduler_self, pop_schedulers, State.dropped, setScheduler_self]
    exact hpop
  | take hphase _ =>
    exact hquiet hphase (by simp) setScheduler_self rfl rfl rfl (hafter (by simp [hphase]))
  | @issue _ _ sub hphase =>
    rw [issue_schedulers, State.issued, setScheduler_self]
    refine (hafter (by simp [hphase])).quiet rfl (by simp [hphase]) rfl fun e hvar => ?_
    obtain rfl := Option.some.inj hvar
    exact issue_own s t sub
  | enqueue hphase _ =>
    exact hquiet hphase (by simp) setScheduler_self rfl rfl rfl (hafter (by simp [hphase]))
  | draw hphase _ =>
    exact hquiet hphase (by simp) setScheduler_self rfl rfl rfl (hafter (by simp [hphase]))
  | named hphase _ =>
    exact hquiet hphase (by simp) setScheduler_self rfl rfl rfl (hafter (by simp [hphase]))
  | missing hphase _ _ _ =>
    exact hquiet hphase (by simp) setScheduler_self rfl rfl rfl (hafter (by simp [hphase]))
  | @start _ _ sub e cls hphase hcls =>
    refine h.start hc.phased hm hphase setScheduler_self ?_ ?_
    · obtain ⟨a, ha, hat, _⟩ := hc.phased t e .assigned (by rw [hphase]; rfl)
      refine ⟨{ a with stage := .started }, ?_, hat, rfl⟩
      show (s.analyses.modify e _)[e]? = _
      rw [List.getElem?_modify_eq, ha]
      rfl
    · intro u order' hact
      exact (Action.scheduler.inj hact).1.symm
  | @broken _ _ sub e hphase _ =>
    refine hquiet hphase (by simp) setScheduler_self rfl rfl rfl (h.after hm hc.phased ?_)
    intro sub' e' hphase' a' ha'
    obtain ⟨_, rfl⟩ := Phase.starting.inj (hphase.symm.trans hphase')
    rcases getElem?_modify_cases ha' with ⟨_, a, _, rfl⟩ | ⟨hne, _⟩
    · simp
    · exact absurd rfl hne
  | @enter _ _ cls e a hphase ha =>
    obtain ⟨b, hb, hbt, _⟩ := h.entering cls e hphase
    obtain rfl := Option.some.inj (ha.symm.trans hb)
    rw [setScheduler_self]
    refine h.enter hphase ha fun e' a' ha' hat' hid => ?_
    exact hn.unique ha' ha (hat'.trans hbt.symm) hid

theorem over_kill {a : Analysis} (h : a.over = true) : a.kill.over = true :=
  (stable_kill a).ends h

/-- What a step kills is over. -/
theorem Safe.killed_step (h : Safe s) (hc : Coherent s) (hmove : Move c s act s') {e : Nat}
    {a' : Analysis} (ha' : s'.analyses[e]? = some a') (hkilled : a'.killed = true) :
    a'.over = true := by
  rcases hmove.evolves ha' with ⟨a, ha, hev⟩ | ⟨_, _, _, _, _, _, rfl⟩
  · have hold : a.killed = true → a'.over = true := by
      intro hwas
      have hover := h.killed e a ha hwas
      rcases hev.stable hc.phased ha with hst | ⟨t, _, _, _, hphase, _⟩
      · exact hst.ends hover
      · have hpending : (s.schedulers t).phase.pending = some (e, .assigned) := by
          rw [hphase]; rfl
        have hbegun := begun_of_over hover
        rw [(stage_of_pending hc.phased ha hpending).2] at hbegun
        cases hbegun
    cases hev with
    | @popped t _ rem aid _ _ hphase hget =>
      refine over_kill ((h.each t).removals aid ?_ e a hget ha)
      rw [hphase]
      exact List.mem_cons_self
    | @rebound t _ sub _ _ hphase hvar hdict =>
      rcases killed_or_active_of_kill hkilled with hwas | hactive
      · exact hold hwas
      · obtain ⟨b, hb, hbt⟩ := (h.each t).own e hvar
        obtain rfl := Option.some.inj (ha.symm.trans hb)
        rcases (h.each t).kept e a ha hbt (begun_of_active hactive) with
          hget | ⟨cls, hentering⟩ | hover
        · exact absurd (Dict.mem_values_iff.mpr ⟨a.id, hget⟩) hdict
        · rw [hphase] at hentering
          cases hentering
        · exact over_kill hover
    | moved _ halive _ => exact absurd hkilled (by simp [halive])
    | _ => exact hold hkilled
  · cases hkilled

theorem Safe.step (h : Safe s) (hc : Coherent s) (hn : Numbered s) (c : Config)
    (hok : testsUnlisted s act = false) : Safe (step c s act).1 := by
  have hmove := step_moves (c := c) hc.listed act
  refine ⟨fun u => ?_, fun e a' => h.killed_step hc hmove⟩
  by_cases hact : ∃ order, act = .scheduler u order
  · obtain ⟨order, rfl⟩ := hact
    exact (h.each u).step hc hn hmove hok
  · obtain ⟨hdict, hphase, hvar⟩ := hmove.other fun order heq => hact ⟨order, heq⟩
    refine SafeFor.congr ((h.each u).after hmove hc.phased ?_) hdict hphase hvar
    intro sub e hstarting a' ha' hstage
    have hpending : ((Scheduler.step c s act).1.schedulers u).phase.pending =
        some (e, .assigned) := by
      rw [hphase, hstarting]
      rfl
    have hassigned := (stage_of_pending (hmove.phased hc.phased) ha' hpending).2
    rw [hstage] at hassigned
    cases hassigned

theorem safe_init (c : Config) : Safe (State.init c) where
  each t :=
    { dict := nofun
      entering := fun cls e hphase => by
        simp only [State.init] at hphase
        split at hphase
        · cases hphase
        · cases hphase
      kept := nofun
      removals := fun aid _ e a hget => nomatch hget
      tested := fun aid todo rem _ e a hget => nomatch hget
      own := nofun }
  killed := nofun

theorem safe_stateAt (c : Config) {acts : List Action}
    (hok : ∀ k act, acts[k]? = some act →
      testsUnlisted (stateAt (Scheduler.step c) (State.init c) acts k) act = false) {k : Nat}
    (hk : k ≤ acts.length) : Safe (stateAt (Scheduler.step c) (State.init c) acts k) := by
  refine stateAt_invariant Safe (safe_init c) ?_ k hk
  intro k act hact hs
  have hlt := (List.getElem?_eq_some_iff.mp hact).1
  rw [stateAt_succ hact]
  exact hs.step (coherent_stateAt c acts (by omega)) (numbered_stateAt c acts (by omega)) c
    (hok k act hact)

/-- **In every run in which `_cleanup_pointers` tests no analysis against the running list
while its process is between the two lists, or is off both and has a machine from
the queue still: an analysis that was dropped from `ANALYSIS_DICT` or killed has
left the running list and has put its machine back.** -/
theorem only_over_dropped (c : Config) (acts : List Action)
    (hok : ∀ k act, acts[k]? = some act →
      testsUnlisted (stateAt (Scheduler.step c) (State.init c) acts k) act = false) :
    ∀ k, k ≤ acts.length → ∀ (e : Nat) (a : Analysis),
      (stateAt (Scheduler.step c) (State.init c) acts k).analyses[e]? = some a →
      Dropped (stateAt (Scheduler.step c) (State.init c) acts k) e a ∨ a.killed = true →
      a.over = true := by
  intro k hk e a ha hgone
  have hsafe := safe_stateAt c hok hk
  rcases hgone with ⟨_, hbegun, hphase, hdict⟩ | hkilled
  · rcases (hsafe.each a.scheduler).kept e a ha rfl hbegun with hget | ⟨cls, hentering⟩ | hover
    · exact absurd hget hdict
    · exact absurd hentering (hphase cls)
    · exact hover
  · exact hsafe.killed e a ha hkilled

end Steps

def oneMachine : Config where
  machineList := [("minnow", 0)]
  nodup := by decide

/-- A submission is taken and started, its process takes `n` steps, and then the scheduler
cleans up. -/
def cleanupAfter (n : Nat) : List Action :=
  .submit 0 goodSubmission :: (List.replicate 10 (.scheduler 0 []) ++
    List.replicate n (.analysis 0 .returned) ++ List.replicate 5 (.scheduler 0 [0]))

/-- Its analysis at the end. -/
def cleanedUp (stage : Stage) : Analysis where
  scheduler := 0
  id := 0
  stage := stage
  machine := some (.drawn "minnow")

/-- After six steps the process is over, and the analysis is dropped. -/
theorem only_over_dropped_ended :
    Dropped (stateAt (step oneMachine) (State.init oneMachine) (cleanupAfter 6) 22) 0
      (cleanedUp .ended) ∧ (cleanedUp .ended).over = true := by
  have hdropped : Dropped (stateAt (step oneMachine) (State.init oneMachine) (cleanupAfter 6) 22) 0
      (cleanedUp .ended) := by
    refine ⟨by decide +kernel, rfl, ?_, by decide +kernel⟩
    have hphase : ((stateAt (step oneMachine) (State.init oneMachine) (cleanupAfter 6)
        22).schedulers 0).phase = .removing [] := by decide +kernel
    intro cls
    show ((stateAt (step oneMachine) _ _ 22).schedulers 0).phase ≠ _
    rw [hphase]
    nofun
  refine ⟨hdropped, only_over_dropped oneMachine (cleanupAfter 6) ?_ 22 (by decide) 0 _
    hdropped.1 (.inl hdropped)⟩
  have hall : ∀ k : Fin (cleanupAfter 6).length, testsUnlisted
      (stateAt (step oneMachine) (State.init oneMachine) (cleanupAfter 6) k)
      ((cleanupAfter 6).get k) = false := by decide +kernel
  exact forall_calls (P := fun s act => testsUnlisted s act = false) hall

/-- After two steps it is between the lists, and the analysis is dropped all the same. -/
theorem moving_analysis_dropped :
    ¬ ∀ k, k ≤ (cleanupAfter 2).length → ∀ (e : Nat) (a : Analysis),
      (stateAt (step oneMachine) (State.init oneMachine) (cleanupAfter 2) k).analyses[e]? = some a →
      Dropped (stateAt (step oneMachine) (State.init oneMachine) (cleanupAfter 2) k) e a ∨
        a.killed = true → a.over = true := by
  intro h
  have hanalysis : (stateAt (step oneMachine) (State.init oneMachine) (cleanupAfter 2)
      18).analyses[0]? = some (cleanedUp .moving) := by decide +kernel
  have hphase : ((stateAt (step oneMachine) (State.init oneMachine) (cleanupAfter 2) 18).schedulers
      0).phase = .removing [] := by decide +kernel
  have hdropped : Dropped (stateAt (step oneMachine) (State.init oneMachine) (cleanupAfter 2) 18) 0
      (cleanedUp .moving) := by
    refine ⟨hanalysis, rfl, fun cls => ?_, by decide +kernel⟩
    show ((stateAt (step oneMachine) _ _ 18).schedulers 0).phase ≠ _
    rw [hphase]
    nofun
  cases h 18 (by decide) 0 _ hanalysis (.inl hdropped)

end LoPhi.Automation.Scheduler
