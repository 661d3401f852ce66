import LoPhi.Sata.Step

/-! # The DMA wait states and the DMA stack

The stack of outstanding DMA Setups should hold one setup exactly while
`STATE` waits for DMA data. Three kinds of frame break this when they arrive
during a transfer: an NCQ reset empties the stack and keeps `STATE`, a PIO
Setup and a command outside NCQ change `STATE` and keep the stack. They are
the only ones. -/

namespace LoPhi.Sata.DmaStack
open LoPhi.Lib.Python LoPhi.Lib.Machine
open LoPhi.Sata.Frame LoPhi.Sata.Reconstructor LoPhi.Sata.Step

variable {β : Type} {s : SATAReconstructor β} {c : Content β}

/-- `STATE` waits for DMA data exactly when the stack holds exactly one setup,
and the stack is empty in every other state. -/
def Agree (s : SATAReconstructor β) : Prop :=
  (WaitsForDma s.state ↔ s.ncqDmaStack.length = 1) ∧
    (¬ WaitsForDma s.state → s.ncqDmaStack = [])

instance : DecidablePred (Agree (β := β)) := fun _ => inferInstanceAs (Decidable (_ ∧ _))

/-- The frame leaves a transfer without ending it: a setup is on the stack, and
the frame resets NCQ, is a PIO Setup, or starts a command outside NCQ. -/
def Interrupts (s : SATAReconstructor β) (c : Content β) : Prop :=
  s.ncqDmaStack ≠ [] ∧
    (ResetsNcq c ∨ (∃ p, c.fis = .pioSetup p) ∨
      ∃ r, c.fis = .registerHtoD r ∧ c.direction = hostToDevice ∧ IsRegular r ∧
        RegularPacks s.sectorSize c.direction r)

theorem agree_waiting {d : DmaSetup} (hw : WaitsForDma s.state) (hs : s.ncqDmaStack = [d]) :
    Agree s := by
  simp [Agree, hw, hs]

theorem agree_empty (hw : ¬ WaitsForDma s.state) (hs : s.ncqDmaStack = []) : Agree s := by
  simp [Agree, hw, hs]

theorem Agree.stack_of_waits (h : Agree s) (hw : WaitsForDma s.state) :
    ∃ d, s.ncqDmaStack = [d] := List.length_eq_one_iff.mp (h.1.mp hw)

theorem Agree.waits_iff (h : Agree s) : WaitsForDma s.state ↔ s.ncqDmaStack ≠ [] := by
  constructor
  · intro hw
    obtain ⟨d, hd⟩ := h.stack_of_waits hw
    simp [hd]
  · intro hs
    exact not_not.mp fun hw => hs (h.2 hw)

theorem not_waits_deviceIdle : ¬ WaitsForDma .deviceIdle := by decide

theorem not_waits_nonNcq : ¬ WaitsForDma .waitForNonNcqData := by decide

/-- What agreement says depends on `STATE` and the stack alone. -/
theorem Agree.of_eq {t : SATAReconstructor β} (h : Agree s) (hst : t.state = s.state)
    (hs : t.ncqDmaStack = s.ncqDmaStack) : Agree t := by
  unfold Agree at *
  rw [hst, hs]
  exact h

/-! ## One call -/

theorem agree_resetNcq_iff (h : Agree s) : Agree (resetNcq s) ↔ s.ncqDmaStack = [] := by
  constructor
  · intro hr
    have hw : ¬ WaitsForDma s.state := fun hw => by simpa [resetNcq] using hr.1.mp hw
    exact h.2 hw
  · intro hs
    exact agree_empty (fun hw => h.waits_iff.mp hw hs) rfl

theorem agree_nonNcq_iff {t : SATAReconstructor β} (hst : t.state = .waitForNonNcqData) :
    Agree t ↔ t.ncqDmaStack = [] := by
  constructor
  · intro ha; exact ha.2 (hst ▸ not_waits_nonNcq)
  · intro hs; exact agree_empty (hst ▸ not_waits_nonNcq) hs

theorem agree_setup {d : DmaSetup} (hs : s.ncqDmaStack = []) : Agree (handleDmaSetup s d).1 := by
  apply agree_waiting (d := d)
  · simp only [handleDmaSetup, WaitsForDma]
    split <;> simp
  · simp [handleDmaSetup, hs]

theorem agree_register_idle {direction : Nat} {r : RegisterHtoD} (hst : s.state = .deviceIdle)
    (hs : s.ncqDmaStack = []) : Agree (handleRegisterHTD s direction r).1 := by
  have hi : Agree s := agree_empty (hst ▸ not_waits_deviceIdle) hs
  apply handleRegisterHTD_cases (fun o => Agree o.1)
  case ignored | outOfRange => intros; exact hi
  case queued | half | unpacked => intros; exact hi.of_eq rfl rfl
  case regular => intros; exact agree_empty not_waits_nonNcq hs

theorem agree_unexpected (hs : s.ncqDmaStack = []) : Agree (handleUnexpectedPacket s c).1 := by
  apply handleUnexpectedPacket_cases (fun o => Agree o.1)
  · intro r _; exact agree_register_idle rfl hs
  · intro d _; exact agree_setup hs
  · intro _ _; exact agree_empty not_waits_deviceIdle hs

theorem agree_ncqData {data : List β} (h : Agree s) (hw : WaitsForDma s.state) :
    Agree (handleNcqDataPacket s data).1 := by
  obtain ⟨d₀, hd⟩ := h.stack_of_waits hw
  have hnil : ∀ {d rest}, s.ncqDmaStack = d :: rest → rest = [] := by
    intro d rest he; rw [hd] at he; exact (List.cons.inj he).2.symm
  apply handleNcqDataPacket_cases (fun o => Agree o.1)
  case noSetup | outOfRange | unknown => intros; exact h
  case buffered | noPacket => intros; exact h.of_eq rfl rfl
  case burst => intro d rest r p he _ _ _ _; exact agree_empty not_waits_deviceIdle (hnil he)
  case command => intro d rest r p he _ _ _ _; exact agree_empty not_waits_deviceIdle (hnil he)

theorem agree_nonNcqData {direction : Nat} {data : List β} (h : Agree s)
    (hst : s.state = .waitForNonNcqData) :
    Agree (handleNonNcqDataPacket s direction data).1 := by
  have hs : s.ncqDmaStack = [] := h.2 (hst ▸ not_waits_nonNcq)
  apply handleNonNcqDataPacket_cases (fun o => Agree o.1)
  case ignored | missing | unset => intros; exact h
  case added => intros; exact h.of_eq rfl rfl
  case command => intros; exact agree_empty not_waits_deviceIdle hs

theorem agree_inState (h : Agree s) (hc : LeftToState c) : Agree (processInState s c).1 := by
  apply processInState_cases (fun o => Agree o.1) hc
  · intro d hst _ _; exact agree_setup (h.2 (hst ▸ not_waits_deviceIdle))
  · intro _ _; exact h
  · intro hst
    apply agree_unexpected
    apply h.2
    rcases hst with hst | ⟨hst, _⟩ <;> rw [hst] <;> decide
  · intro ha; exact agree_ncqData h ha.waits
  · intro hw _
    obtain ⟨d₀, hd₀⟩ := h.stack_of_waits hw
    apply abandonBurst_cases (fun o => Agree o.1)
    · intro hs; simp [hs] at hd₀
    · intro d rest hs
      have hr : rest = [] := by rw [hd₀] at hs; exact (List.cons.inj hs).2.symm
      exact agree_unexpected hr
  · intro hst _; exact agree_nonNcqData h hst

/-- Frames that may abort the NCQ transfers and do nothing else. -/
theorem agree_resets_iff (h : Agree s)
    (hi : Interrupts s c ↔ s.ncqDmaStack ≠ [] ∧ ResetsNcq c) :
    Agree (if ResetsNcq c then resetNcq s else s) ↔ ¬ Interrupts s c := by
  by_cases hr : ResetsNcq c
  · simp [hr, hi, agree_resetNcq_iff h]
  · simp [hr, hi, h]

theorem agree_register_iff (h : Agree s) {r : RegisterHtoD} (hr : c.fis = .registerHtoD r)
    (hd : c.direction = hostToDevice) :
    Agree (handleRegisterHTD s c.direction r).1 ↔ ¬ Interrupts s c := by
  have hi : Interrupts s c ↔ s.ncqDmaStack ≠ [] ∧ IsRegular r ∧
      RegularPacks s.sectorSize c.direction r := by
    simp [Interrupts, ResetsNcq, hr, hd]
  apply handleRegisterHTD_cases (fun o => Agree o.1 ↔ ¬ Interrupts s c)
  case ignored => intro _ hn; simp [hi, hn, h]
  case outOfRange => intro hn _; simp [hi, h, hn.not_regular]
  case queued =>
    intro hn _ _ _
    simp [hi, h.of_eq (t := storeCommand s r) rfl rfl, hn.not_regular]
  case half =>
    intro _ _ hn _ _
    simp [hi, h.of_eq (t := storeRegister s r) rfl rfl, hn.not_regular]
  case regular =>
    intro hn hp
    rw [agree_nonNcq_iff rfl]
    simp [hi, hn, hp]
  case unpacked =>
    intro _ hp
    simp only [hi, hp, and_false, not_false_iff, iff_true]
    exact h.of_eq rfl rfl

/-- Agreement survives the handling of a frame exactly when the frame does not
leave a transfer without ending it. -/
theorem agree_dispatch_iff (h : Agree s) : Agree (dispatch s c).1 ↔ ¬ Interrupts s c := by
  apply dispatch_cases (fun o => Agree o.1 ↔ ¬ Interrupts s c)
  case activate =>
    intro ha
    refine iff_of_true h fun hi => ?_
    rcases ha with ⟨a, ha⟩ | ha <;> simp [Interrupts, ResetsNcq, ha] at hi
  case bits =>
    intro b hb
    rw [handleSetDeviceBits_eq hb]
    exact agree_resets_iff h (by simp [Interrupts, hb])
  case register => intro r hr hd; exact agree_register_iff h hr hd
  case status =>
    intro r hr hd
    rw [handleNcqRegisterDTH_eq hr hd]
    exact agree_resets_iff h (by simp [Interrupts, hr])
  case pio =>
    intro p hp
    have hi : Interrupts s c ↔ s.ncqDmaStack ≠ [] := by simp [Interrupts, hp]
    rw [hi, not_not]
    exact agree_nonNcq_iff rfl
  case inState =>
    intro hc
    refine iff_of_true (agree_inState h hc) ?_
    rintro ⟨_, hr | ⟨p, hp⟩ | ⟨r, hr, hd, _⟩⟩
    · unfold ResetsNcq at hr
      unfold LeftToState at hc
      split at hr <;> simp_all
    · simp [LeftToState, hp] at hc
    · simp [LeftToState, hr, hd] at hc

theorem agree_arrive (f : PhysicalPacket β) (h : Agree s) : Agree (arrive s f) := by
  unfold arrive checkSequence
  split
  · exact agree_empty not_waits_deviceIdle rfl
  · exact h.of_eq rfl rfl

/-- Under agreement no abort path pops an empty stack. -/
theorem Agree.no_pop (h : Agree s) : (dispatch s c).2 ≠ .error .popFromEmptyList := by
  have hreg : ∀ (t : SATAReconstructor β) direction r,
      (handleRegisterHTD t direction r).2 ≠ .error .popFromEmptyList := by
    intro t direction r
    apply handleRegisterHTD_cases (fun o => o.2 ≠ .error .popFromEmptyList) <;> intros <;> simp_all
  have hun : ∀ t : SATAReconstructor β,
      (handleUnexpectedPacket t c).2 ≠ .error .popFromEmptyList := by
    intro t
    apply handleUnexpectedPacket_cases (fun o => o.2 ≠ .error .popFromEmptyList)
    · intro r _; exact hreg _ _ _
    · intro d _; simp [handleDmaSetup]
    · intro _ _; simp
  apply dispatch_cases (fun o => o.2 ≠ .error .popFromEmptyList)
  case activate => intro _; simp
  case bits => intro b hb; simp [handleSetDeviceBits_eq hb]
  case register => intro r _ _; exact hreg _ _ _
  case status => intro r hr hd; simp [handleNcqRegisterDTH_eq hr hd]
  case pio => intro p _; simp [handlePioSetup]
  case inState =>
    intro hc
    apply processInState_cases (fun o => o.2 ≠ .error .popFromEmptyList) hc
    · intro d _ _ _; simp [handleDmaSetup]
    · intro _ _; simp
    · intro _; exact hun s
    · intro _
      apply handleNcqDataPacket_cases (fun o => o.2 ≠ .error .popFromEmptyList) <;>
        intros <;> simp_all
    · intro hw _
      apply abandonBurst_cases (fun o => o.2 ≠ .error .popFromEmptyList)
      · intro hs; exact absurd hs (h.waits_iff.mp hw)
      · intro d rest _; exact hun _
    · intro _ _
      apply handleNonNcqDataPacket_cases (fun o => o.2 ≠ .error .popFromEmptyList) <;>
        intros <;> simp

/-! ## Runs -/

/-- **The wait states and the DMA stack agree in every state of a run, and no
`pop` raises, exactly when no frame leaves a transfer without ending it.** -/
theorem dmaStack_agrees_iff (n : Nat) (fs : List (PhysicalPacket β)) :
    ((∀ k, k ≤ fs.length → Agree (stateAt processPacket (init n) fs k)) ∧
      ∀ k f, fs[k]? = some f →
        (processPacket (stateAt processPacket (init n) fs k) f).2 ≠ .error .popFromEmptyList) ↔
      ∀ k f, fs[k]? = some f →
        ¬ Interrupts (arrive (stateAt processPacket (init n) fs k) f) f.toContent := by
  have hinit : Agree (init n : SATAReconstructor β) := agree_empty not_waits_deviceIdle rfl
  have hstep : ∀ (s : SATAReconstructor β) (f : PhysicalPacket β), Agree s →
      (Agree (processPacket s f).1 ↔ ¬ Interrupts (arrive s f) f.toContent) :=
    fun s f hs => agree_dispatch_iff (agree_arrive f hs)
  have hiff := throughout_iff fs hinit hstep
  constructor
  · intro h; exact hiff.mp h.1
  · intro h
    refine ⟨hiff.mpr h, fun k f hf => ?_⟩
    have hk := (List.getElem?_eq_some_iff.mp hf).1
    exact (agree_arrive f (hiff.mpr h k (by omega))).no_pop

/-- A DMA Setup, an error report, and another DMA Setup, all from the device. -/
def errorInTransfer : List (PhysicalPacket UInt8) :=
  [ { lophiSeqn := 1, direction := deviceToHost, fis := .dmaSetup { directionBit := 1 } },
    { lophiSeqn := 2, direction := deviceToHost, fis := .setDeviceBits { statusLo := 1 } },
    { lophiSeqn := 3, direction := deviceToHost, fis := .dmaSetup { directionBit := 1 } } ]

/-- After the error report the stack is empty while `STATE` still waits, and the
next setup, which is not the awaited data frame, pops the empty stack. -/
theorem errorInTransfer_pops_empty :
    ¬ Agree (stateAt processPacket (init 512) errorInTransfer 2) ∧
      (outputs processPacket (init 512) errorInTransfer)[2]? =
        some (.error .popFromEmptyList) := by decide

end LoPhi.Sata.DmaStack
