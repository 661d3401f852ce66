import LoPhi.Sata.Step

/-! # The life of a command outside NCQ

A command outside NCQ is pushed on `regular_register_stack` and gets the one
packet under construction; completion should end both. The only function that
pops the stack is never called, so completing a command, or starting one while
another is on the stack, leaves the stack and the packet out of step. -/

namespace LoPhi.Sata.Lifecycle
open LoPhi.Lib.Python LoPhi.Lib.Machine
open LoPhi.Sata.Frame LoPhi.Sata.Reconstructor LoPhi.Sata.Step

variable {β : Type} {s : SATAReconstructor β} {c : Content β}

/-- The stack is non-empty exactly when there is a packet, and holds at most
one register frame. -/
def Coupled (s : SATAReconstructor β) : Prop :=
  (s.regularRegisterStack ≠ [] ↔ s.regularDiskSensorPacket ≠ .none) ∧
    s.regularRegisterStack.length ≤ 1

/-- A data frame given to `handle_non_ncq_data_packet` is ignored when nothing
is outstanding, and added to the packet of the one outstanding command
otherwise. In particular the handler does not raise. -/
def AddedOrIgnored (s : SATAReconstructor β) (direction : Nat) (sataData : List β) : Prop :=
  s.regularRegisterStack = [] ∧ handleNonNcqDataPacket s direction sataData = (s, .ok none) ∨
  ∃ r p, s.regularRegisterStack = [r] ∧ s.regularDiskSensorPacket = .packet p ∧
    (handleNonNcqDataPacket s direction sataData =
        ({ s with regularDiskSensorPacket := .packet (extend p [sataData]) }, .ok none) ∨
      (handleNonNcqDataPacket s direction sataData).2 =
        .ok (some [{ extend p [sataData] with direction := some direction }]))

instance : DecidablePred (Coupled (β := β)) := fun s =>
  decidable_of_iff ((s.regularRegisterStack ≠ [] ↔
    (s.regularDiskSensorPacket matches .none) = false) ∧ s.regularRegisterStack.length ≤ 1) (by
      cases h : s.regularDiskSensorPacket <;> simp [Coupled, h])

/-- Stack and packet are coupled, and every data frame finds its command. -/
def InStep (s : SATAReconstructor β) : Prop :=
  Coupled s ∧ ∀ direction sataData, AddedOrIgnored s direction sataData

/-- The frame puts stack and packet out of step: it completes the packet under
construction, or hands over a command outside NCQ while one is on the stack or
with fields that do not pack. -/
def Breaks (s : SATAReconstructor β) (c : Content β) : Prop :=
  (s.state = .waitForNonNcqData ∧ c.fis = .data ∧ s.regularRegisterStack ≠ [] ∧
    ∃ p, s.regularDiskSensorPacket = .packet p ∧
      p.size ≤ (extend p [c.sataData]).data.length) ∨
  ∃ r, Handed s c r ∧ IsRegular r ∧
    (s.regularRegisterStack ≠ [] ∨ ¬ RegularPacks s.sectorSize c.direction r)

/-! ## The two states a command can be in -/

theorem addedOrIgnored_nil {direction : Nat} {sataData : List β}
    (h : s.regularRegisterStack = []) : AddedOrIgnored s direction sataData := by
  left
  simp [h, handleNonNcqDataPacket]

theorem addedOrIgnored_one {r : RegisterHtoD} {p : DiskSensorPacket β} {direction : Nat}
    {sataData : List β} (hr : s.regularRegisterStack = [r])
    (hp : s.regularDiskSensorPacket = .packet p) : AddedOrIgnored s direction sataData := by
  refine .inr ⟨r, p, hr, hp, ?_⟩
  simp only [handleNonNcqDataPacket, hr, hp]
  split
  · right; simp [extend]
  · left; simp [extend]

/-- Nothing is outstanding, or one command with its packet. -/
theorem inStep_iff : InStep s ↔
    s.regularRegisterStack = [] ∧ s.regularDiskSensorPacket = .none ∨
      ∃ r p, s.regularRegisterStack = [r] ∧ s.regularDiskSensorPacket = .packet p := by
  constructor
  · rintro ⟨⟨hc, _⟩, ha⟩
    rcases ha 0 [] with ⟨hs, _⟩ | ⟨r, p, hr, hp, _⟩
    · left
      exact ⟨hs, by_contra fun hp => hc.mpr hp hs⟩
    · exact .inr ⟨r, p, hr, hp⟩
  · rintro (⟨hs, hp⟩ | ⟨r, p, hr, hp⟩)
    · exact ⟨by simp [Coupled, hs, hp], fun _ _ => addedOrIgnored_nil hs⟩
    · exact ⟨by simp [Coupled, hr, hp], fun _ _ => addedOrIgnored_one hr hp⟩

theorem InStep.of_eq {t : SATAReconstructor β} (h : InStep s)
    (hr : t.regularRegisterStack = s.regularRegisterStack)
    (hp : t.regularDiskSensorPacket = s.regularDiskSensorPacket) : InStep t := by
  rw [inStep_iff] at *
  rwa [hr, hp]

/-! ## One call -/

theorem inStep_register_iff {direction : Nat} {r : RegisterHtoD} (h : InStep s) :
    InStep (handleRegisterHTD s direction r).1 ↔
      ¬ (IsRegular r ∧ (s.regularRegisterStack ≠ [] ∨
        ¬ RegularPacks s.sectorSize direction r)) := by
  apply handleRegisterHTD_cases (fun o => InStep o.1 ↔ _)
  case ignored => intro _ hn; simp [hn, h]
  case outOfRange => intro hn _; simp [hn.not_regular, h]
  case queued =>
    intro hn _ _ _
    simp [hn.not_regular, h.of_eq (t := storeCommand s r) rfl rfl]
  case half =>
    intro _ _ hn _ _
    simp [hn.not_regular, h.of_eq (t := storeRegister s r) rfl rfl]
  case regular => intro hn hp; rw [inStep_iff]; simp [hn, hp]
  case unpacked => intro hn hp; rw [inStep_iff]; simp [hn, hp]

theorem inStep_unexpected_iff (h : InStep s) :
    InStep (handleUnexpectedPacket s c).1 ↔
      ¬ ∃ r, c.fis = .registerHtoD r ∧ IsRegular r ∧
        (s.regularRegisterStack ≠ [] ∨ ¬ RegularPacks s.sectorSize c.direction r) := by
  have hi : InStep { s with numErrors := s.numErrors + 1, state := .deviceIdle } :=
    h.of_eq rfl rfl
  apply handleUnexpectedPacket_cases (fun o => InStep o.1 ↔ _)
  · intro r hr
    rw [inStep_register_iff hi]
    simp [hr]
  · intro d hd
    refine iff_of_true (h.of_eq rfl rfl) ?_
    simp [hd]
  · intro hr _
    refine iff_of_true hi ?_
    rintro ⟨r, he, _⟩
    exact hr r he

theorem inStep_nonNcqData_iff {direction : Nat} {sataData : List β} (h : InStep s) :
    InStep (handleNonNcqDataPacket s direction sataData).1 ↔
      ¬ (s.regularRegisterStack ≠ [] ∧ ∃ p, s.regularDiskSensorPacket = .packet p ∧
        p.size ≤ (extend p [sataData]).data.length) := by
  apply handleNonNcqDataPacket_cases (fun o => InStep o.1 ↔ _)
  case ignored => intro hs; simp [hs, h]
  case missing => intro hs hp; simp [hp, h]
  case unset => intro hs hp; simp [hp, h]
  case added =>
    intro p hs hp hsize
    simp only [hp, RegularPacket.packet.injEq, exists_eq_left', hsize, and_false,
      not_false_iff, iff_true]
    rw [inStep_iff] at *
    rcases h with ⟨hn, _⟩ | ⟨r, _, hr, _⟩
    · exact absurd hn hs
    · exact .inr ⟨r, _, hr, rfl⟩
  case command =>
    intro p hs hp hsize
    rw [inStep_iff]
    simp [hs, hp, hsize]

/-- The frames `handle_register_HTD` gets from the switch over `STATE`. -/
theorem breaks_iff_of_register {r : RegisterHtoD} (hf : c.fis = .registerHtoD r) :
    Breaks s c ↔ Handed s c r ∧ IsRegular r ∧
      (s.regularRegisterStack ≠ [] ∨ ¬ RegularPacks s.sectorSize c.direction r) := by
  simp [Breaks, Handed, hf]

theorem not_breaks_of {c : Content β} (hd : c.fis ≠ .data) (hr : ∀ r, c.fis ≠ .registerHtoD r) :
    ¬ Breaks s c := by
  rintro (⟨_, h, _⟩ | ⟨r, h, _⟩)
  · exact hd h
  · exact hr r h.1

theorem inStep_inState_iff (h : InStep s) (hc : LeftToState c) :
    InStep (processInState s c).1 ↔ ¬ Breaks s c := by
  apply processInState_cases (fun o => InStep o.1 ↔ _) hc
  case setup =>
    intro d _ hf _
    exact iff_of_true (h.of_eq rfl rfl) (not_breaks_of (by simp [hf]) (by simp [hf]))
  case idle =>
    intro hst _
    refine iff_of_true h ?_
    rintro (⟨hn, _⟩ | ⟨r, hh, _⟩)
    · simp [hst] at hn
    · exact not_handed_idle hc hst hh
  case unexpected =>
    intro hst
    rw [inStep_unexpected_iff h]
    have hdata : ¬ (s.state = .waitForNonNcqData ∧ c.fis = .data) := by
      rintro ⟨h1, h2⟩
      rcases hst with hst | ⟨_, hne⟩
      · simp [hst] at h1
      · exact hne h2
    refine not_congr ⟨fun ⟨r, hf, hr⟩ => .inr ⟨r, handed_of_unexpected hf hst, hr⟩, ?_⟩
    rintro (⟨h1, h2, _⟩ | ⟨r, hh, hr⟩)
    · exact absurd ⟨h1, h2⟩ hdata
    · exact ⟨r, hh.1, hr⟩
  case burst =>
    intro ha
    have hb : ¬ Breaks s c := by
      rintro (⟨hn, _⟩ | ⟨r, hh, _⟩)
      · rcases ha.2 with ha | ha <;> simp [ha.1] at hn
      · exact absurd (ha.1.symm.trans hh.1) (by simp)
    refine iff_of_true ?_ hb
    apply handleNcqDataPacket_cases (fun o => InStep o.1) <;> intros <;> exact h.of_eq rfl rfl
  case abandon =>
    intro hw _
    have hn : s.state ≠ .waitForNonNcqData := by
      rcases hw with hw | hw <;> simp [hw]
    apply abandonBurst_cases (fun o => InStep o.1 ↔ _)
    · intro hs
      refine iff_of_true (h.of_eq rfl rfl) ?_
      rintro (⟨h1, _⟩ | ⟨r, hh, _⟩)
      · exact hn h1
      · exact not_handed_empty hc hw hs hh
    · intro d rest hs
      rw [inStep_unexpected_iff (s := dropBurst s rest) (h.of_eq rfl rfl)]
      refine not_congr ⟨fun ⟨r, hf, hr⟩ => .inr ⟨r, handed_of_popped hf hw hs, hr⟩, ?_⟩
      rintro (⟨h1, _⟩ | ⟨r, hh, hr⟩)
      · exact absurd h1 hn
      · exact ⟨r, hh.1, hr⟩
  case regular =>
    intro hst hf
    rw [inStep_nonNcqData_iff h]
    simp [Breaks, Handed, hst, hf]

/-- Stack and packet stay in step exactly when the frame is none of those that
put them out of step. -/
theorem inStep_dispatch_iff (h : InStep s) :
    InStep (dispatch s c).1 ↔ ¬ Breaks s c := by
  have hreset : InStep (resetNcq s) := h.of_eq rfl rfl
  apply dispatch_cases (fun o => InStep o.1 ↔ _)
  case activate =>
    intro ha
    refine iff_of_true h (not_breaks_of ?_ ?_) <;> rcases ha with ⟨a, ha⟩ | ha <;> simp [ha]
  case bits =>
    intro b hb
    rw [handleSetDeviceBits_eq hb]
    refine iff_of_true ?_ (not_breaks_of (by simp [hb]) (by simp [hb]))
    split <;> assumption
  case register =>
    intro r hr hd
    rw [inStep_register_iff h, breaks_iff_of_register hr]
    simp [Handed, hr, hd]
  case status =>
    intro r hr hd
    rw [handleNcqRegisterDTH_eq hr hd]
    refine iff_of_true ?_ (not_breaks_of (by simp [hr]) (by simp [hr]))
    split <;> assumption
  case pio =>
    intro p hp
    exact iff_of_true (h.of_eq rfl rfl) (not_breaks_of (by simp [hp]) (by simp [hp]))
  case inState => intro hc; exact inStep_inState_iff h hc

theorem inStep_arrive (f : PhysicalPacket β) (h : InStep s) : InStep (arrive s f) := by
  unfold arrive checkSequence
  split <;> exact h.of_eq rfl rfl

/-! ## Runs -/

/-- **Stack and packet of the commands outside NCQ stay in step throughout a run
exactly when no frame completes such a command, and none starts one while
another is on the stack or with fields that do not pack.** -/
theorem lifecycle_throughout_iff (n : Nat) (fs : List (PhysicalPacket β)) :
    (∀ k, k ≤ fs.length → InStep (stateAt processPacket (init n) fs k)) ↔
      ∀ k f, fs[k]? = some f →
        ¬ Breaks (arrive (stateAt processPacket (init n) fs k) f) f.toContent := by
  have hinit : InStep (init n : SATAReconstructor β) := inStep_iff.mpr (.inl ⟨rfl, rfl⟩)
  exact throughout_iff fs hinit (fun s f hs => inStep_dispatch_iff (inStep_arrive f hs))

/-- One PIO read of a sector (command 0x20), complete, followed by another PIO
Setup and data frame. -/
def secondPioData : List (PhysicalPacket UInt8) :=
  [ { lophiSeqn := 1, direction := hostToDevice,
      fis := .registerHtoD { C := 1, command := 0x20, count := 1 } },
    { lophiSeqn := 2, direction := deviceToHost, fis := .pioSetup { transferCount := 512 } },
    { lophiSeqn := 3, direction := deviceToHost, fis := .data,
      sataData := List.replicate 516 0 },
    { lophiSeqn := 4, direction := deviceToHost, fis := .pioSetup { transferCount := 512 } },
    { lophiSeqn := 5, direction := deviceToHost, fis := .data,
      sataData := List.replicate 516 0 } ]

/-- The completed read stays on the stack without its packet, and the next data
frame dereferences the missing packet. -/
theorem secondPioData_dereferences_none :
    ¬ Coupled (stateAt processPacket (init 512) secondPioData 3) ∧
      (outputs processPacket (init 512) secondPioData)[4]? = some (.error .attributeError) := by
  decide +kernel

end LoPhi.Sata.Lifecycle
