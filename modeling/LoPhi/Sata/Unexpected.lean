import LoPhi.Sata.Step

/-! # Unexpected frames

In a state that waits for data every other frame that no earlier test takes goes to
`_handle_unexpected_packet`, which returns to `DEVICE_IDLE` and looks at the frame once more.
It is meant to do what the `DEVICE_IDLE` branch does. That branch asks which side sent a
register frame or a DMA Setup; the second look does not, although its comment says that
setups from the host are to be ignored. And where `WAIT_FOR_NON_NCQ_DATA` has interrupted a
burst, the burst is not abandoned with it. -/

namespace LoPhi.Sata.Unexpected
open LoPhi.Lib.Python LoPhi.Lib.Machine LoPhi.Sata.Frame LoPhi.Sata.Reconstructor LoPhi.Sata.Step

variable {β : Type} {s t : SATAReconstructor β} {c : Content β} {f : PhysicalPacket β}

/-- The call runs `_handle_unexpected_packet`. Waiting for DMA data, it gets there only if
there is a DMA Setup to pop. -/
def IsUnexpected (s : SATAReconstructor β) (c : Content β) : Prop :=
  LeftToState c ∧ (s.state = .waitForRegisterAck ∨ s.state = .waitForNonNcqData ∧ c.fis ≠ .data ∨
    WaitsForDma s.state ∧ ¬ IsAwaited s.state c ∧ s.ncqDmaStack ≠ [])

/-- The current burst abandoned: its queue and counter cleared, the DMA Setup popped, and
`STATE` idle. -/
def abandon (s : SATAReconstructor β) : SATAReconstructor β :=
  { dropBurst s s.ncqDmaStack.tail with state := .deviceIdle }

/-- The burst abandoned, then the frame handled by the `DEVICE_IDLE` branch. -/
def asIdle (s : SATAReconstructor β) (f : PhysicalPacket β) : Call β :=
  processInState (abandon (arrive s f)) f.toContent

/-- Two calls agree apart from `num_errors`. -/
def SameButErrors (o o' : Call β) : Prop :=
  o.1 = { o'.1 with numErrors := o.1.numErrors } ∧ o.2 = o'.2

/-- The register frame starts no command, or an NCQ command that its tag's slots hold
already, with nothing received for it. -/
def Repeats (s : SATAReconstructor β) (r : RegisterHtoD) : Prop :=
  ¬ IsNcq r ∧ ¬ IsRegular r ∨
    IsNcq r ∧ NcqPacks s.sectorSize r ∧
      s.ncqTransactionsOutstanding[r.tag]? = some (some r) ∧
      s.ncqDataOutstanding[r.tag]? = some (some (ncqPacket s.sectorSize r))

/-- The second look at a frame and the `DEVICE_IDLE` branch do the same: a DMA Setup comes
from the device, a register frame changes nothing. -/
def LooksIdle (s : SATAReconstructor β) (c : Content β) : Prop :=
  match c.fis with
  | .registerHtoD r => Repeats s r
  | .dmaSetup _ => c.direction = deviceToHost
  | _ => True

/-- Nothing of a burst is left. -/
def NoBurst (s : SATAReconstructor β) : Prop :=
  s.ncqDataLen = 0 ∧ s.ncqDataPackets = [] ∧ s.ncqDmaStack = []

/-! ## The two looks at a frame -/

/-- The object `_handle_unexpected_packet` looks from. -/
def countError (s : SATAReconstructor β) : SATAReconstructor β :=
  { s with numErrors := s.numErrors + 1, state := .deviceIdle }

theorem set_eq_self_iff {α : Type} {l : List α} {i : Nat} {a : α} (h : i < l.length) :
    l.set i a = l ↔ l[i]? = some a := by
  constructor
  · intro he
    rw [← he]
    exact List.getElem?_set_self h
  · intro hg
    obtain ⟨_, hg⟩ := List.getElem?_eq_some_iff.mp hg
    rw [← hg]
    exact List.set_getElem_self h

/-- A register frame that idle would ignore leaves things as they are exactly when it repeats
what is there. -/
theorem register_same_iff {direction : Nat} {r : RegisterHtoD} :
    SameButErrors (handleRegisterHTD (countError s) direction r)
      ({ s with state := .deviceIdle }, .ok none) ↔ Repeats s r := by
  by_cases hn : IsNcq r
  · rw [handleRegisterHTD_ncq hn]
    simp only [Repeats, hn, not_true, false_and, true_and, false_or]
    split
    · rename_i ht
      split
      · rename_i hp
        split
        · rename_i hd
          have ht : r.tag < s.ncqTransactionsOutstanding.length := ht
          have hd : r.tag < s.ncqDataOutstanding.length := hd
          simp only [show NcqPacks s.sectorSize r from hp, true_and]
          rw [← set_eq_self_iff ht, ← set_eq_self_iff hd]
          simp [SameButErrors, storeCommand, countError]
        · rename_i hd
          have hd : s.ncqDataOutstanding[r.tag]? = none := by simpa [countError] using hd
          simp [SameButErrors, hd]
      · rename_i hp
        simp [SameButErrors, show ¬ NcqPacks s.sectorSize r from hp]
    · rename_i ht
      have ht : s.ncqTransactionsOutstanding[r.tag]? = none := by simpa [countError] using ht
      simp [SameButErrors, ht]
  · by_cases hr : IsRegular r
    · have hgrow : r :: s.regularRegisterStack ≠ s.regularRegisterStack := by
        intro h
        simpa using congrArg List.length h
      rw [handleRegisterHTD_regular hr]
      simp only [Repeats, hn, hr, not_true, and_false, false_and, or_false, iff_false]
      split
      · exact fun h => hgrow (congrArg SATAReconstructor.regularRegisterStack h.1)
      · exact fun h => hgrow (congrArg SATAReconstructor.regularRegisterStack h.1)
    · rw [handleRegisterHTD_ignored hn hr]
      simp [SameButErrors, Repeats, hn, hr, countError]

/-- Looking at a frame a second time and looking at it in the idle state. -/
theorem unexpected_same_iff (hc : LeftToState c) :
    SameButErrors (handleUnexpectedPacket s c)
      (processInState { s with state := .deviceIdle } c) ↔ LooksIdle s c := by
  obtain ⟨direction, fis, sataData⟩ := c
  cases fis with
  | registerHtoD r =>
    have hd : ¬ direction = hostToDevice := hc
    have hidle : processInState { s with state := .deviceIdle }
        ⟨direction, .registerHtoD r, sataData⟩ = ({ s with state := .deviceIdle }, .ok none) :=
      if_neg hd
    rw [hidle]
    exact register_same_iff
  | dmaSetup d =>
    show SameButErrors (handleDmaSetup (countError s) d)
      (if direction = deviceToHost then handleDmaSetup { s with state := .deviceIdle } d
        else ({ s with state := .deviceIdle }, .ok none)) ↔ direction = deviceToHost
    split
    · rename_i hd
      simp [SameButErrors, handleDmaSetup, countError, hd]
    · rename_i hd
      simp only [hd, iff_false]
      intro h
      have hgrow : d :: s.ncqDmaStack = s.ncqDmaStack :=
        congrArg SATAReconstructor.ncqDmaStack h.1
      simpa using congrArg List.length hgrow
  | registerDtoH r => exact iff_of_true ⟨rfl, rfl⟩ trivial
  | data => exact iff_of_true ⟨rfl, rfl⟩ trivial
  | dmaActivate a => exact hc.elim
  | bistActivate => exact hc.elim
  | pioSetup p => exact hc.elim
  | setDeviceBits b => exact hc.elim

/-! ## The call -/

theorem processInState_unexpected (h : IsUnexpected s c) :
    processInState s c = handleUnexpectedPacket
      (if WaitsForDma s.state then dropBurst s s.ncqDmaStack.tail else s) c := by
  obtain ⟨hc, hw⟩ := h
  apply processInState_cases
    (fun o => o = handleUnexpectedPacket
      (if WaitsForDma s.state then dropBurst s s.ncqDmaStack.tail else s) c) hc
  case setup => intro d hs; simp [hs, WaitsForDma] at hw
  case idle => intro hs; simp [hs, WaitsForDma] at hw
  case unexpected =>
    intro hs
    rw [if_neg]
    rcases hs with hs | ⟨hs, _⟩ <;> simp [hs, WaitsForDma]
  case burst =>
    intro ha
    rcases hw with hw | hw | hw
    · simp [IsAwaited, hw] at ha
    · simp [IsAwaited, hw.1] at ha
    · exact absurd ha hw.2.1
  case abandon =>
    intro hdma _
    rw [if_pos hdma]
    apply abandonBurst_cases
      (fun o => o = handleUnexpectedPacket (dropBurst s s.ncqDmaStack.tail) c)
    · intro hs
      rcases hw with hw | hw | hw
      · simp [hw, WaitsForDma] at hdma
      · simp [hw.1, WaitsForDma] at hdma
      · exact absurd hs hw.2.2
    · intro d rest hs
      rw [hs]
      rfl
  case regular => intro hs hf; simp [hs, hf, WaitsForDma] at hw

theorem dispatch_leftToState (hc : LeftToState c) : dispatch s c = processInState s c := by
  apply dispatch_cases (fun o => o = processInState s c)
  case inState => exact fun _ => rfl
  case activate =>
    rintro (⟨a, hf⟩ | hf) <;> simp [LeftToState, hf] at hc
  case bits => intro b hf; simp [LeftToState, hf] at hc
  case register => intro r hf hd; simp [LeftToState, hf, hd] at hc
  case status => intro r hf hd; simp [LeftToState, hf, hd] at hc
  case pio => intro p hf; simp [LeftToState, hf] at hc

/-- A register frame leaves the burst alone. -/
theorem register_burst (s : SATAReconstructor β) (direction : Nat) (r : RegisterHtoD) :
    (handleRegisterHTD s direction r).1.ncqDataLen = s.ncqDataLen ∧
      (handleRegisterHTD s direction r).1.ncqDataPackets = s.ncqDataPackets ∧
      (handleRegisterHTD s direction r).1.ncqDmaStack = s.ncqDmaStack := by
  apply handleRegisterHTD_cases (fun o => o.1.ncqDataLen = s.ncqDataLen ∧
    o.1.ncqDataPackets = s.ncqDataPackets ∧ o.1.ncqDmaStack = s.ncqDmaStack) <;>
  intros <;> exact ⟨rfl, rfl, rfl⟩

theorem eq_nil_of_eq_tail {α : Type} {l : List α} (h : l = l.tail) : l = [] := by
  cases l with
  | nil => rfl
  | cons a l => simpa using congrArg List.length h

/-- Outside a DMA wait what is left of a burst stays, so agreement needs that there is
nothing. -/
theorem noBurst_of_same (hc : LeftToState c)
    (h : SameButErrors (handleUnexpectedPacket s c) (processInState (abandon s) c)) :
    NoBurst s := by
  obtain ⟨h, _⟩ := h
  have hlen := congrArg SATAReconstructor.ncqDataLen h
  have hpackets := congrArg SATAReconstructor.ncqDataPackets h
  have hstack := congrArg SATAReconstructor.ncqDmaStack h
  obtain ⟨direction, fis, sataData⟩ := c
  cases fis with
  | registerHtoD r =>
    have hd : ¬ direction = hostToDevice := hc
    have hidle : processInState (abandon s) ⟨direction, .registerHtoD r, sataData⟩ =
        (abandon s, .ok none) := if_neg hd
    have hkeep := register_burst (countError s) direction r
    rw [hidle] at hlen hpackets hstack
    exact ⟨hkeep.1.symm.trans hlen, hkeep.2.1.symm.trans hpackets,
      eq_nil_of_eq_tail (hkeep.2.2.symm.trans hstack)⟩
  | dmaSetup d =>
    have hidle : processInState (abandon s) ⟨direction, .dmaSetup d, sataData⟩ =
        if direction = deviceToHost then handleDmaSetup (abandon s) d
        else (abandon s, .ok none) := rfl
    rw [hidle] at hlen hpackets hstack
    split at hstack
    · rename_i hd
      rw [if_pos hd] at hlen hpackets
      exact ⟨hlen, hpackets, eq_nil_of_eq_tail (List.cons.inj hstack).2⟩
    · have hgrow : d :: s.ncqDmaStack = s.ncqDmaStack.tail := hstack
      have := congrArg List.length hgrow
      simp only [List.length_cons, List.length_tail] at this
      omega
  | registerDtoH r => exact ⟨hlen, hpackets, eq_nil_of_eq_tail hstack⟩
  | data => exact ⟨hlen, hpackets, eq_nil_of_eq_tail hstack⟩
  | dmaActivate a => exact hc.elim
  | bistActivate => exact hc.elim
  | pioSetup p => exact hc.elim
  | setDeviceBits b => exact hc.elim

theorem abandon_of_noBurst (h : NoBurst s) : abandon s = { s with state := .deviceIdle } := by
  obtain ⟨hlen, hpackets, hstack⟩ := h
  simp [abandon, dropBurst, hlen, hpackets, hstack]

/-- **An unexpected frame is handled as if the burst were abandoned first and the reconstructor
idle, apart from the error count, exactly when it is no DMA Setup but from the device and no
register frame that changes something, and, outside the two DMA waits, nothing of a burst is
left.** -/
theorem unexpected_as_idle_iff (s : SATAReconstructor β) (f : PhysicalPacket β)
    (h : IsUnexpected (arrive s f) f.toContent) :
    SameButErrors (processPacket s f) (asIdle s f) ↔
      LooksIdle (arrive s f) f.toContent ∧
        (WaitsForDma (arrive s f).state ∨ NoBurst (arrive s f)) := by
  have hc := h.1
  unfold processPacket asIdle
  rw [dispatch_leftToState hc, processInState_unexpected h]
  by_cases hw : WaitsForDma (arrive s f).state
  · rw [if_pos hw]
    simp only [hw, true_or, and_true]
    exact unexpected_same_iff (s := dropBurst (arrive s f) (arrive s f).ncqDmaStack.tail) hc
  · rw [if_neg hw]
    simp only [hw, false_or]
    constructor
    · intro hsame
      have hno := noBurst_of_same hc hsame
      rw [abandon_of_noBurst hno] at hsame
      exact ⟨(unexpected_same_iff hc).mp hsame, hno⟩
    · rintro ⟨hlook, hno⟩
      rw [abandon_of_noBurst hno]
      exact (unexpected_same_iff hc).mpr hlook

/-- A queued read of one sector by tag 3 and its DMA Setup. -/
def setUp : List (PhysicalPacket UInt8) :=
  [ { lophiSeqn := 1, direction := hostToDevice,
      fis := .registerHtoD { C := 1, command := readFPDMAQueued, features := 1, tag := 3 } },
    { lophiSeqn := 2, direction := deviceToHost,
      fis := .dmaSetup { directionBit := 1, dmaBufIdentifierLow := 3, transferCount := 4 } } ]

/-- Another DMA Setup, sent by the given side. -/
def setupFrom (direction : Nat) : PhysicalPacket UInt8 where
  lophiSeqn := 3
  direction := direction
  fis := .dmaSetup { directionBit := 1, dmaBufIdentifierLow := 5, transferCount := 4 }

/-- A second setup from the device interrupts the first burst as it would from idle. -/
theorem deviceSetup_as_idle :
    IsUnexpected (arrive (run processPacket (init 4) setUp) (setupFrom deviceToHost))
        (setupFrom deviceToHost).toContent ∧
      SameButErrors (processPacket (run processPacket (init 4) setUp) (setupFrom deviceToHost))
        (asIdle (run processPacket (init 4) setUp) (setupFrom deviceToHost)) := by
  have hun : IsUnexpected (arrive (run processPacket (init 4) setUp) (setupFrom deviceToHost))
      (setupFrom deviceToHost).toContent :=
    ⟨trivial, .inr (.inr ⟨by decide, by decide, by decide⟩)⟩
  exact ⟨hun, (unexpected_as_idle_iff _ _ hun).mpr ⟨rfl, .inl (by decide)⟩⟩

/-- A setup from the host, which idle ignores, makes the reconstructor wait for a transfer. -/
theorem hostSetup_not_as_idle :
    IsUnexpected (arrive (run processPacket (init 4) setUp) (setupFrom hostToDevice))
        (setupFrom hostToDevice).toContent ∧
      (processPacket (run processPacket (init 4) setUp) (setupFrom hostToDevice)).1.state =
        .waitForDmaDataDevice ∧
      (asIdle (run processPacket (init 4) setUp) (setupFrom hostToDevice)).1.state =
        .deviceIdle ∧
      ¬ SameButErrors (processPacket (run processPacket (init 4) setUp) (setupFrom hostToDevice))
        (asIdle (run processPacket (init 4) setUp) (setupFrom hostToDevice)) := by
  refine ⟨⟨trivial, .inr (.inr ⟨by decide, by decide, by decide⟩)⟩, by decide, by decide, ?_⟩
  intro h
  have hstate := congrArg SATAReconstructor.state h.1
  exact absurd hstate (by decide)

end LoPhi.Sata.Unexpected
