import LoPhi.Sata.Reconstructor
import LoPhi.Lib.Machine

/-! # What one call can do

One rule for each function of the reconstructor: to prove something of its
result, prove it of each thing it can do, with the guards under which it does
it. Invariants and simulations are proved through these rules, so the
branching of the source is analysed once. -/

namespace LoPhi.Sata.Step
open LoPhi.Lib.Python LoPhi.Lib.Machine LoPhi.Sata.Frame LoPhi.Sata.Reconstructor

variable {β : Type} {s : SATAReconstructor β} {c : Content β}

/-- The frames that make the reconstructor drop all NCQ state: a Set Device
Bits that reports an error or aborts every command, a device register frame
that reports an error. -/
def ResetsNcq (c : Content β) : Prop :=
  match c.fis with
  | .setDeviceBits b => b.statusLo &&& 1 = 1 ∨ b.interrupt = 1 ∧ b.proto = 0xffffffff
  | .registerDtoH r => c.direction = deviceToHost ∧ r.status &&& 1 = 1
  | _ => False

instance : DecidablePred (ResetsNcq (β := β)) := fun c =>
  match h : c.fis with
  | .setDeviceBits b => decidable_of_iff (b.statusLo &&& 1 = 1 ∨ b.interrupt = 1 ∧
      b.proto = 0xffffffff) (by simp [ResetsNcq, h])
  | .registerDtoH r => decidable_of_iff (c.direction = deviceToHost ∧ r.status &&& 1 = 1)
      (by simp [ResetsNcq, h])
  | .registerHtoD _ | .dmaActivate _ | .dmaSetup _ | .data | .bistActivate | .pioSetup _ =>
    isFalse (by simp [ResetsNcq, h])

theorem handleSetDeviceBits_eq {b : SetDeviceBits} (h : c.fis = .setDeviceBits b) :
    handleSetDeviceBits s b = (if ResetsNcq c then resetNcq s else s, .ok none) := by
  simp only [handleSetDeviceBits, ResetsNcq, h]
  split
  · rename_i he; rw [if_pos (.inl he)]
  · rename_i he
    split
    · rename_i ha; rw [if_pos (.inr ha)]
    · rename_i ha; rw [if_neg (not_or.mpr ⟨he, ha⟩)]

theorem handleNcqRegisterDTH_eq {r : RegisterDtoH} (h : c.fis = .registerDtoH r)
    (hd : c.direction = deviceToHost) :
    handleNcqRegisterDTH s r = (if ResetsNcq c then resetNcq s else s, .ok none) := by
  simp only [handleNcqRegisterDTH, ResetsNcq, h, hd, true_and]
  split <;> rfl

/-! ## Register frames -/

/-- An NCQ read or write command. -/
def IsNcq (r : RegisterHtoD) : Prop :=
  r.C ≠ 0 ∧ (r.command = readFPDMAQueued ∨ r.command = writeFPDMAQueued)

/-- A command outside NCQ. -/
def IsRegular (r : RegisterHtoD) : Prop :=
  r.C ≠ 0 ∧ ¬ (r.command = readFPDMAQueued ∨ r.command = writeFPDMAQueued) ∧
    r.command ≠ ncqQueueManagement

instance : DecidablePred IsNcq := fun _ => inferInstanceAs (Decidable (_ ∧ _))
instance : DecidablePred IsRegular := fun _ => inferInstanceAs (Decidable (_ ∧ _))

theorem IsNcq.not_regular {r : RegisterHtoD} (h : IsNcq r) : ¬ IsRegular r :=
  fun hr => hr.2.1 h.2

/-- The operation an NCQ command is reported as. -/
def ncqOperation (r : RegisterHtoD) : Nat :=
  if r.command = writeFPDMAQueued then directionWrite else directionRead

/-- The packet an NCQ command starts. The sector count is in `features`. -/
def ncqPacket (n : Nat) (r : RegisterHtoD) : DiskSensorPacket β where
  sector := r.lba
  numSectors := r.features
  diskOperation := ncqOperation r
  size := r.features * n
  data := []

/-- The packet a command outside NCQ starts. -/
def regularPacket (n direction : Nat) (r : RegisterHtoD) : DiskSensorPacket β where
  sector := r.lba
  numSectors := r.count
  diskOperation := direction
  size := r.count * n
  data := []

/-- The fields of the packet an NCQ command starts can be assigned. -/
def NcqPacks (n : Nat) (r : RegisterHtoD) : Prop :=
  Packs r.lba r.features (ncqOperation r) (r.features * n)

/-- The same for a command outside NCQ. -/
def RegularPacks (n direction : Nat) (r : RegisterHtoD) : Prop :=
  Packs r.lba r.count direction (r.count * n)

instance (n : Nat) : DecidablePred (NcqPacks n) := fun _ => inferInstanceAs (Decidable (Packs ..))
instance (n d : Nat) : DecidablePred (RegularPacks n d) :=
  fun _ => inferInstanceAs (Decidable (Packs ..))

/-- The object with the register frame of a tag stored. -/
def storeRegister (s : SATAReconstructor β) (r : RegisterHtoD) : SATAReconstructor β :=
  { s with ncqTransactionsOutstanding := s.ncqTransactionsOutstanding.set r.tag (some r) }

/-- The object with the register frame and the new packet of a tag stored. -/
def storeCommand (s : SATAReconstructor β) (r : RegisterHtoD) : SATAReconstructor β :=
  { s with
    ncqTransactionsOutstanding := s.ncqTransactionsOutstanding.set r.tag (some r)
    ncqDataOutstanding := s.ncqDataOutstanding.set r.tag (some (ncqPacket s.sectorSize r)) }

theorem handleRegisterHTD_ignored {direction : Nat} {r : RegisterHtoD}
    (hn : ¬ IsNcq r) (hr : ¬ IsRegular r) :
    handleRegisterHTD s direction r = (s, .ok none) := by
  unfold handleRegisterHTD
  split
  · rfl
  · rename_i hC
    rw [if_neg (fun h => hn ⟨hC, h⟩), if_pos]
    exact not_not.mp fun h => hr ⟨hC, fun h' => hn ⟨hC, h'⟩, h⟩

theorem handleRegisterHTD_ncq {direction : Nat} {r : RegisterHtoD} (h : IsNcq r) :
    handleRegisterHTD s direction r =
      if r.tag < s.ncqTransactionsOutstanding.length then
        if NcqPacks s.sectorSize r then
          if r.tag < s.ncqDataOutstanding.length then (storeCommand s r, .ok none)
          else (storeRegister s r, .error .indexOutOfRange)
        else (storeRegister s r, .error .structError)
      else (s, .error .indexOutOfRange) := by
  unfold handleRegisterHTD
  rw [if_neg h.1, if_pos h.2]
  dsimp only
  split
  · by_cases hp : NcqPacks s.sectorSize r
    · have hn : newDiskSensorPacket (β := β) r.lba r.features (ncqOperation r)
          (r.features * s.sectorSize) = .ok (ncqPacket s.sectorSize r) := if_pos hp
      rw [if_pos hp]
      unfold ncqOperation at hn
      simp only [hn]
      rfl
    · have hn : newDiskSensorPacket (β := β) r.lba r.features (ncqOperation r)
          (r.features * s.sectorSize) = .error .structError := if_neg hp
      rw [if_neg hp]
      unfold ncqOperation at hn
      simp only [hn]
      rfl
  · rfl

theorem handleRegisterHTD_regular {direction : Nat} {r : RegisterHtoD} (h : IsRegular r) :
    handleRegisterHTD s direction r =
      if RegularPacks s.sectorSize direction r then
        ({ s with
          regularRegisterStack := r :: s.regularRegisterStack
          regularDiskSensorPacket := .packet (regularPacket s.sectorSize direction r)
          state := .waitForNonNcqData }, .ok none)
      else
        ({ s with
          regularRegisterStack := r :: s.regularRegisterStack
          regularDiskSensorPacket := .unset }, .error .structError) := by
  unfold handleRegisterHTD
  rw [if_neg h.1, if_neg h.2.1, if_neg h.2.2]
  dsimp only
  by_cases hp : RegularPacks s.sectorSize direction r
  · have hn : newDiskSensorPacket (β := β) r.lba r.count direction (r.count * s.sectorSize) =
        .ok (regularPacket s.sectorSize direction r) := if_pos hp
    simp only [hn, if_pos hp]
  · have hn : newDiskSensorPacket (β := β) r.lba r.count direction (r.count * s.sectorSize) =
        .error .structError := if_neg hp
    simp only [hn, if_neg hp]

/-- What a register frame can do. -/
theorem handleRegisterHTD_cases (Q : Call β → Prop) {direction : Nat} {r : RegisterHtoD}
    (ignored : ¬ IsNcq r → ¬ IsRegular r → Q (s, .ok none))
    (outOfRange : IsNcq r → ¬ r.tag < s.ncqTransactionsOutstanding.length →
      Q (s, .error .indexOutOfRange))
    (queued : IsNcq r → NcqPacks s.sectorSize r → r.tag < s.ncqTransactionsOutstanding.length →
      r.tag < s.ncqDataOutstanding.length → Q (storeCommand s r, .ok none))
    (half : ∀ e, e ≠ .popFromEmptyList → IsNcq r →
      r.tag < s.ncqTransactionsOutstanding.length →
      ¬ (NcqPacks s.sectorSize r ∧ r.tag < s.ncqDataOutstanding.length) →
      Q (storeRegister s r, .error e))
    (regular : IsRegular r → RegularPacks s.sectorSize direction r →
      Q ({ s with
        regularRegisterStack := r :: s.regularRegisterStack
        regularDiskSensorPacket := .packet (regularPacket s.sectorSize direction r)
        state := .waitForNonNcqData }, .ok none))
    (unpacked : IsRegular r → ¬ RegularPacks s.sectorSize direction r →
      Q ({ s with
        regularRegisterStack := r :: s.regularRegisterStack
        regularDiskSensorPacket := .unset }, .error .structError)) :
    Q (handleRegisterHTD s direction r) := by
  by_cases hn : IsNcq r
  · rw [handleRegisterHTD_ncq hn]
    split
    · rename_i ht
      split
      · rename_i hp
        split
        · rename_i hd; exact queued hn hp ht hd
        · rename_i hd; exact half _ (by decide) hn ht (fun h => hd h.2)
      · rename_i hp; exact half _ (by decide) hn ht (fun h => hp h.1)
    · rename_i ht; exact outOfRange hn ht
  · by_cases hr : IsRegular r
    · rw [handleRegisterHTD_regular hr]
      split
      · rename_i hp; exact regular hr hp
      · rename_i hp; exact unpacked hr hp
    · rw [handleRegisterHTD_ignored hn hr]; exact ignored hn hr

/-! ## Data frames of a burst -/

/-- The object with one more data frame of the burst buffered. -/
def buffer (s : SATAReconstructor β) (sataData : List β) : SATAReconstructor β :=
  { s with
    ncqDataPackets := s.ncqDataPackets ++ [sataData]
    ncqDataLen := s.ncqDataLen + (payload sataData).length }

/-- A packet with the payload of buffered frames added. -/
def extend (p : DiskSensorPacket β) (frames : List (List β)) : DiskSensorPacket β :=
  { p with data := p.data ++ (frames.map payload).flatten }

/-- The object after a burst, the entry of its tag given. -/
def closeBurst (s : SATAReconstructor β) (tag : Nat) (rest : List DmaSetup)
    (entry : Option (DiskSensorPacket β)) : SATAReconstructor β :=
  { s with
    ncqDataOutstanding := s.ncqDataOutstanding.set tag entry
    ncqDataLen := 0
    ncqDataPackets := []
    ncqDmaStack := rest
    state := .deviceIdle }

/-- The object after the burst that completes the command of a tag. -/
def finishCommand (s : SATAReconstructor β) (tag : Nat) (rest : List DmaSetup) :
    SATAReconstructor β :=
  { closeBurst s tag rest none with
    ncqTransactionsOutstanding := s.ncqTransactionsOutstanding.set tag none }

theorem handleNcqDataPacket_nil {sataData : List β} (hs : s.ncqDmaStack = []) :
    handleNcqDataPacket s sataData = (s, .ok none) := by
  unfold handleNcqDataPacket
  rw [hs]

theorem handleNcqDataPacket_cons {sataData : List β} {d : DmaSetup} {rest : List DmaSetup}
    (hs : s.ncqDmaStack = d :: rest) :
    handleNcqDataPacket s sataData =
      match s.ncqTransactionsOutstanding[d.dmaBufIdentifierLow]? with
      | none => (s, .error .indexOutOfRange)
      | some none => (s, .ok none)
      | some (some _) =>
        if d.transferCount ≤ (buffer s sataData).ncqDataLen then
          match s.ncqDataOutstanding[d.dmaBufIdentifierLow]? with
          | none => (buffer s sataData, .error .indexOutOfRange)
          | some none => (buffer s sataData, .error .attributeError)
          | some (some p) =>
            if p.size ≤ (extend p (buffer s sataData).ncqDataPackets).data.length then
              (finishCommand s d.dmaBufIdentifierLow rest,
                .ok (some [extend p (buffer s sataData).ncqDataPackets]))
            else
              (closeBurst s d.dmaBufIdentifierLow rest
                (some (extend p (buffer s sataData).ncqDataPackets)), .ok none)
        else (buffer s sataData, .ok none) := by
  unfold handleNcqDataPacket
  simp only [hs, List.set_set, buffer, extend, finishCommand, closeBurst]
  rfl

/-- What a data frame does while a DMA transfer is expected. -/
theorem handleNcqDataPacket_cases (Q : Call β → Prop) {sataData : List β}
    (noSetup : s.ncqDmaStack = [] → Q (s, .ok none))
    (outOfRange : ∀ d rest, s.ncqDmaStack = d :: rest →
      s.ncqTransactionsOutstanding[d.dmaBufIdentifierLow]? = none →
      Q (s, .error .indexOutOfRange))
    (unknown : ∀ d rest, s.ncqDmaStack = d :: rest →
      s.ncqTransactionsOutstanding[d.dmaBufIdentifierLow]? = some none → Q (s, .ok none))
    (buffered : ∀ d rest r, s.ncqDmaStack = d :: rest →
      s.ncqTransactionsOutstanding[d.dmaBufIdentifierLow]? = some (some r) →
      ¬ d.transferCount ≤ (buffer s sataData).ncqDataLen → Q (buffer s sataData, .ok none))
    (noPacket : ∀ d rest r e, e ≠ .popFromEmptyList → s.ncqDmaStack = d :: rest →
      s.ncqTransactionsOutstanding[d.dmaBufIdentifierLow]? = some (some r) →
      (∀ p, s.ncqDataOutstanding[d.dmaBufIdentifierLow]? ≠ some (some p)) →
      Q (buffer s sataData, .error e))
    (burst : ∀ d rest r p, s.ncqDmaStack = d :: rest →
      s.ncqTransactionsOutstanding[d.dmaBufIdentifierLow]? = some (some r) →
      s.ncqDataOutstanding[d.dmaBufIdentifierLow]? = some (some p) →
      d.transferCount ≤ (buffer s sataData).ncqDataLen →
      ¬ p.size ≤ (extend p (buffer s sataData).ncqDataPackets).data.length →
      Q (closeBurst s d.dmaBufIdentifierLow rest
        (some (extend p (buffer s sataData).ncqDataPackets)), .ok none))
    (command : ∀ d rest r p, s.ncqDmaStack = d :: rest →
      s.ncqTransactionsOutstanding[d.dmaBufIdentifierLow]? = some (some r) →
      s.ncqDataOutstanding[d.dmaBufIdentifierLow]? = some (some p) →
      d.transferCount ≤ (buffer s sataData).ncqDataLen →
      p.size ≤ (extend p (buffer s sataData).ncqDataPackets).data.length →
      Q (finishCommand s d.dmaBufIdentifierLow rest,
        .ok (some [extend p (buffer s sataData).ncqDataPackets]))) :
    Q (handleNcqDataPacket s sataData) := by
  cases h : s.ncqDmaStack with
  | nil => rw [handleNcqDataPacket_nil h]; exact noSetup h
  | cons d rest =>
    rw [handleNcqDataPacket_cons h]
    split
    · rename_i ht; exact outOfRange d rest h ht
    · rename_i ht; exact unknown d rest h ht
    · rename_i r ht
      split
      · rename_i hc
        split
        · rename_i hp; exact noPacket d rest r _ (by decide) h ht (by simp [hp])
        · rename_i hp; exact noPacket d rest r _ (by decide) h ht (by simp [hp])
        · rename_i p hp
          split
          · rename_i hs; exact command d rest r p h ht hp hc hs
          · rename_i hs; exact burst d rest r p h ht hp hc hs
      · rename_i hc; exact buffered d rest r h ht hc

/-! ## Data frames outside NCQ -/

theorem handleNonNcqDataPacket_nil {direction : Nat} {sataData : List β}
    (hs : s.regularRegisterStack = []) :
    handleNonNcqDataPacket s direction sataData = (s, .ok none) := by
  unfold handleNonNcqDataPacket
  rw [hs]

theorem handleNonNcqDataPacket_ne {direction : Nat} {sataData : List β}
    (hs : s.regularRegisterStack ≠ []) :
    handleNonNcqDataPacket s direction sataData =
      match s.regularDiskSensorPacket with
      | .none => (s, .error .attributeError)
      | .unset => (s, .error .typeError)
      | .packet p =>
        if p.size ≤ (extend p [sataData]).data.length then
          ({ s with regularDiskSensorPacket := .none, state := .deviceIdle },
            .ok (some [{ extend p [sataData] with direction := some direction }]))
        else ({ s with regularDiskSensorPacket := .packet (extend p [sataData]) }, .ok none) := by
  unfold handleNonNcqDataPacket
  split
  · rename_i h; exact absurd h hs
  · cases s.regularDiskSensorPacket with
    | none => rfl
    | unset => rfl
    | packet p => simp [extend]

/-- What a data frame does while a command outside NCQ is served. -/
theorem handleNonNcqDataPacket_cases (Q : Call β → Prop) {direction : Nat} {sataData : List β}
    (ignored : s.regularRegisterStack = [] → Q (s, .ok none))
    (missing : s.regularRegisterStack ≠ [] → s.regularDiskSensorPacket = .none →
      Q (s, .error .attributeError))
    (unset : s.regularRegisterStack ≠ [] → s.regularDiskSensorPacket = .unset →
      Q (s, .error .typeError))
    (added : ∀ p, s.regularRegisterStack ≠ [] → s.regularDiskSensorPacket = .packet p →
      ¬ p.size ≤ (extend p [sataData]).data.length →
      Q ({ s with regularDiskSensorPacket := .packet (extend p [sataData]) }, .ok none))
    (command : ∀ p, s.regularRegisterStack ≠ [] → s.regularDiskSensorPacket = .packet p →
      p.size ≤ (extend p [sataData]).data.length →
      Q ({ s with regularDiskSensorPacket := .none, state := .deviceIdle },
        .ok (some [{ extend p [sataData] with direction := some direction }]))) :
    Q (handleNonNcqDataPacket s direction sataData) := by
  by_cases h : s.regularRegisterStack = []
  · rw [handleNonNcqDataPacket_nil h]; exact ignored h
  · rw [handleNonNcqDataPacket_ne h]
    split
    · rename_i hp; exact missing h hp
    · rename_i hp; exact unset h hp
    · rename_i p hp
      split
      · rename_i hs; exact command p h hp hs
      · rename_i hs; exact added p h hp hs

/-! ## process_packet -/

/-- The frame is left to the switch over `STATE`. -/
def LeftToState (c : Content β) : Prop :=
  match c.fis with
  | .registerHtoD _ => c.direction ≠ hostToDevice
  | .registerDtoH _ => c.direction ≠ deviceToHost
  | .dmaSetup _ => True
  | .data => True
  | _ => False

/-- `STATE` is one of the two that wait for the data of a DMA transfer. -/
def WaitsForDma (st : State) : Prop := st = .waitForDmaDataDevice ∨ st = .waitForDmaDataHost

/-- The data frame `STATE` waits for. -/
def IsAwaited (st : State) (c : Content β) : Prop :=
  c.fis = .data ∧ (st = .waitForDmaDataDevice ∧ c.direction = deviceToHost ∨
    st = .waitForDmaDataHost ∧ c.direction = hostToDevice)

instance : DecidablePred WaitsForDma := fun _ => inferInstanceAs (Decidable (_ ∨ _))
instance (st : State) : DecidablePred (IsAwaited (β := β) st) :=
  fun _ => inferInstanceAs (Decidable (_ ∧ _))

theorem IsAwaited.waits {st : State} (h : IsAwaited st c) : WaitsForDma st := by
  rcases h.2 with h | h
  · exact .inl h.1
  · exact .inr h.1

/-- The register frame a call hands to `handle_register_HTD`: a host frame
always, a frame that claims to come from the device only where it is an
unexpected one, and then only if the abandoned burst has a setup to pop. -/
def Handed (s : SATAReconstructor β) (c : Content β) (r : RegisterHtoD) : Prop :=
  c.fis = .registerHtoD r ∧ (c.direction = hostToDevice ∨ s.state = .waitForRegisterAck ∨
    s.state = .waitForNonNcqData ∨ WaitsForDma s.state ∧ s.ncqDmaStack ≠ [])

instance (s : SATAReconstructor β) (c : Content β) (r : RegisterHtoD) :
    Decidable (Handed s c r) := inferInstanceAs (Decidable (_ ∧ _))

theorem not_handed_idle {r : RegisterHtoD} (hc : LeftToState c) (hst : s.state = .deviceIdle) :
    ¬ Handed s c r := by
  rintro ⟨hf, hd | hd | hd | ⟨hd, _⟩⟩
  · simp [LeftToState, hf, hd] at hc
  all_goals simp [hst, WaitsForDma] at hd

theorem not_handed_empty {r : RegisterHtoD} (hc : LeftToState c) (hw : WaitsForDma s.state)
    (hs : s.ncqDmaStack = []) : ¬ Handed s c r := by
  rintro ⟨hf, hd | hd | hd | ⟨_, hd⟩⟩
  · simp [LeftToState, hf, hd] at hc
  · rcases hw with hw | hw <;> simp [hw] at hd
  · rcases hw with hw | hw <;> simp [hw] at hd
  · exact hd hs

theorem handed_of_unexpected {r : RegisterHtoD} (hf : c.fis = .registerHtoD r)
    (hst : s.state = .waitForRegisterAck ∨ s.state = .waitForNonNcqData ∧ c.fis ≠ .data) :
    Handed s c r := by
  rcases hst with hst | ⟨hst, _⟩ <;> simp [Handed, hf, hst]

theorem handed_of_popped {r : RegisterHtoD} {d : DmaSetup} {rest : List DmaSetup}
    (hf : c.fis = .registerHtoD r) (hw : WaitsForDma s.state) (hs : s.ncqDmaStack = d :: rest) :
    Handed s c r := ⟨hf, .inr (.inr (.inr ⟨hw, by simp [hs]⟩))⟩

theorem Handed.unique {r r' : RegisterHtoD} (h : Handed s c r) (h' : Handed s c r') : r = r' := by
  have := h.1.symm.trans h'.1
  simpa using this

/-- What the switch over `STATE` can do. -/
theorem processInState_cases (Q : Call β → Prop) (hc : LeftToState c)
    (setup : ∀ d, s.state = .deviceIdle → c.fis = .dmaSetup d → c.direction = deviceToHost →
      Q (handleDmaSetup s d))
    (idle : s.state = .deviceIdle →
      (∀ d, c.fis = .dmaSetup d → c.direction ≠ deviceToHost) → Q (s, .ok none))
    (unexpected : s.state = .waitForRegisterAck ∨ s.state = .waitForNonNcqData ∧ c.fis ≠ .data →
      Q (handleUnexpectedPacket s c))
    (burst : IsAwaited s.state c → Q (handleNcqDataPacket s c.sataData))
    (abandon : WaitsForDma s.state → ¬ IsAwaited s.state c → Q (abandonBurst s c))
    (regular : s.state = .waitForNonNcqData → c.fis = .data →
      Q (handleNonNcqDataPacket s c.direction c.sataData)) :
    Q (processInState s c) := by
  unfold processInState
  split
  · rename_i hs
    split
    · rename_i r hf
      have hne : c.direction ≠ hostToDevice := by simpa [LeftToState, hf] using hc
      rw [if_neg hne]; exact idle hs (by simp [hf])
    · rename_i d hf
      split
      · rename_i hd; exact setup d hs hf hd
      · rename_i hd; exact idle hs (fun _ _ => hd)
    · rename_i hf _; exact idle hs (fun d h => absurd h (by simp_all))
  · rename_i hs
    split
    · rename_i r hf
      have hne : c.direction ≠ deviceToHost := by simpa [LeftToState, hf] using hc
      rw [if_neg hne]; exact unexpected (.inl hs)
    · exact unexpected (.inl hs)
  · rename_i hs
    split
    · rename_i h; exact burst ⟨h.2, .inl ⟨hs, h.1⟩⟩
    · rename_i h
      exact abandon (.inl hs) (fun ha => h ⟨by simpa [IsAwaited, hs] using ha.2, ha.1⟩)
  · rename_i hs
    split
    · rename_i h; exact burst ⟨h.2, .inr ⟨hs, h.1⟩⟩
    · rename_i h
      exact abandon (.inr hs) (fun ha => h ⟨by simpa [IsAwaited, hs] using ha.2, ha.1⟩)
  · rename_i hs
    split
    · rename_i h; exact regular hs h
    · rename_i h; exact unexpected (.inr ⟨hs, h⟩)

/-- What the dispatch after the sequence check can do. -/
theorem dispatch_cases (Q : Call β → Prop)
    (activate : (∃ a, c.fis = .dmaActivate a) ∨ c.fis = .bistActivate → Q (s, .ok none))
    (bits : ∀ b, c.fis = .setDeviceBits b → Q (handleSetDeviceBits s b))
    (register : ∀ r, c.fis = .registerHtoD r → c.direction = hostToDevice →
      Q (handleRegisterHTD s c.direction r))
    (status : ∀ r, c.fis = .registerDtoH r → c.direction = deviceToHost →
      Q (handleNcqRegisterDTH s r))
    (pio : ∀ p, c.fis = .pioSetup p → Q (handlePioSetup s))
    (inState : LeftToState c → Q (processInState s c)) :
    Q (dispatch s c) := by
  unfold dispatch
  split
  · rename_i a h; exact activate (.inl ⟨a, h⟩)
  · rename_i h; exact activate (.inr h)
  · rename_i b h; exact bits b h
  · rename_i r h
    split
    · rename_i hd; exact register r h hd
    · rename_i hd; exact inState (by simpa [LeftToState, h] using hd)
  · rename_i r h
    split
    · rename_i hd; exact status r h hd
    · rename_i hd; exact inState (by simpa [LeftToState, h] using hd)
  · rename_i p h; exact pio p h
  · rename_i d h; exact inState (by simp [LeftToState, h])
  · rename_i h; exact inState (by simp [LeftToState, h])

/-- An unexpected frame is handled from the idle state. -/
theorem handleUnexpectedPacket_cases (Q : Call β → Prop)
    (register : ∀ r, c.fis = .registerHtoD r →
      Q (handleRegisterHTD { s with numErrors := s.numErrors + 1, state := .deviceIdle }
        c.direction r))
    (setup : ∀ d, c.fis = .dmaSetup d →
      Q (handleDmaSetup { s with numErrors := s.numErrors + 1, state := .deviceIdle } d))
    (other : (∀ r, c.fis ≠ .registerHtoD r) → (∀ d, c.fis ≠ .dmaSetup d) →
      Q ({ s with numErrors := s.numErrors + 1, state := .deviceIdle }, .ok none)) :
    Q (handleUnexpectedPacket s c) := by
  unfold handleUnexpectedPacket
  dsimp only
  split
  · rename_i r h; exact register r h
  · rename_i d h; exact setup d h
  · rename_i hr hd; exact other hr hd

/-- The object with the burst dropped and the given setups left. -/
def dropBurst (s : SATAReconstructor β) (rest : List DmaSetup) : SATAReconstructor β :=
  { s with ncqDataLen := 0, ncqDataPackets := [], ncqDmaStack := rest }

/-- The wrong frame during a transfer: the burst goes, and without a setup to
pop the call raises. -/
theorem abandonBurst_cases (Q : Call β → Prop)
    (empty : s.ncqDmaStack = [] → Q (dropBurst s [], .error .popFromEmptyList))
    (popped : ∀ d rest, s.ncqDmaStack = d :: rest →
      Q (handleUnexpectedPacket (dropBurst s rest) c)) :
    Q (abandonBurst s c) := by
  unfold abandonBurst
  dsimp only
  split
  · rename_i h
    have := empty h
    rwa [dropBurst, ← h] at this
  · rename_i d rest h; exact popped d rest h

/-! ## What no handler changes -/

/-- `t` has the sector size, the sequence number and the frame count of `s`, and
its tag tables keep their 32 entries. -/
structure Keeps (s t : SATAReconstructor β) : Prop where
  sectorSize : t.sectorSize = s.sectorSize
  lastPacketSeqno : t.lastPacketSeqno = s.lastPacketSeqno
  totalFrames : t.totalFrames = s.totalFrames
  transactions : s.ncqTransactionsOutstanding.length = 32 →
    t.ncqTransactionsOutstanding.length = 32
  data : s.ncqDataOutstanding.length = 32 → t.ncqDataOutstanding.length = 32

theorem Keeps.refl (s : SATAReconstructor β) : Keeps s s := ⟨rfl, rfl, rfl, id, id⟩

theorem keeps_resetNcq : Keeps s (resetNcq s) :=
  ⟨rfl, rfl, rfl, fun _ => List.length_replicate, fun _ => List.length_replicate⟩

theorem keeps_register (t : SATAReconstructor β) (direction : Nat) (r : RegisterHtoD)
    (h : Keeps s t) : Keeps s (handleRegisterHTD t direction r).1 := by
  obtain ⟨h1, h2, h3, h4, h5⟩ := h
  apply handleRegisterHTD_cases (fun o => Keeps s o.1) <;> intros <;>
    constructor <;> simp_all [storeCommand, storeRegister]

theorem keeps_unexpected (t : SATAReconstructor β) (h : Keeps s t) :
    Keeps s (handleUnexpectedPacket t c).1 := by
  obtain ⟨h1, h2, h3, h4, h5⟩ := h
  apply handleUnexpectedPacket_cases (fun o => Keeps s o.1)
  · intro r _; exact keeps_register _ _ _ ⟨h1, h2, h3, h4, h5⟩
  · intro d _; exact ⟨h1, h2, h3, h4, h5⟩
  · intro _ _; exact ⟨h1, h2, h3, h4, h5⟩

theorem keeps_dispatch : Keeps s (dispatch s c).1 := by
  have hs := Keeps.refl s
  have hn := keeps_resetNcq (s := s)
  apply dispatch_cases (fun o => Keeps s o.1)
  case activate => intro _; exact hs
  case bits => intro b hb; rw [handleSetDeviceBits_eq hb]; split <;> assumption
  case register => intro r _ _; exact keeps_register _ _ _ hs
  case status => intro r hr hd; rw [handleNcqRegisterDTH_eq hr hd]; split <;> assumption
  case pio => intro p _; exact ⟨rfl, rfl, rfl, id, id⟩
  case inState =>
    intro hc
    apply processInState_cases (fun o => Keeps s o.1) hc
    case setup => intros; exact ⟨rfl, rfl, rfl, id, id⟩
    case idle => intros; exact hs
    case unexpected => intro _; exact keeps_unexpected s hs
    case burst =>
      intro _
      apply handleNcqDataPacket_cases (fun o => Keeps s o.1) <;> intros <;>
        constructor <;> simp_all [buffer, closeBurst, finishCommand]
    case abandon =>
      intro _ _
      apply abandonBurst_cases (fun o => Keeps s o.1)
      · intro _; exact ⟨rfl, rfl, rfl, id, id⟩
      · intro d rest _; exact keeps_unexpected _ ⟨rfl, rfl, rfl, id, id⟩
    case regular =>
      intro _ _
      apply handleNonNcqDataPacket_cases (fun o => Keeps s o.1) <;> intros <;>
        exact ⟨rfl, rfl, rfl, id, id⟩

theorem sectorSize_arrive (f : PhysicalPacket β) : (arrive s f).sectorSize = s.sectorSize := by
  unfold arrive checkSequence
  split <;> rfl

theorem sectorSize_run (fs : List (PhysicalPacket β)) :
    (run processPacket s fs).sectorSize = s.sectorSize := by
  induction fs generalizing s with
  | nil => rfl
  | cons f fs ih => rw [run_cons, ih, processPacket, keeps_dispatch.sectorSize, sectorSize_arrive]

end LoPhi.Sata.Step
