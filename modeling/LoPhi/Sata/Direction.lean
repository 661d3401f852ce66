import LoPhi.Sata.Slots
import LoPhi.Sata.Sequence

/-! # The direction of a reported access

The operation of a queued command is taken from its command code, and its data
is awaited in the direction of the DMA Setup. The operation of a command
outside NCQ is taken from the direction its register frame travelled in. When
such a command completes, the direction of the data is stored under another
name, and the assignment to `disk_operation` is commented out. So a write
outside NCQ, whose register frame comes from the host like any other, is
reported as a read. -/

namespace LoPhi.Sata.Direction
open LoPhi.Lib.Python LoPhi.Lib.Machine
open LoPhi.Sata.Frame LoPhi.Sata.Reconstructor LoPhi.Sata.Step LoPhi.Sata.Slots

variable {β : Type} {s : SATAReconstructor β} {c : Content β} {n : Nat}
  {fs : List (PhysicalPacket β)}

/-- What an access should be reported as when its last data travelled so. -/
def operationOf (direction : Nat) : Nat :=
  if direction = hostToDevice then directionWrite else directionRead

/-- The setup announces the direction the command asks for. -/
def Agrees (d : DmaSetup) (r : RegisterHtoD) : Prop :=
  d.directionBit = hostToDevice ↔ r.command = writeFPDMAQueued

/-! ## The wait state and the setup on top -/

/-- While `STATE` waits for DMA data, it waits for the data of the setup on top of
the stack, if there is one. -/
def TopSetState (s : SATAReconstructor β) : Prop :=
  ∀ d rest, s.ncqDmaStack = d :: rest → WaitsForDma s.state →
    (s.state = .waitForDmaDataHost ↔ d.directionBit = hostToDevice)

theorem topSetState_idle (h : s.state = .deviceIdle) : TopSetState s :=
  fun _ _ _ hw => absurd (h ▸ hw) (by decide)

theorem topSetState_nonNcq (h : s.state = .waitForNonNcqData) : TopSetState s :=
  fun _ _ _ hw => absurd (h ▸ hw) (by decide)

theorem TopSetState.of_eq {t : SATAReconstructor β} (h : TopSetState s)
    (hst : t.state = s.state) (hs : t.ncqDmaStack = s.ncqDmaStack) : TopSetState t := by
  unfold TopSetState at *
  rw [hst, hs]
  exact h

theorem topSetState_setup (d : DmaSetup) : TopSetState (handleDmaSetup s d).1 := by
  rintro _ _ ⟨⟩ _
  by_cases hd : d.directionBit = hostToDevice
  · simp [handleDmaSetup, hd]
  · simp [handleDmaSetup, hd]

theorem topSetState_register {direction : Nat} {r : RegisterHtoD} (h : TopSetState s) :
    TopSetState (handleRegisterHTD s direction r).1 := by
  apply handleRegisterHTD_cases (fun o => TopSetState o.1)
  case regular => intros; exact topSetState_nonNcq rfl
  all_goals intros; exact h.of_eq rfl rfl

theorem topSetState_unexpected : TopSetState (handleUnexpectedPacket s c).1 := by
  apply handleUnexpectedPacket_cases (fun o => TopSetState o.1)
  · intro r _; exact topSetState_register (topSetState_idle rfl)
  · intro d _; exact topSetState_setup d
  · intro _ _; exact topSetState_idle rfl

theorem topSetState_ncqData {data : List β} (h : TopSetState s) :
    TopSetState (handleNcqDataPacket s data).1 := by
  apply handleNcqDataPacket_cases (fun o => TopSetState o.1)
  case burst | command => intros; exact topSetState_idle rfl
  all_goals intros; exact h.of_eq rfl rfl

theorem topSetState_dispatch (h : TopSetState s) : TopSetState (dispatch s c).1 := by
  have hreset : TopSetState (resetNcq s) := nofun
  apply dispatch_cases (fun o => TopSetState o.1)
  case activate => intro _; exact h
  case bits => intro b hb; rw [handleSetDeviceBits_eq hb]; split <;> assumption
  case register => intro r _ _; exact topSetState_register h
  case status => intro r hr hd; rw [handleNcqRegisterDTH_eq hr hd]; split <;> assumption
  case pio => intro p _; exact topSetState_nonNcq rfl
  case inState =>
    intro hl
    apply processInState_cases (fun o => TopSetState o.1) hl
    case setup => intro d _ _ _; exact topSetState_setup d
    case idle => intros; exact h
    case unexpected => intro _; exact topSetState_unexpected
    case burst => intro _; exact topSetState_ncqData h
    case abandon =>
      intro _ _
      apply abandonBurst_cases (fun o => TopSetState o.1)
      · intro _; exact nofun
      · intro d rest _; exact topSetState_unexpected
    case regular =>
      intro hst _
      apply handleNonNcqDataPacket_cases (fun o => TopSetState o.1)
      case command => intros; exact topSetState_idle rfl
      all_goals intros; exact h.of_eq rfl rfl

theorem topSetState_arrive (f : PhysicalPacket β) (h : TopSetState s) :
    TopSetState (arrive s f) := by
  unfold arrive checkSequence
  split
  · exact topSetState_idle rfl
  · exact h.of_eq rfl rfl

theorem topSetState_handling {k : Nat} {f : PhysicalPacket β} (hf : fs[k]? = some f) :
    TopSetState (handling n fs k f) := by
  have hk := (List.getElem?_eq_some_iff.mp hf).1
  apply topSetState_arrive
  refine stateAt_invariant TopSetState (topSetState_idle rfl) ?_ k (by omega)
  intro k f hf h
  rw [stateAt_succ hf]
  exact topSetState_dispatch (topSetState_arrive f h)

/-- A data frame that is awaited travels in the direction of the setup on top. -/
theorem direction_of_awaited {d : DmaSetup} {rest : List DmaSetup} (h : TopSetState s)
    (ha : IsAwaited s.state c) (hs : s.ncqDmaStack = d :: rest) :
    c.direction = hostToDevice ↔ d.directionBit = hostToDevice := by
  rw [← h d rest hs ha.waits]
  rcases ha.2 with ⟨hst, hd⟩ | ⟨hst, hd⟩
  · rw [hst, hd]; decide
  · rw [hst, hd]; decide

/-! ## Commands and the frames that serve them -/

/-- When frame `k` is handled, slot `x` holds the packet that register frame `j`
started. -/
structure Serving (n : Nat) (fs : List (PhysicalPacket β)) (j k : Nat) (x : Slot)
    (g f : PhysicalPacket β) : Prop where
  register : fs[j]? = some g
  frame : fs[k]? = some f
  packet : ∃ p, packetIn (handling n fs k f) x = some p ∧ CreatorOf n fs j k x p

/-- Whenever the data of a DMA Setup arrives, the setup agrees with the command of its
tag. -/
def SetupsAgree (n : Nat) (fs : List (PhysicalPacket β)) : Prop :=
  ∀ j k g f r d rest, Serving n fs j k (.ncq d.dmaBufIdentifierLow) g f →
    g.fis = .registerHtoD r → IsAwaited (handling n fs k f).state f.toContent →
    (handling n fs k f).ncqDmaStack = d :: rest → Agrees d r

/-- The frame carries the last data of the command outside NCQ. -/
def Completes (s : SATAReconstructor β) (c : Content β) : Prop :=
  s.state = .waitForNonNcqData ∧ c.fis = .data ∧ s.regularRegisterStack ≠ [] ∧
    ∃ p, s.regularDiskSensorPacket = .packet p ∧ p.size ≤ (extend p [c.sataData]).data.length

/-- The packet of a queued command carries the operation of its command code, the
packet of another command the direction of its register frame. -/
theorem Serving.operation {j k : Nat} {x : Slot} {g f : PhysicalPacket β}
    (h : Serving n fs j k x g f) :
    ∃ r p, g.fis = .registerHtoD r ∧ packetIn (handling n fs k f) x = some p ∧
      match x with
      | .ncq _ => p.diskOperation = ncqOperation r
      | .regular => p.diskOperation = g.direction := by
  obtain ⟨p, hp, _, ⟨q, ⟨g', hg', hc⟩, hsame⟩, _⟩ := h.packet
  obtain rfl := Option.some.inj (h.register.symm.trans hg')
  obtain ⟨r, hh, ⟨rfl, _, _, _, _, rfl⟩ | ⟨rfl, _, _, rfl⟩⟩ := hc
  · exact ⟨r, p, hh.1, hp, hsame.2.2.1.symm⟩
  · exact ⟨r, p, hh.1, hp, hsame.2.2.1.symm⟩

/-- A packet in a slot has a register frame that started it. -/
theorem serving_of_packetIn {k : Nat} {x : Slot} {f : PhysicalPacket β} {p : DiskSensorPacket β}
    (hf : fs[k]? = some f) (hp : packetIn (handling n fs k f) x = some p) :
    ∃ j g, Serving n fs j k x g f := by
  have hk := (List.getElem?_eq_some_iff.mp hf).1
  obtain ⟨j, hj⟩ := creatorOf_packetIn (by omega) (packetIn_handling hp)
  obtain ⟨q, ⟨g, hg, _⟩, _⟩ := hj.2.1
  exact ⟨j, g, hg, hf, p, hp, hj⟩

/-- What a data frame outside NCQ returns when it completes the command. -/
theorem dispatch_completes (h : Completes s c) :
    ∃ p, packetIn s .regular = some p ∧
      (dispatch s c).2 = .ok (some [report c .regular (extend p [c.sataData])]) := by
  obtain ⟨hst, hf, hreg, p, hp, hsize⟩ := h
  have hd : dispatch s c = handleNonNcqDataPacket s c.direction c.sataData := by
    simp [dispatch, processInState, hf, hst]
  refine ⟨p, by simp [packetIn, hp], ?_⟩
  rw [hd, handleNonNcqDataPacket_ne hreg, hp]
  simp only [if_pos hsize]
  rfl

/-! ## Reports -/

/-- Every packet a call returns has the operation its last data frame asks for. -/
def RightOperation (n : Nat) (fs : List (PhysicalPacket β)) : Prop :=
  ∀ k f ps p, fs[k]? = some f →
    (processPacket (stateAt processPacket (init n) fs k) f).2 = .ok (some ps) → p ∈ ps →
    p.diskOperation = operationOf f.direction

/-- The report of a queued command. -/
theorem operation_ncq (hagree : SetupsAgree n fs) {k tag : Nat} {f : PhysicalPacket β}
    {p : DiskSensorPacket β} {frames : List (List β)} (hf : fs[k]? = some f)
    (hp : packetIn (handling n fs k f) (.ncq tag) = some p)
    (hfeed : Feeds (handling n fs k f) f.toContent (.ncq tag) frames) :
    p.diskOperation = operationOf f.direction := by
  obtain ⟨ha, _, d, rest, hs, rfl⟩ := hfeed
  obtain ⟨j, g, hserve⟩ := serving_of_packetIn hf hp
  obtain ⟨r, q, hr, hq, hop⟩ := hserve.operation
  obtain rfl := Option.some.inj (hp.symm.trans hq)
  have hd := direction_of_awaited (topSetState_handling hf) ha hs
  have hcmd := hagree j k g f r d rest hserve hr ha hs
  rw [hop, ncqOperation, operationOf]
  exact if_congr (hcmd.symm.trans hd.symm) rfl rfl

/-- The call that returns the packet outside NCQ completes its command. -/
theorem completes_of_returns {ps : List (DiskSensorPacket β)} {frames : List (List β)}
    {p : DiskSensorPacket β} (h : (dispatch s c).2 = .ok (some ps))
    (hfeed : Feeds s c .regular frames) (hp : packetIn s .regular = some p)
    (hsize : p.size ≤ (extend p frames).data.length) : Completes s c := by
  obtain ⟨hst, hf, rfl⟩ := hfeed
  have hd : dispatch s c = handleNonNcqDataPacket s c.direction c.sataData := by
    simp [dispatch, processInState, hf, hst]
  refine ⟨hst, hf, fun hreg => ?_, p, ?_, hsize⟩
  · rw [hd, handleNonNcqDataPacket_nil hreg] at h
    cases h
  · cases hr : s.regularDiskSensorPacket with
    | none => simp [packetIn, hr] at hp
    | unset => simp [packetIn, hr] at hp
    | packet q => simpa [packetIn, hr] using hp

/-- **Over every sequence of frames whose DMA Setups agree with the commands of their
tags, every reported access has the direction of its data if and only if every
data frame that completes a command outside NCQ travels against the command's
register frame: from the device for a register frame of the host.** -/
theorem right_operation_iff (n : Nat) (fs : List (PhysicalPacket β)) (hagree : SetupsAgree n fs) :
    RightOperation n fs ↔
      ∀ j k g f, Serving n fs j k .regular g f →
        Completes (handling n fs k f) f.toContent →
        g.direction = if f.direction = hostToDevice then deviceToHost else hostToDevice := by
  constructor
  · intro h j k g f hserve hdone
    obtain ⟨r, p, _, hp, hop⟩ := hserve.operation
    obtain ⟨q, hq, hret⟩ := dispatch_completes hdone
    obtain rfl := Option.some.inj (hp.symm.trans hq)
    have hright := h k f _ _ hserve.frame hret List.mem_cons_self
    exact hop.symm.trans hright
  · intro h k f ps p hf hret hmem
    obtain ⟨x, q, frames, rfl, hq, hfeed, hsize, _⟩ := emits_dispatch _ hret
    obtain rfl := List.mem_singleton.mp hmem
    rw [← (sameAccess_report f.toContent x q frames).2.2.1]
    cases x with
    | ncq tag => exact operation_ncq hagree hf hq hfeed
    | regular =>
      obtain ⟨j, g, hserve⟩ := serving_of_packetIn hf hq
      obtain ⟨r, p, _, hp, hop⟩ := hserve.operation
      obtain rfl := Option.some.inj (hq.symm.trans hp)
      rw [hop]
      exact h j k g f hserve (completes_of_returns hret hfeed hq hsize)

/-- A command outside NCQ for one four-byte sector, and its data frame. -/
def plainTransfer (command direction : Nat) : List (PhysicalPacket UInt8) :=
  [ { lophiSeqn := 7, direction := hostToDevice,
      fis := .registerHtoD { C := 1, command := command, count := 1, lba := 9 } },
    { lophiSeqn := 8, direction := direction, fis := .data,
      sataData := [10, 20, 30, 40, 0, 0, 0, 0] } ]

/-- Without queued commands there is no setup to disagree. -/
theorem setupsAgree_plainTransfer {command direction : Nat}
    (hc : command ≠ readFPDMAQueued ∧ command ≠ writeFPDMAQueued) :
    SetupsAgree 4 (plainTransfer command direction) := by
  intro j k g f r d rest hserve hr _ _
  obtain ⟨p, _, _, ⟨q, ⟨g', hg', hcreate⟩, _⟩, _⟩ := hserve.packet
  obtain rfl := Option.some.inj (hserve.register.symm.trans hg')
  obtain ⟨r', ⟨hr', _⟩, ⟨_, hn, _⟩ | ⟨hx, _⟩⟩ := hcreate
  · match j with
    | 0 =>
      obtain rfl := Option.some.inj hg'
      obtain rfl := Fis.registerHtoD.inj hr'
      rcases hn.2 with h | h
      · exact absurd h hc.1
      · exact absurd h hc.2
    | 1 =>
      obtain rfl := Option.some.inj hg'
      cases hr'
    | j + 2 => cases hg'
  · cases hx

/-- Frame 1 of a plain transfer serves the command of frame 0. -/
theorem serving_plainTransfer {command direction j k : Nat} {g f : PhysicalPacket UInt8}
    (h : Serving 4 (plainTransfer command direction) j k .regular g f) :
    g.direction = hostToDevice ∧ f.direction = direction := by
  obtain ⟨p, _, hjk, _⟩ := h.packet
  have hk := (List.getElem?_eq_some_iff.mp h.frame).1
  obtain ⟨rfl, rfl⟩ : j = 0 ∧ k = 1 := by
    simp only [plainTransfer, List.length_cons, List.length_nil] at hk
    omega
  rw [← Option.some.inj h.register, ← Option.some.inj h.frame]
  exact ⟨rfl, rfl⟩

/-- A READ DMA EXT whose data comes from the device is reported as a read. -/
theorem right_operation_read : RightOperation 4 (plainTransfer 0x25 deviceToHost) := by
  rw [right_operation_iff 4 _ (setupsAgree_plainTransfer (by decide))]
  intro j k g f hserve _
  obtain ⟨hg, hf⟩ := serving_plainTransfer hserve
  rw [hg, hf]
  decide

/-- A WRITE DMA EXT whose data comes from the host is reported as a read. -/
theorem write_reported_as_read :
    (∀ k, ¬ Sequence.GapAt (plainTransfer 0x35 hostToDevice) k) ∧
      SetupsAgree 4 (plainTransfer 0x35 hostToDevice) ∧
      ¬ RightOperation 4 (plainTransfer 0x35 hostToDevice) := by
  refine ⟨?_, setupsAgree_plainTransfer (by decide), fun h => ?_⟩
  · intro k hgap
    match k with
    | 1 =>
      obtain ⟨f, g, hf, hg, hne⟩ := hgap
      rw [← Option.some.inj hf, ← Option.some.inj hg] at hne
      exact hne (by decide)
    | k + 2 =>
      obtain ⟨_, _, _, hg, _⟩ := hgap
      cases hg
  · have hret : (processPacket (stateAt processPacket (init 4)
        (plainTransfer 0x35 hostToDevice) 1) ⟨⟨hostToDevice, .data, [10, 20, 30, 40, 0, 0, 0, 0]⟩,
          8⟩).2 =
        .ok (some [⟨9, 1, directionRead, 4, [10, 20, 30, 40], some hostToDevice⟩]) := by decide
    exact absurd (h 1 _ _ _ rfl hret List.mem_cons_self) (by decide)

end LoPhi.Sata.Direction
