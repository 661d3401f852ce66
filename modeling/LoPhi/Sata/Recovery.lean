import LoPhi.Sata.TwoRuns

/-! # Recovery from lost frames

When a sequence number is missing, `_reset_state` is meant to make the
reconstructor forget everything. It leaves `regular_register_stack` and
`regular_disk_sensor_packet` as they are, so a command outside NCQ that was
under construction survives the gap. -/

namespace LoPhi.Sata.Recovery
open LoPhi.Lib.Python LoPhi.Lib.Machine
open LoPhi.Sata.Frame LoPhi.Sata.Reconstructor LoPhi.Sata.Step LoPhi.Sata.TwoRuns

variable {β : Type} {s t : SATAReconstructor β} {c : Content β} {n : Nat}
  {pre : List (PhysicalPacket β)} {f : PhysicalPacket β}

/-- A host register frame that starts a command outside NCQ. -/
def StartsRegular (c : Content β) : Prop :=
  ∃ r, c.fis = .registerHtoD r ∧ c.direction = hostToDevice ∧ IsRegular r

theorem arrive_of_gap (h : gapBefore s f.lophiSeqn = true) :
    arrive s f = resetState { s with totalFrames := s.totalFrames + 1 } := by
  unfold arrive checkSequence
  exact if_pos h

/-! ## What survives a gap -/

/-- The reset leaves the reconstructor alike to a fresh one but for the command
outside NCQ. -/
theorem alike_reset {lax : Prop} (hn : s.sectorSize = n)
    (h : AlikeRegular lax s (init n)) (hgap : gapBefore s f.lophiSeqn = true) :
    Alike (fun _ => True) lax (arrive s f) (init n) := by
  rw [arrive_of_gap hgap]
  exact ⟨hn, h, rfl, rfl, rfl, rfl, rfl, rfl, fun _ _ => rfl, fun _ _ => rfl⟩

/-- Silence passes the lax comparison with a fresh reconstructor. -/
theorem alike_init_of_silent (h : Silent s) : AlikeRegular True s (init n) :=
  .inr ⟨trivial, h, .inl rfl⟩

/-- A new command outside NCQ replaces whatever survived. -/
theorem alike_startsRegular (hn : s.sectorSize = n) (hgap : gapBefore s f.lophiSeqn = true)
    (h : StartsRegular f.toContent) :
    AlikeCalls (fun _ => True) True (processPacket s f) (processPacket (init n) f) := by
  obtain ⟨r, hf, hd, hr⟩ := h
  have hdis : ∀ t : SATAReconstructor β,
      dispatch t f.toContent = handleRegisterHTD t f.direction r := by
    intro t
    unfold dispatch
    rw [hf]
    exact if_pos hd
  have hinit : arrive (init n) f =
      { init n with lastPacketSeqno := some f.lophiSeqn, totalFrames := 1 } :=
    arrive_of_no_gap rfl
  unfold processPacket
  rw [hdis, hdis, arrive_of_gap hgap, hinit, handleRegisterHTD_regular hr,
    handleRegisterHTD_regular hr]
  have hsize : (resetState { s with totalFrames := s.totalFrames + 1 }).sectorSize = n := hn
  rw [hsize]
  show AlikeCalls _ _ (if RegularPacks n f.direction r then _ else _)
    (if RegularPacks n f.direction r then _ else _)
  split
  · exact ⟨⟨rfl, .inl ⟨by simp, rfl⟩, rfl, rfl, rfl, rfl, rfl, rfl, fun _ _ => rfl,
      fun _ _ => rfl⟩, rfl, fun _ => rfl⟩
  · exact ⟨⟨rfl, .inl ⟨by simp, rfl⟩, rfl, rfl, rfl, rfl, rfl, rfl, fun _ _ => rfl,
      fun _ _ => rfl⟩, rfl, fun _ => rfl⟩

/-- The call hands back no packet and leaves alone what is kept of a command outside NCQ. -/
def Uneventful (s : SATAReconstructor β) (o : Call β) : Prop :=
  packets o.2 = [] ∧ o.1.regularRegisterStack = s.regularRegisterStack ∧
    o.1.regularDiskSensorPacket = s.regularDiskSensorPacket

/-- From the idle state every frame is uneventful but a new command. -/
theorem dispatch_idle (hst : s.state = .deviceIdle) (h : ¬ StartsRegular c) :
    Uneventful s (dispatch s c) := by
  have hsame : Uneventful s (s, .ok none) := ⟨rfl, rfl, rfl⟩
  apply dispatch_cases (Uneventful s)
  case activate => intro _; exact hsame
  case bits =>
    intro b hb
    rw [handleSetDeviceBits_eq hb]
    split <;> exact ⟨rfl, rfl, rfl⟩
  case register =>
    intro r hf hd
    apply handleRegisterHTD_cases (Uneventful s)
    case regular => intro hr _; exact absurd ⟨r, hf, hd, hr⟩ h
    case unpacked => intro hr _; exact absurd ⟨r, hf, hd, hr⟩ h
    all_goals intros; exact ⟨rfl, rfl, rfl⟩
  case status =>
    intro r hr hd
    rw [handleNcqRegisterDTH_eq hr hd]
    split <;> exact ⟨rfl, rfl, rfl⟩
  case pio => intro p _; exact ⟨rfl, rfl, rfl⟩
  case inState =>
    intro hc
    apply processInState_cases (Uneventful s) hc
    case setup => intros; exact ⟨rfl, rfl, rfl⟩
    case idle => intros; exact hsame
    case unexpected => intro hw; simp [hst] at hw
    case burst => intro ha; have := ha.waits; simp [hst, WaitsForDma] at this
    case abandon => intro hw; simp [hst, WaitsForDma] at hw
    case regular => intro hw; simp [hst] at hw

/-! ## Runs -/

/-- After a gap there is no number to measure the next frame by. -/
theorem follows_gap (hgap : gapBefore s f.lophiSeqn = true) (fs : List (PhysicalPacket β)) :
    Follows (processPacket s f).1 fs := by
  intro g _
  unfold gapBefore expectedAfter
  rw [processPacket, keeps_dispatch.lastPacketSeqno, arrive_of_gap hgap]
  rfl

theorem follows_first {fs : List (PhysicalPacket β)} (hg : GapFree (f :: fs)) :
    Follows (processPacket (init n) f).1 fs := by
  refine follows_tail hg ?_
  rw [arrive_of_no_gap rfl]

/-- Alike after the frame that shows the gap, the two emit the same from there
on. -/
theorem emitted_after_gap {fs : List (PhysicalPacket β)} (hg : GapFree (f :: fs))
    (hgap : gapBefore s f.lophiSeqn = true)
    (h : AlikeCalls (fun _ => True) True (processPacket s f) (processPacket (init n) f)) :
    emitted (outputs processPacket s (f :: fs)) =
      emitted (outputs processPacket (init n) (f :: fs)) := by
  have hfs : GapFree fs := hg.tail
  rw [outputs_cons, outputs_cons, emitted_cons, emitted_cons, h.2.1,
    (gapFree_run hfs (follows_gap hgap fs) h.1).1,
    (gapFree_run hfs (follows_first hg) (Alike.refl _ True _)).1]

/-- What a data frame after a PIO Setup does to a surviving packet, given enough
bytes: the packet is handed back. -/
theorem emitted_survivor {p : DiskSensorPacket β} {data : List β} {setup : PioSetup}
    {direction direction' : Nat} (hs : s.regularRegisterStack ≠ [])
    (hp : s.regularDiskSensorPacket = .packet p) (hdata : p.size ≤ (payload data).length) :
    emitted (outputs dispatch s
      [{ direction := direction, fis := .pioSetup setup },
       { direction := direction', fis := .data, sataData := data }]) ≠ [] := by
  have hsize : p.size ≤ (extend p [data]).data.length := by
    simp only [extend, List.map_cons, List.map_nil, List.flatten_cons, List.flatten_nil,
      List.append_nil, List.length_append]
    omega
  have hout : (handleNonNcqDataPacket { s with state := .waitForNonNcqData } direction' data).2 =
      .ok (some [{ extend p [data] with direction := some direction' }]) := by
    rw [handleNonNcqDataPacket_ne (s := { s with state := .waitForNonNcqData }) hs]
    simp only [hp, if_pos hsize]
  simp only [outputs_cons, emitted_cons, outputs_nil]
  show packets _ ++ (packets (handleNonNcqDataPacket { s with state := .waitForNonNcqData }
    direction' data).2 ++ _) ≠ []
  rw [hout]
  simp [packets]

/-- With no register frame on the stack the same two frames give nothing. -/
theorem emitted_empty {data : List β} {setup : PioSetup} {direction direction' : Nat}
    (hs : s.regularRegisterStack = []) :
    emitted (outputs dispatch s
      [{ direction := direction, fis := .pioSetup setup },
       { direction := direction', fis := .data, sataData := data }]) = [] := by
  simp only [outputs_cons, emitted_cons, outputs_nil]
  show packets _ ++ (packets (handleNonNcqDataPacket { s with state := .waitForNonNcqData }
    direction' data).2 ++ _) = []
  rw [handleNonNcqDataPacket_nil (s := { s with state := .waitForNonNcqData }) hs]
  rfl

/-- A PIO Setup and one data frame of a packet's size. -/
def completion [Inhabited β] (p : DiskSensorPacket β) : List (Content β) :=
  [{ direction := deviceToHost, fis := .pioSetup {} },
   { direction := deviceToHost, fis := .data, sataData := List.replicate (p.size + 4) default }]

/-- A packet that survives the gap is handed back when such frames follow. A new
reconstructor hands back nothing. -/
theorem emitted_completion_ne [Inhabited β] (hgap : gapBefore s f.lophiSeqn = true)
    (hstart : ¬ StartsRegular f.toContent) (hs : s.regularRegisterStack ≠ [])
    {p : DiskSensorPacket β} (hp : s.regularDiskSensorPacket = .packet p) :
    emitted (outputs processPacket s (f :: number (f.lophiSeqn + 1) (completion p))) ≠
      emitted (outputs processPacket (init n) (f :: number (f.lophiSeqn + 1) (completion p))) := by
  intro heq
  have hnumbered := gapFree_number (f.lophiSeqn + 1) (completion p)
  have hg : GapFree (f :: number (f.lophiSeqn + 1) (completion p)) := .cons_cons rfl hnumbered
  rw [outputs_cons, outputs_cons, emitted_cons, emitted_cons,
    (gapFree_run hnumbered (follows_gap hgap _) (Alike.refl _ True _)).1,
    (gapFree_run hnumbered (follows_first hg) (Alike.refl _ True _)).1,
    number_contents] at heq
  have hold : (arrive s f).state = .deviceIdle := by rw [arrive_of_gap hgap]; rfl
  obtain ⟨ho, hos, hop⟩ := dispatch_idle hold hstart
  have hnew : (arrive (init n : SATAReconstructor β) f).state = .deviceIdle := by
    rw [arrive_of_no_gap rfl]; rfl
  obtain ⟨hi, his, _⟩ := dispatch_idle hnew hstart
  have hempty : emitted (outputs dispatch (processPacket (init n) f).1 (completion p)) = [] :=
    emitted_empty (his.trans (by rw [arrive_of_no_gap rfl]; rfl))
  have hfull : emitted (outputs dispatch (processPacket s f).1 (completion p)) ≠ [] := by
    refine emitted_survivor (p := p) ?_ (hop.trans ?_) (by simp [payload])
    · rw [processPacket, hos, arrive_of_gap hgap]
      exact hs
    · rw [arrive_of_gap hgap]
      exact hp
  rw [hempty, processPacket, processPacket, ho, hi] at heq
  exact hfull heq

/-- **After a gap the reconstructor emits what a fresh one does, whatever gap-free
frames follow, exactly when no packet of a command outside NCQ is under
construction, or the frame that shows the gap starts such a command anew.** -/
theorem recovery_iff [Inhabited β] (n : Nat) (pre : List (PhysicalPacket β))
    (f : PhysicalPacket β)
    (hgap : gapBefore (run processPacket (init n) pre) f.lophiSeqn = true) :
    (∀ fs, GapFree (f :: fs) →
      emitted (outputs processPacket (run processPacket (init n) pre) (f :: fs)) =
        emitted (outputs processPacket (init n) (f :: fs))) ↔
      Silent (run processPacket (init n) pre) ∨ StartsRegular f.toContent := by
  have hn : (run processPacket (init n) pre).sectorSize = n := sectorSize_run pre
  generalize run processPacket (init n) pre = s at hgap hn ⊢
  constructor
  · intro h
    by_contra hno
    obtain ⟨hloud, hstart⟩ := not_or.mp hno
    obtain ⟨hs, hpack⟩ := not_or.mp hloud
    simp only [ne_eq, not_forall, not_not] at hpack
    obtain ⟨p, hp⟩ := hpack
    refine emitted_completion_ne hgap hstart hs hp (h _ ?_)
    exact .cons_cons rfl (gapFree_number _ (completion p))
  · rintro (hsil | hstart) fs hg
    · refine emitted_after_gap hg hgap ?_
      have hreset := alike_reset hn (alike_init_of_silent hsil) hgap
      exact alike_dispatch (hreset.trans (alike_arrive rfl).symm)
        (fun _ _ _ _ => trivial)
    · exact emitted_after_gap hg hgap (alike_startsRegular hn hgap hstart)

/-- A PIO read of two four-byte sectors, half of it received. -/
def halfRead : List (PhysicalPacket UInt8) :=
  [ { lophiSeqn := 1, direction := hostToDevice,
      fis := .registerHtoD { C := 1, command := 0x20, count := 2, lba := 9 } },
    { lophiSeqn := 2, direction := deviceToHost, fis := .pioSetup { transferCount := 4 } },
    { lophiSeqn := 3, direction := deviceToHost, fis := .data,
      sataData := [1, 2, 3, 4, 0, 0, 0, 0] } ]

/-- Frame 4 is lost; a PIO Setup and four bytes of data follow. -/
def afterLoss : List (PhysicalPacket UInt8) :=
  [ { lophiSeqn := 5, direction := deviceToHost, fis := .pioSetup { transferCount := 4 } },
    { lophiSeqn := 6, direction := deviceToHost, fis := .data,
      sataData := [5, 6, 7, 8, 0, 0, 0, 0] } ]

/-- The bytes received before the loss are emitted after it; a fresh reconstructor
emits nothing. -/
theorem halfRead_survives_loss :
    gapBefore (run processPacket (init 4) halfRead) 5 = true ∧ GapFree afterLoss ∧
      emitted (outputs processPacket (run processPacket (init 4) halfRead) afterLoss) =
        [⟨9, 2, 0, 8, [1, 2, 3, 4, 5, 6, 7, 8], some 1⟩] ∧
      emitted (outputs processPacket (init 4) afterLoss) = [] := by
  refine ⟨by decide, ?_, by decide, by decide⟩
  exact .cons_cons rfl (.singleton _)

/-- The same read, complete. -/
def wholeRead : List (PhysicalPacket UInt8) :=
  halfRead ++
  [ { lophiSeqn := 4, direction := deviceToHost, fis := .data,
      sataData := [5, 6, 7, 8, 0, 0, 0, 0] } ]

/-- A PIO Setup one frame too late. -/
def lateSetup : PhysicalPacket UInt8 where
  lophiSeqn := 6
  direction := deviceToHost
  fis := .pioSetup { transferCount := 4 }

theorem wholeRead_forgotten :
    gapBefore (run processPacket (init 4) wholeRead) lateSetup.lophiSeqn = true ∧
      ∀ fs, GapFree (lateSetup :: fs) →
        emitted (outputs processPacket (run processPacket (init 4) wholeRead) (lateSetup :: fs)) =
          emitted (outputs processPacket (init 4) (lateSetup :: fs)) := by
  refine ⟨by decide, (recovery_iff 4 wholeRead lateSetup (by decide)).mpr (.inl (.inr ?_))⟩
  intro p hp
  cases hp

end LoPhi.Sata.Recovery
