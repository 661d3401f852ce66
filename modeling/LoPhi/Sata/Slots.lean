import LoPhi.Sata.Step

/-! # Packets under construction

A packet under construction lives in a slot: one per tag for NCQ commands, one
for the command outside NCQ. A call creates the packet of a slot, adds the
payload of data frames to it, reports it, drops it, or leaves the slot alone.
From this follows, over whole runs, which register frame a reported packet
belongs to. -/

namespace LoPhi.Sata.Slots
open LoPhi.Lib.Python LoPhi.Lib.Machine
open LoPhi.Sata.Frame LoPhi.Sata.Reconstructor LoPhi.Sata.Step

variable {β : Type} {s : SATAReconstructor β} {c : Content β}

/-- Where a packet under construction is kept. -/
inductive Slot where
  | ncq (tag : Nat)
  | regular
  deriving DecidableEq, Repr

/-- The packet under construction in a slot. -/
def packetIn (s : SATAReconstructor β) : Slot → Option (DiskSensorPacket β)
  | .ncq tag => s.ncqDataOutstanding[tag]?.join
  | .regular => match s.regularDiskSensorPacket with
    | .packet p => some p
    | _ => none

/-- The slots depend on the table of packets and the packet outside NCQ. -/
theorem packetIn_congr {t : SATAReconstructor β}
    (hd : t.ncqDataOutstanding = s.ncqDataOutstanding)
    (hr : t.regularDiskSensorPacket = s.regularDiskSensorPacket) (x : Slot) :
    packetIn t x = packetIn s x := by
  cases x <;> simp only [packetIn, hd, hr]

section SetEntry
variable {t : SATAReconstructor β} {tag : Nat} {entry : Option (DiskSensorPacket β)}
  (hd : t.ncqDataOutstanding = s.ncqDataOutstanding.set tag entry)
include hd

/-- An entry of the table that is set is the packet of its slot. -/
theorem packetIn_set_self (hlt : tag < s.ncqDataOutstanding.length) :
    packetIn t (.ncq tag) = entry := by
  simp [packetIn, hd, hlt]

/-- The other slots keep theirs. -/
theorem packetIn_set_ne (hr : t.regularDiskSensorPacket = s.regularDiskSensorPacket) {x : Slot}
    (hx : x ≠ .ncq tag) : packetIn t x = packetIn s x := by
  cases x with
  | ncq tag' =>
    have hne : tag ≠ tag' := fun h => hx (by rw [h])
    simp [packetIn, hd, hne]
  | regular => simp only [packetIn, hr]

end SetEntry

/-- Handling the frame puts the new packet `p` into slot `x`. -/
def Creates (s : SATAReconstructor β) (c : Content β) (x : Slot) (p : DiskSensorPacket β) : Prop :=
  ∃ r, Handed s c r ∧
    (x = .ncq r.tag ∧ IsNcq r ∧ r.tag < s.ncqTransactionsOutstanding.length ∧
        r.tag < s.ncqDataOutstanding.length ∧ NcqPacks s.sectorSize r ∧
        p = ncqPacket s.sectorSize r ∨
      x = .regular ∧ IsRegular r ∧ RegularPacks s.sectorSize c.direction r ∧
        p = regularPacket s.sectorSize c.direction r)

/-- The frame is a data frame for slot `x`, and `frames` is what it adds to the
packet there if it adds anything: for a tag the whole burst, buffered frames
included. -/
def Feeds (s : SATAReconstructor β) (c : Content β) : Slot → List (List β) → Prop
  | .ncq tag, frames => IsAwaited s.state c ∧ frames = s.ncqDataPackets ++ [c.sataData] ∧
      ∃ d rest, s.ncqDmaStack = d :: rest ∧ d.dmaBufIdentifierLow = tag
  | .regular, frames => s.state = .waitForNonNcqData ∧ c.fis = .data ∧ frames = [c.sataData]

/-- The packet as reported: outside NCQ with the direction of the last frame. -/
def report (c : Content β) : Slot → DiskSensorPacket β → DiskSensorPacket β
  | .ncq _, p => p
  | .regular, p => { p with direction := some c.direction }

/-- What a call does to the packet of slot `x`. -/
inductive SlotStep (s : SATAReconstructor β) (c : Content β) (x : Slot) (o : Call β) : Prop where
  | created (p : DiskSensorPacket β) (hc : Creates s c x p) (hp : packetIn o.1 x = some p)
  | kept (hc : ∀ p, ¬ Creates s c x p) (hp : packetIn o.1 x = packetIn s x)
  | dropped (hc : ∀ p, ¬ Creates s c x p) (hp : packetIn o.1 x = none)
  | extended (hc : ∀ p, ¬ Creates s c x p) (p : DiskSensorPacket β) (frames : List (List β))
      (hs : packetIn s x = some p) (hf : Feeds s c x frames)
      (hp : packetIn o.1 x = some (extend p frames))

/-! ## Creation -/

theorem not_creates_of_not_register {x : Slot} (h : ∀ r, c.fis ≠ .registerHtoD r)
    (p : DiskSensorPacket β) : ¬ Creates s c x p := by
  rintro ⟨r, hh, _⟩
  exact h r hh.1

theorem not_creates_of_not_handed {x : Slot} (h : ∀ r, ¬ Handed s c r)
    (p : DiskSensorPacket β) : ¬ Creates s c x p := by
  rintro ⟨r, hh, _⟩
  exact h r hh

/-- A frame creates the packet of one slot at most. -/
theorem Creates.slot_unique {x y : Slot} {p q : DiskSensorPacket β} (h : Creates s c x p)
    (h' : Creates s c y q) : x = y := by
  obtain ⟨r, hr, h⟩ := h
  obtain ⟨r', hr', h'⟩ := h'
  obtain rfl := hr.unique hr'
  rcases h with ⟨rfl, hn, _⟩ | ⟨rfl, hg, _⟩ <;> rcases h' with ⟨rfl, hn', _⟩ | ⟨rfl, hg', _⟩
  · rfl
  · exact absurd hg' hn.not_regular
  · exact absurd hg hn'.not_regular
  · rfl

/-- A frame feeds one slot at most. -/
theorem Feeds.slot_unique {x y : Slot} {frames frames' : List (List β)}
    (h : Feeds s c x frames) (h' : Feeds s c y frames') : x = y := by
  cases x <;> cases y
  · obtain ⟨_, _, d, rest, hd, rfl⟩ := h
    obtain ⟨_, _, d', rest', hd', rfl⟩ := h'
    rw [hd] at hd'
    rw [(List.cons.inj hd').1]
  · have hw := h.1.waits
    rw [h'.1] at hw
    exact absurd hw (by decide)
  · have hw := h'.1.waits
    rw [h.1] at hw
    exact absurd hw (by decide)
  · rfl

/-! ## One call -/

/-- The frame handed on is the only one that can create a packet. -/
theorem creates_iff {r : RegisterHtoD} (hh : Handed s c r) (x : Slot)
    (p : DiskSensorPacket β) : Creates s c x p ↔
      (x = .ncq r.tag ∧ IsNcq r ∧ r.tag < s.ncqTransactionsOutstanding.length ∧
        r.tag < s.ncqDataOutstanding.length ∧ NcqPacks s.sectorSize r ∧
        p = ncqPacket s.sectorSize r ∨
      x = .regular ∧ IsRegular r ∧ RegularPacks s.sectorSize c.direction r ∧
        p = regularPacket s.sectorSize c.direction r) := by
  constructor
  · intro h
    obtain ⟨r', hh', h⟩ := h
    rwa [hh.unique hh']
  · intro h
    exact ⟨r, hh, h⟩

/-- `t` is the object as the register frame finds it, after the bookkeeping of
an unexpected frame. -/
theorem slotStep_register {t : SATAReconstructor β} {r : RegisterHtoD} (x : Slot)
    (hh : Handed s c r) (hn : t.sectorSize = s.sectorSize)
    (ht : t.ncqTransactionsOutstanding = s.ncqTransactionsOutstanding)
    (hd : t.ncqDataOutstanding = s.ncqDataOutstanding)
    (hr : t.regularDiskSensorPacket = s.regularDiskSensorPacket) :
    SlotStep s c x (handleRegisterHTD t c.direction r) := by
  have hsame : packetIn t x = packetIn s x := packetIn_congr hd hr x
  have hcr := creates_iff hh x
  apply handleRegisterHTD_cases (SlotStep s c x)
  case ignored => intro h1 h2; exact .kept (fun p hp => by simp_all) hsame
  case outOfRange =>
    intro h1 h2
    refine .kept (fun p hp => ?_) hsame
    rcases (hcr p).mp hp with h | h
    · exact h2 (ht ▸ h.2.2.1)
    · exact h1.not_regular h.2.1
  case queued =>
    intro h1 hp h2 h3
    by_cases hx : x = .ncq r.tag
    · refine .created (ncqPacket s.sectorSize r) ((hcr _).mpr (.inl ?_)) ?_
      · exact ⟨hx, h1, ht ▸ h2, hd ▸ h3, hn ▸ hp, rfl⟩
      · subst hx
        rw [packetIn_set_self rfl h3, hn]
    · refine .kept (fun p hp => ?_) ?_
      · rcases (hcr p).mp hp with h | h
        · exact hx h.1
        · exact h1.not_regular h.2.1
      · rw [← hsame]
        exact packetIn_set_ne (t := storeCommand t r) rfl rfl hx
  case half =>
    intro e _ h1 h2 h3
    refine .kept (fun p hp => ?_) hsame
    rcases (hcr p).mp hp with h | h
    · exact h3 ⟨hn ▸ h.2.2.2.2.1, hd ▸ h.2.2.2.1⟩
    · exact h1.not_regular h.2.1
  case regular =>
    intro h1 hp
    cases x with
    | ncq tag => exact .kept (fun p hp => by
        rcases (hcr p).mp hp with h | h
        · exact h.2.1.not_regular h1
        · simp at h) hsame
    | regular =>
      refine .created _ ((hcr _).mpr (.inr ⟨rfl, h1, hn ▸ hp, rfl⟩)) ?_
      simp [packetIn, hn]
  case unpacked =>
    intro h1 hp
    have hno : ∀ p, ¬ Creates s c x p := by
      intro p hc
      rcases (hcr p).mp hc with h | h
      · exact h.2.1.not_regular h1
      · exact hp (hn ▸ h.2.2.1)
    cases x with
    | ncq tag => exact .kept hno hsame
    | regular => exact .dropped hno rfl

theorem slotStep_unexpected {t : SATAReconstructor β} (x : Slot)
    (hh : ∀ r, c.fis = .registerHtoD r → Handed s c r) (hn : t.sectorSize = s.sectorSize)
    (ht : t.ncqTransactionsOutstanding = s.ncqTransactionsOutstanding)
    (hd : t.ncqDataOutstanding = s.ncqDataOutstanding)
    (hr : t.regularDiskSensorPacket = s.regularDiskSensorPacket) :
    SlotStep s c x (handleUnexpectedPacket t c) := by
  apply handleUnexpectedPacket_cases (SlotStep s c x)
  · intro r hf; exact slotStep_register x (hh r hf) hn ht hd hr
  · intro d hf
    exact .kept (not_creates_of_not_register (by simp [hf])) (packetIn_congr hd hr x)
  · intro hf _
    exact .kept (not_creates_of_not_register hf) (packetIn_congr hd hr x)

theorem slotStep_ncqData (x : Slot) (ha : IsAwaited s.state c) :
    SlotStep s c x (handleNcqDataPacket s c.sataData) := by
  have hno : ∀ p, ¬ Creates s c x p := not_creates_of_not_register (by simp [ha.1])
  have hfeed : ∀ {d rest}, s.ncqDmaStack = d :: rest →
      Feeds s c (.ncq d.dmaBufIdentifierLow) (buffer s c.sataData).ncqDataPackets :=
    fun {d rest} hs => ⟨ha, rfl, d, rest, hs, rfl⟩
  apply handleNcqDataPacket_cases (SlotStep s c x)
  case noSetup | outOfRange | unknown => intros; exact .kept hno rfl
  case buffered | noPacket => intros; exact .kept hno (packetIn_congr rfl rfl x)
  case burst =>
    intro d rest r p hs _ hp _ _
    by_cases hx : x = .ncq d.dmaBufIdentifierLow
    · subst hx
      refine .extended hno p _ (by simp [packetIn, hp]) (hfeed hs) ?_
      exact packetIn_set_self rfl (List.getElem?_eq_some_iff.mp hp).1
    · exact .kept hno (packetIn_set_ne (t := closeBurst s _ rest _) rfl rfl hx)
  case command =>
    intro d rest r p hs _ hp _ _
    by_cases hx : x = .ncq d.dmaBufIdentifierLow
    · subst hx
      exact .dropped hno (packetIn_set_self rfl (List.getElem?_eq_some_iff.mp hp).1)
    · exact .kept hno (packetIn_set_ne (t := finishCommand s _ rest) rfl rfl hx)

theorem slotStep_nonNcqData (x : Slot) (hst : s.state = .waitForNonNcqData)
    (hf : c.fis = .data) :
    SlotStep s c x (handleNonNcqDataPacket s c.direction c.sataData) := by
  have hno : ∀ p, ¬ Creates s c x p := not_creates_of_not_register (by simp [hf])
  apply handleNonNcqDataPacket_cases (SlotStep s c x)
  case ignored | missing | unset => intros; exact .kept hno rfl
  case added =>
    intro p _ hp _
    cases x with
    | ncq tag => exact .kept hno rfl
    | regular => exact .extended hno p _ (by simp [packetIn, hp]) ⟨hst, hf, rfl⟩ rfl
  case command =>
    intro p _ hp _
    cases x with
    | ncq tag => exact .kept hno rfl
    | regular => exact .dropped hno rfl

theorem slotStep_resetNcq (x : Slot) {o : Outcome β} (hno : ∀ p, ¬ Creates s c x p) :
    SlotStep s c x (resetNcq s, o) := by
  cases x with
  | ncq tag =>
    refine .dropped hno ?_
    simp only [packetIn, resetNcq, List.getElem?_replicate]
    split <;> rfl
  | regular => exact .kept hno rfl

/-- What one call does to a slot. -/
theorem slotStep_dispatch (x : Slot) : SlotStep s c x (dispatch s c) := by
  apply dispatch_cases (SlotStep s c x)
  case activate =>
    intro ha
    refine .kept (not_creates_of_not_register ?_) rfl
    rcases ha with ⟨a, ha⟩ | ha <;> simp [ha]
  case bits =>
    intro b hb
    have hno : ∀ p, ¬ Creates s c x p := not_creates_of_not_register (by simp [hb])
    rw [handleSetDeviceBits_eq hb]
    split
    · exact slotStep_resetNcq x hno
    · exact .kept hno rfl
  case register => intro r hr hd; exact slotStep_register x ⟨hr, .inl hd⟩ rfl rfl rfl rfl
  case status =>
    intro r hr hd
    have hno : ∀ p, ¬ Creates s c x p := not_creates_of_not_register (by simp [hr])
    rw [handleNcqRegisterDTH_eq hr hd]
    split
    · exact slotStep_resetNcq x hno
    · exact .kept hno rfl
  case pio =>
    intro p hp
    exact .kept (not_creates_of_not_register (by simp [hp])) (packetIn_congr rfl rfl x)
  case inState =>
    intro hc
    apply processInState_cases (SlotStep s c x) hc
    case setup =>
      intro d _ hf _
      exact .kept (not_creates_of_not_register (by simp [hf])) (packetIn_congr rfl rfl x)
    case idle =>
      intro hst _
      exact .kept (not_creates_of_not_handed fun r => not_handed_idle hc hst) rfl
    case unexpected =>
      intro hst
      exact slotStep_unexpected x (fun r hf => handed_of_unexpected hf hst) rfl rfl rfl rfl
    case burst => intro ha; exact slotStep_ncqData x ha
    case abandon =>
      intro hw _
      apply abandonBurst_cases (SlotStep s c x)
      · intro hs
        exact .kept (not_creates_of_not_handed fun r => not_handed_empty hc hw hs)
          (packetIn_congr rfl rfl x)
      · intro d rest hs
        exact slotStep_unexpected x (fun r hf => handed_of_popped hf hw hs) rfl rfl rfl rfl
    case regular => intro hst hf; exact slotStep_nonNcqData x hst hf

/-- If the call returns packets it returns one: the packet of the slot the frame feeds,
complete, and that slot is empty afterwards. -/
def EmitsOne (s : SATAReconstructor β) (c : Content β) (o : Call β) : Prop :=
  ∀ ps, o.2 = .ok (some ps) →
    ∃ x p frames, ps = [report c x (extend p frames)] ∧ packetIn s x = some p ∧
      Feeds s c x frames ∧ p.size ≤ (extend p frames).data.length ∧ packetIn o.1 x = none

theorem emitsOne_register (t : SATAReconstructor β) (direction : Nat) (r : RegisterHtoD) :
    EmitsOne s c (handleRegisterHTD t direction r) := by
  apply handleRegisterHTD_cases (EmitsOne s c) <;> intros <;> simp [EmitsOne]

theorem emitsOne_unexpected (t : SATAReconstructor β) :
    EmitsOne s c (handleUnexpectedPacket t c) := by
  apply handleUnexpectedPacket_cases (EmitsOne s c)
  · intro r _; exact emitsOne_register _ _ _
  · intro d _; simp [EmitsOne, handleDmaSetup]
  · intro _ _; simp [EmitsOne]

theorem emitsOne_ncqData (ha : IsAwaited s.state c) :
    EmitsOne s c (handleNcqDataPacket s c.sataData) := by
  apply handleNcqDataPacket_cases (EmitsOne s c)
  case command =>
    intro d rest r p hs _ hp _ hsize ps hps
    refine ⟨.ncq d.dmaBufIdentifierLow, p, (buffer s c.sataData).ncqDataPackets, ?_, ?_, ?_,
      hsize, ?_⟩
    · simpa [report] using hps.symm
    · simp [packetIn, hp]
    · exact ⟨ha, rfl, d, rest, hs, rfl⟩
    · exact packetIn_set_self rfl (List.getElem?_eq_some_iff.mp hp).1
  all_goals intros; simp [EmitsOne]

theorem emitsOne_nonNcqData (hst : s.state = .waitForNonNcqData) (hf : c.fis = .data) :
    EmitsOne s c (handleNonNcqDataPacket s c.direction c.sataData) := by
  apply handleNonNcqDataPacket_cases (EmitsOne s c)
  case command =>
    intro p _ hp hsize ps hps
    refine ⟨.regular, p, [c.sataData], ?_, ?_, ⟨hst, hf, rfl⟩, hsize, rfl⟩
    · simpa [report] using hps.symm
    · simp [packetIn, hp]
  all_goals intros; simp [EmitsOne]

theorem emits_dispatch : EmitsOne s c (dispatch s c) := by
  apply dispatch_cases (EmitsOne s c)
  case activate => intro _; simp [EmitsOne]
  case bits => intro b hb; simp [EmitsOne, handleSetDeviceBits_eq hb]
  case register => intro r _ _; exact emitsOne_register _ _ _
  case status => intro r hr hd; simp [EmitsOne, handleNcqRegisterDTH_eq hr hd]
  case pio => intro p _; simp [EmitsOne, handlePioSetup]
  case inState =>
    intro hc
    apply processInState_cases (EmitsOne s c) hc
    case setup => intro d _ _ _; simp [EmitsOne, handleDmaSetup]
    case idle => intro _ _; simp [EmitsOne]
    case unexpected => intro _; exact emitsOne_unexpected s
    case burst => intro ha; exact emitsOne_ncqData ha
    case abandon =>
      intro _ _
      apply abandonBurst_cases (EmitsOne s c)
      · intro _; simp [EmitsOne]
      · intro d rest _; exact emitsOne_unexpected _
    case regular => intro hst hf; exact emitsOne_nonNcqData hst hf

/-! ## Runs -/

/-- The object as call `k` of a run handles the frame `f`. -/
def handling (n : Nat) (fs : List (PhysicalPacket β)) (k : Nat) (f : PhysicalPacket β) :
    SATAReconstructor β :=
  arrive (stateAt processPacket (init n) fs k) f

/-- Call `k` creates the packet `p` in slot `x`. -/
def CreatesAt (n : Nat) (fs : List (PhysicalPacket β)) (k : Nat) (x : Slot)
    (p : DiskSensorPacket β) : Prop :=
  ∃ f, fs[k]? = some f ∧ Creates (handling n fs k f) f.toContent x p

/-- Call `k` returns the packet `p`, and its frame fed slot `x`. -/
def ReportsAt (n : Nat) (fs : List (PhysicalPacket β)) (k : Nat) (x : Slot)
    (p : DiskSensorPacket β) : Prop :=
  ∃ f, fs[k]? = some f ∧
    (processPacket (stateAt processPacket (init n) fs k) f).2 = .ok (some [p]) ∧
    ∃ frames, Feeds (handling n fs k f) f.toContent x frames

/-- Two packets report the same access, whatever data they hold. -/
def SameAccess (p q : DiskSensorPacket β) : Prop :=
  p.sector = q.sector ∧ p.numSectors = q.numSectors ∧ p.diskOperation = q.diskOperation ∧
    p.size = q.size

/-- Call `r` created the packet `p` that slot `x` holds, or yields, at call `k`:
it is the last call before `k` that put a packet into `x`. -/
def CreatorOf (n : Nat) (fs : List (PhysicalPacket β)) (r k : Nat) (x : Slot)
    (p : DiskSensorPacket β) : Prop :=
  r < k ∧ (∃ q, CreatesAt n fs r x q ∧ SameAccess q p) ∧
    ∀ j, r < j → j < k → ∀ q, ¬ CreatesAt n fs j x q

variable {n : Nat} {fs : List (PhysicalPacket β)}

/-- The sequence check keeps a slot or empties it. -/
theorem packetIn_arrive (s : SATAReconstructor β) (f : PhysicalPacket β) (x : Slot) :
    packetIn (arrive s f) x = packetIn s x ∨ packetIn (arrive s f) x = none := by
  unfold arrive checkSequence
  split
  · cases x with
    | ncq tag =>
      right
      simp only [packetIn, resetState, List.getElem?_replicate]
      split <;> rfl
    | regular => left; rfl
  · left; exact packetIn_congr rfl rfl x

theorem packetIn_handling {k : Nat} {f : PhysicalPacket β} {x : Slot} {p : DiskSensorPacket β}
    (h : packetIn (handling n fs k f) x = some p) :
    packetIn (stateAt processPacket (init n) fs k) x = some p := by
  rcases packetIn_arrive (stateAt processPacket (init n) fs k) f x with he | he
  · exact he ▸ h
  · rw [handling, he] at h; cases h

theorem packetIn_init (x : Slot) : packetIn (init n : SATAReconstructor β) x = none := by
  cases x with
  | ncq tag =>
    simp only [packetIn, init, List.getElem?_replicate]
    split <;> rfl
  | regular => rfl

theorem SameAccess.trans {p q q' : DiskSensorPacket β} (h : SameAccess p q)
    (h' : SameAccess q q') : SameAccess p q' :=
  ⟨h.1.trans h'.1, h.2.1.trans h'.2.1, h.2.2.1.trans h'.2.2.1, h.2.2.2.trans h'.2.2.2⟩

/-- A creator stays the creator while the slot's data grows. -/
theorem CreatorOf.same {r k : Nat} {x : Slot} {p q : DiskSensorPacket β}
    (h : CreatorOf n fs r k x p) (hs : SameAccess p q) : CreatorOf n fs r k x q := by
  obtain ⟨hr, ⟨q₀, hc, hs₀⟩, hlast⟩ := h
  exact ⟨hr, ⟨q₀, hc, hs₀.trans hs⟩, hlast⟩

/-- A creator stays the creator over a call that creates nothing in the slot. -/
theorem CreatorOf.succ {r k : Nat} {x : Slot} {p : DiskSensorPacket β}
    (h : CreatorOf n fs r k x p) (hno : ∀ q, ¬ CreatesAt n fs k x q) :
    CreatorOf n fs r (k + 1) x p := by
  obtain ⟨hr, hcr, hlast⟩ := h
  refine ⟨by omega, hcr, fun j hj hjk q => ?_⟩
  rcases Nat.lt_succ_iff_lt_or_eq.mp hjk with hlt | rfl
  · exact hlast j hj hlt q
  · exact hno q

theorem not_createsAt {k : Nat} {f : PhysicalPacket β} {x : Slot} (hf : fs[k]? = some f)
    (h : ∀ p, ¬ Creates (handling n fs k f) f.toContent x p) (p : DiskSensorPacket β) :
    ¬ CreatesAt n fs k x p := by
  rintro ⟨g, hg, hc⟩
  obtain rfl := Option.some.inj (hf.symm.trans hg)
  exact h p hc

theorem sameAccess_extend (p : DiskSensorPacket β) (frames : List (List β)) :
    SameAccess p (extend p frames) := ⟨rfl, rfl, rfl, rfl⟩

/-- The packet in a slot was created by the last call that created one there. -/
theorem creatorOf_packetIn {k : Nat} (hk : k ≤ fs.length) {x : Slot} {p : DiskSensorPacket β}
    (h : packetIn (stateAt processPacket (init n) fs k) x = some p) :
    ∃ r, CreatorOf n fs r k x p := by
  induction k generalizing p with
  | zero => rw [stateAt_zero, packetIn_init] at h; cases h
  | succ k ih =>
    have hf := List.getElem?_eq_getElem (l := fs) (i := k) (by omega)
    generalize fs[k] = f at hf
    rw [stateAt_succ hf] at h
    cases slotStep_dispatch (s := handling n fs k f) (c := f.toContent) x with
    | created q hc hq =>
      have hqp : q = p := Option.some.inj (hq.symm.trans h)
      exact ⟨k, by omega, ⟨q, ⟨f, hf, hc⟩, hqp ▸ ⟨rfl, rfl, rfl, rfl⟩⟩, by omega⟩
    | kept hno hq =>
      obtain ⟨r, hr⟩ := ih (by omega) (packetIn_handling (hq.symm.trans h))
      exact ⟨r, hr.succ (not_createsAt hf hno)⟩
    | dropped hno hq => exact absurd (hq.symm.trans h) (by simp)
    | extended hno q frames hq _ hq' =>
      obtain rfl : extend q frames = p := Option.some.inj (hq'.symm.trans h)
      obtain ⟨r, hr⟩ := ih (by omega) (packetIn_handling hq)
      exact ⟨r, (hr.same (sameAccess_extend q frames)).succ (not_createsAt hf hno)⟩

/-- An empty slot stays empty until a packet is created there. -/
theorem packetIn_stays_none {k m : Nat} (hkm : k ≤ m) (hm : m ≤ fs.length) {x : Slot}
    (h : packetIn (stateAt processPacket (init n) fs k) x = none)
    (hno : ∀ j, k ≤ j → j < m → ∀ p, ¬ CreatesAt n fs j x p) :
    packetIn (stateAt processPacket (init n) fs m) x = none := by
  induction hkm with
  | refl => exact h
  | @step m hkm ih =>
    have hn := ih (by omega) (fun j h1 h2 => hno j h1 (by omega))
    have hf := List.getElem?_eq_getElem (l := fs) (i := m) (by omega)
    generalize fs[m] = f at hf
    have hh : packetIn (handling n fs m f) x = none := by
      rcases packetIn_arrive (stateAt processPacket (init n) fs m) f x with he | he
      · exact he.trans hn
      · exact he
    rw [stateAt_succ hf]
    cases slotStep_dispatch (s := handling n fs m f) (c := f.toContent) x with
    | created q hc _ => exact absurd ⟨f, hf, hc⟩ (hno m hkm (by omega) q)
    | kept _ hq => exact hq.trans hh
    | dropped _ hq => exact hq
    | extended _ q _ hq _ _ => rw [hh] at hq; cases hq

/-- A call that returns packets reports the one packet of the slot it feeds. -/
theorem reportsAt_of_returns {k : Nat} {f : PhysicalPacket β} (hf : fs[k]? = some f)
    {ps : List (DiskSensorPacket β)}
    (h : (processPacket (stateAt processPacket (init n) fs k) f).2 = .ok (some ps)) :
    ∃ x p, ps = [p] ∧ ReportsAt n fs k x p := by
  obtain ⟨x, p, frames, rfl, _, hfeed, _⟩ := emits_dispatch _ h
  exact ⟨x, _, rfl, f, hf, h, frames, hfeed⟩

/-- The slot a report empties, and the packet it held before the last burst. -/
theorem ReportsAt.source {k : Nat} {x : Slot} {p : DiskSensorPacket β}
    (h : ReportsAt n fs k x p) :
    ∃ f q frames, fs[k]? = some f ∧ p = report f.toContent x (extend q frames) ∧
      packetIn (handling n fs k f) x = some q ∧ Feeds (handling n fs k f) f.toContent x frames ∧
      q.size ≤ (extend q frames).data.length ∧
      packetIn (stateAt processPacket (init n) fs (k + 1)) x = none := by
  obtain ⟨f, hf, hps, frames, hfeed⟩ := h
  obtain ⟨y, q, frames', hp, hq, hfeed', hsize, hnone⟩ := emits_dispatch _ hps
  obtain rfl := hfeed.slot_unique hfeed'
  refine ⟨f, q, frames', hf, by simpa using hp, hq, hfeed', hsize, ?_⟩
  rw [stateAt_succ hf]
  exact hnone

theorem sameAccess_report (c : Content β) (x : Slot) (q : DiskSensorPacket β)
    (frames : List (List β)) : SameAccess q (report c x (extend q frames)) := by
  cases x <;> exact ⟨rfl, rfl, rfl, rfl⟩

/-- Every reported packet was created by an earlier call. -/
theorem ReportsAt.creator {k : Nat} {x : Slot} {p : DiskSensorPacket β}
    (h : ReportsAt n fs k x p) : ∃ r, CreatorOf n fs r k x p := by
  obtain ⟨f, q, frames, hf, rfl, hq, _⟩ := h.source
  have hk := (List.getElem?_eq_some_iff.mp hf).1
  obtain ⟨r, hr⟩ := creatorOf_packetIn (by omega) (packetIn_handling hq)
  exact ⟨r, hr.same (sameAccess_report f.toContent x q frames)⟩

theorem reports_lt_absurd {r k k' : Nat} {x : Slot} {p p' : DiskSensorPacket β} (hlt : k < k')
    (h : ReportsAt n fs k x p) (h' : ReportsAt n fs k' x p') (hr : CreatorOf n fs r k x p)
    (hr' : CreatorOf n fs r k' x p') : False := by
  obtain ⟨_, _, _, _, _, _, _, _, hnone⟩ := h.source
  obtain ⟨f, q, _, hf, _, hq, _⟩ := h'.source
  have hk := (List.getElem?_eq_some_iff.mp hf).1
  have := packetIn_stays_none (m := k') hlt (by omega) hnone
    (fun j h1 h2 => hr'.2.2 j (by have := hr.1; omega) h2)
  rw [packetIn_handling hq] at this
  cases this

/-- No command is reported twice: a register frame is the creator of one
report at most. -/
theorem creatorOf_injective {r k k' : Nat} {x x' : Slot} {p p' : DiskSensorPacket β}
    (h : ReportsAt n fs k x p) (h' : ReportsAt n fs k' x' p') (hr : CreatorOf n fs r k x p)
    (hr' : CreatorOf n fs r k' x' p') : k = k' := by
  obtain ⟨q, ⟨f, hf, hc⟩, _⟩ := hr.2.1
  obtain ⟨q', ⟨f', hf', hc'⟩, _⟩ := hr'.2.1
  obtain rfl : f = f' := Option.some.inj (hf.symm.trans hf')
  obtain rfl := hc.slot_unique hc'
  rcases Nat.lt_trichotomy k k' with hlt | heq | hgt
  · exact (reports_lt_absurd hlt h h' hr hr').elim
  · exact heq
  · exact (reports_lt_absurd hgt h' h hr' hr).elim

end LoPhi.Sata.Slots
