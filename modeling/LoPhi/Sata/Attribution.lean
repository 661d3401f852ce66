import LoPhi.Sata.Slots

/-! # Whose bytes a packet holds

The queue of buffered data frames and its byte count are shared by all tags, so
every way out of a transfer has to clear them. A PIO Setup and a command outside
NCQ do not: what was buffered goes into the next burst, whatever its tag. And a
command that re-uses the tag of a transfer in progress gets the frames buffered
for the command before it. In a run without these, every byte of a reported
packet is traced to a data frame received for its command. -/

namespace LoPhi.Sata.Attribution
open LoPhi.Lib.Python LoPhi.Lib.Machine
open LoPhi.Sata.Frame LoPhi.Sata.Reconstructor LoPhi.Sata.Step LoPhi.Sata.Slots

variable {β : Type} {s t : SATAReconstructor β} {c : Content β}

/-- The frame makes the reconstructor lose track of the transfer on the stack: a
PIO Setup or a new command outside NCQ, or, with frames of the transfer already
buffered, a new command with the tag of the transfer. -/
def Misdirects (s : SATAReconstructor β) (c : Content β) : Prop :=
  match c.fis with
  | .pioSetup _ => s.ncqDmaStack ≠ []
  | .registerHtoD r => c.direction = hostToDevice ∧
      (IsRegular r ∧ RegularPacks s.sectorSize c.direction r ∧ s.ncqDmaStack ≠ [] ∨
        IsNcq r ∧ NcqPacks s.sectorSize r ∧ s.ncqDataPackets ≠ [] ∧
          s.ncqDmaStack.head?.map DmaSetup.dmaBufIdentifierLow = some r.tag)
  | _ => False

instance (s : SATAReconstructor β) : DecidablePred (Misdirects s) := fun c =>
  match h : c.fis with
  | .pioSetup _ => decidable_of_iff (s.ncqDmaStack.isEmpty = false) (by simp [Misdirects, h])
  | .registerHtoD r => decidable_of_iff (c.direction = hostToDevice ∧
      (IsRegular r ∧ RegularPacks s.sectorSize c.direction r ∧ s.ncqDmaStack.isEmpty = false ∨
        IsNcq r ∧ NcqPacks s.sectorSize r ∧ s.ncqDataPackets.isEmpty = false ∧
          s.ncqDmaStack.head?.map DmaSetup.dmaBufIdentifierLow = some r.tag))
      (by simp [Misdirects, h])
  | .registerDtoH _ | .dmaActivate _ | .dmaSetup _ | .data | .bistActivate | .setDeviceBits _ =>
    isFalse (by simp [Misdirects, h])

/-! ## The burst in progress -/

/-- Either no transfer is on the stack and nothing is buffered, or `STATE` waits
for the data of the one transfer on the stack. -/
def Orderly (s : SATAReconstructor β) : Prop :=
  s.ncqDmaStack = [] ∧ s.ncqDataPackets = [] ∨
    WaitsForDma s.state ∧ ∃ d, s.ncqDmaStack = [d]

theorem Orderly.of_eq (h : Orderly s) (hst : t.state = s.state)
    (hs : t.ncqDmaStack = s.ncqDmaStack) (hq : t.ncqDataPackets = s.ncqDataPackets) :
    Orderly t := by
  unfold Orderly at h ⊢
  rwa [hst, hs, hq]

theorem Orderly.empty (h : Orderly s) (hw : ¬ WaitsForDma s.state) :
    s.ncqDmaStack = [] ∧ s.ncqDataPackets = [] := by
  rcases h with h | h
  · exact h
  · exact absurd h.1 hw

theorem Orderly.rest {d : DmaSetup} {rest : List DmaSetup} (h : Orderly s)
    (hs : s.ncqDmaStack = d :: rest) : rest = [] := by
  rcases h with ⟨he, _⟩ | ⟨_, d', hd⟩
  · rw [he] at hs; cases hs
  · rw [hd] at hs; exact (List.cons.inj hs).2.symm

/-- What a call does to the stack and the buffered frames. A register frame that
leaves them alone came from the host. -/
inductive BurstStep (s : SATAReconstructor β) (c : Content β) (o : Call β) : Prop where
  | cleared (hq : o.1.ncqDataPackets = [])
  | kept (hs : o.1.ncqDmaStack = s.ncqDmaStack) (hq : o.1.ncqDataPackets = s.ncqDataPackets)
      (hr : ∀ r, Handed s c r → c.direction = hostToDevice)
  | buffered (ha : IsAwaited s.state c) (hs : o.1.ncqDmaStack = s.ncqDmaStack)
      (hq : o.1.ncqDataPackets = s.ncqDataPackets ++ [c.sataData])

/-- The call keeps order, and its effect on the burst is one of the three. -/
def Traces (s : SATAReconstructor β) (c : Content β) (o : Call β) : Prop :=
  Orderly o.1 ∧ BurstStep s c o

theorem traces_same (h : Orderly s) (hr : ∀ r, Handed s c r → c.direction = hostToDevice)
    {o : Call β} (hst : o.1.state = s.state) (hs : o.1.ncqDmaStack = s.ncqDmaStack)
    (hq : o.1.ncqDataPackets = s.ncqDataPackets) : Traces s c o :=
  ⟨h.of_eq hst hs hq, .kept hs hq hr⟩

theorem traces_empty {o : Call β} (hs : o.1.ncqDmaStack = []) (hq : o.1.ncqDataPackets = []) :
    Traces s c o := ⟨.inl ⟨hs, hq⟩, .cleared hq⟩

theorem traces_setup {o : Outcome β} (d : DmaSetup) (hs : t.ncqDmaStack = [])
    (hq : t.ncqDataPackets = []) : Traces s c ((handleDmaSetup t d).1, o) := by
  refine ⟨.inr ⟨?_, d, by simp [handleDmaSetup, hs]⟩, .cleared hq⟩
  unfold handleDmaSetup
  dsimp only
  split
  · exact .inr rfl
  · exact .inl rfl

theorem traces_unexpected (hs : t.ncqDmaStack = []) (hq : t.ncqDataPackets = []) :
    Traces s c (handleUnexpectedPacket t c) := by
  apply handleUnexpectedPacket_cases (Traces s c)
  · intro r _
    apply handleRegisterHTD_cases (Traces s c) <;> intros <;> exact traces_empty hs hq
  · intro d _; exact traces_setup d hs hq
  · intro _ _; exact traces_empty hs hq

theorem traces_ncqData (h : Orderly s) (ha : IsAwaited s.state c) :
    Traces s c (handleNcqDataPacket s c.sataData) := by
  have hr : ∀ r, Handed s c r → c.direction = hostToDevice := by
    intro r hh
    have := ha.1.symm.trans hh.1
    cases this
  have hb : ∀ d rest o, s.ncqDmaStack = d :: rest → Traces s c (buffer s c.sataData, o) := by
    intro d rest o hs
    refine ⟨.inr ⟨ha.waits, d, ?_⟩, .buffered ha rfl rfl⟩
    rw [← h.rest hs]
    exact hs
  apply handleNcqDataPacket_cases (Traces s c)
  case noSetup | outOfRange | unknown => intros; exact traces_same h hr rfl rfl rfl
  case buffered => intro d rest _ hs _ _; exact hb d rest _ hs
  case noPacket => intro d rest _ e _ hs _ _; exact hb d rest _ hs
  case burst => intro d rest _ _ hs _ _ _ _; exact traces_empty (h.rest hs) rfl
  case command => intro d rest _ _ hs _ _ _ _; exact traces_empty (h.rest hs) rfl

theorem traces_register {r : RegisterHtoD} (h : Orderly s) (hm : ¬ Misdirects s c)
    (hf : c.fis = .registerHtoD r) (hd : c.direction = hostToDevice) :
    Traces s c (handleRegisterHTD s c.direction r) := by
  have hr : ∀ r, Handed s c r → c.direction = hostToDevice := fun _ _ => hd
  apply handleRegisterHTD_cases (Traces s c)
  case regular =>
    intro hreg hp
    have hs : s.ncqDmaStack = [] := by
      by_contra hs
      refine hm ?_
      unfold Misdirects
      rw [hf]
      exact ⟨hd, .inl ⟨hreg, hp, hs⟩⟩
    rcases h with ⟨_, hq⟩ | ⟨_, d, hd⟩
    · exact traces_empty hs hq
    · rw [hd] at hs; cases hs
  all_goals intros; exact traces_same h hr rfl rfl rfl

theorem traces_inState (h : Orderly s) (hc : LeftToState c) :
    Traces s c (processInState s c) := by
  have hnot : ∀ {st}, s.state = st → ¬ WaitsForDma st → ¬ WaitsForDma s.state :=
    fun hst hw => hst ▸ hw
  apply processInState_cases (Traces s c) hc
  case setup =>
    intro d hst _ _
    obtain ⟨hs, hq⟩ := h.empty (hnot hst (by decide))
    exact traces_setup d hs hq
  case idle =>
    intro hst _
    obtain ⟨hs, hq⟩ := h.empty (hnot hst (by decide))
    exact traces_empty hs hq
  case unexpected =>
    intro hst
    have hw : ¬ WaitsForDma s.state := by
      rcases hst with hst | ⟨hst, _⟩ <;> exact hnot hst (by decide)
    obtain ⟨hs, hq⟩ := h.empty hw
    exact traces_unexpected hs hq
  case burst => intro ha; exact traces_ncqData h ha
  case abandon =>
    intro _ _
    apply abandonBurst_cases (Traces s c)
    · intro _; exact traces_empty rfl rfl
    · intro d rest hs; exact traces_unexpected (h.rest hs) rfl
  case regular =>
    intro hst _
    obtain ⟨hs, hq⟩ := h.empty (hnot hst (by decide))
    apply handleNonNcqDataPacket_cases (Traces s c) <;> intros <;> exact traces_empty hs hq

/-- A frame that does not misdirect keeps the burst in order. -/
theorem traces_dispatch (h : Orderly s) (hm : ¬ Misdirects s c) : Traces s c (dispatch s c) := by
  have hr : (∀ r, c.fis ≠ .registerHtoD r) → ∀ r, Handed s c r → c.direction = hostToDevice :=
    fun hne r hh => absurd hh.1 (hne r)
  apply dispatch_cases (Traces s c)
  case activate =>
    intro ha
    refine traces_same h (hr ?_) rfl rfl rfl
    rcases ha with ⟨a, ha⟩ | ha <;> simp [ha]
  case bits =>
    intro b hb
    rw [handleSetDeviceBits_eq hb]
    split
    · exact traces_empty rfl rfl
    · exact traces_same h (hr (by simp [hb])) rfl rfl rfl
  case register => intro r hf hd; exact traces_register h hm hf hd
  case status =>
    intro r hf hd
    rw [handleNcqRegisterDTH_eq hf hd]
    split
    · exact traces_empty rfl rfl
    · exact traces_same h (hr (by simp [hf])) rfl rfl rfl
  case pio =>
    intro p hp
    have hs : s.ncqDmaStack = [] := by simpa [Misdirects, hp] using hm
    rcases h with ⟨_, hq⟩ | ⟨_, d, hd⟩
    · exact traces_empty hs hq
    · rw [hd] at hs; cases hs
  case inState => intro hc; exact traces_inState h hc

theorem orderly_arrive (f : PhysicalPacket β) (h : Orderly s) : Orderly (arrive s f) := by
  unfold arrive checkSequence
  split
  · exact .inl ⟨rfl, rfl⟩
  · exact h.of_eq rfl rfl rfl

/-! ## Where the bytes come from -/

/-- The payload, checksum included, of frame `i`. -/
def dataAt (fs : List (PhysicalPacket β)) (i : Nat) : List β :=
  match fs[i]? with
  | some f => f.sataData
  | none => []

/-- Frame `i` is a data frame, received while the setup on top of the stack was
for the tag of the slot; outside NCQ, while no setup was on the stack. -/
def Receives (n : Nat) (fs : List (PhysicalPacket β)) (i : Nat) (x : Slot) : Prop :=
  ∃ f, fs[i]? = some f ∧ f.fis = .data ∧
    match x with
    | .ncq tag => ∃ d rest, (handling n fs i f).ncqDmaStack = d :: rest ∧
        d.dmaBufIdentifierLow = tag
    | .regular => (handling n fs i f).ncqDmaStack = []

/-- The data is the payload of frames received for slot `x` after call `r` and
before call `k`. -/
def Sourced (n : Nat) (fs : List (PhysicalPacket β)) (r k : Nat) (x : Slot) (data : List β) :
    Prop :=
  ∃ is : List Nat, data = is.flatMap (fun i => payload (dataAt fs i)) ∧
    ∀ i ∈ is, r < i ∧ i < k ∧ Receives n fs i x

/-- No payload crosses commands: every packet a call returns was created by an
earlier register frame, and all of its data was received for it since. -/
def NoCrossing (n : Nat) (fs : List (PhysicalPacket β)) : Prop :=
  ∀ k ps, (outputs processPacket (init n) fs)[k]? = some (.ok (some ps)) → ∀ p ∈ ps,
    ∃ x r, ReportsAt n fs k x p ∧ CreatorOf n fs r k x p ∧ Sourced n fs r (k + 1) x p.data

/-- The buffered frames arrived before call `k`, for the tag on top of the stack,
and no command has taken that tag since. -/
def QueueFrom (n : Nat) (fs : List (PhysicalPacket β)) (k : Nat) (s : SATAReconstructor β) :
    Prop :=
  ∃ is : List Nat, s.ncqDataPackets = is.map (dataAt fs) ∧
    ∀ i ∈ is, i < k ∧ ∀ d rest, s.ncqDmaStack = d :: rest →
      Receives n fs i (.ncq d.dmaBufIdentifierLow) ∧
      ∀ j, i ≤ j → j < k → ∀ p, ¬ CreatesAt n fs j (.ncq d.dmaBufIdentifierLow) p

/-- Every packet under construction holds what was received for it. -/
def SlotsFrom (n : Nat) (fs : List (PhysicalPacket β)) (k : Nat) (s : SATAReconstructor β) :
    Prop :=
  ∀ x p, packetIn s x = some p → ∃ r, CreatorOf n fs r k x p ∧ Sourced n fs r k x p.data

variable {n k : Nat} {fs : List (PhysicalPacket β)} {f : PhysicalPacket β}

theorem dataAt_eq (hf : fs[k]? = some f) : dataAt fs k = f.sataData := by
  simp only [dataAt, hf]

theorem queueFrom_of_nil (h : s.ncqDataPackets = []) : QueueFrom n fs k s :=
  ⟨[], h, by simp⟩

theorem queueFrom_arrive (h : QueueFrom n fs k s) : QueueFrom n fs k (arrive s f) := by
  unfold arrive checkSequence
  split
  · exact queueFrom_of_nil rfl
  · exact h

theorem slotsFrom_arrive (h : SlotsFrom n fs k s) : SlotsFrom n fs k (arrive s f) := by
  intro x p hp
  rcases packetIn_arrive s f x with he | he
  · exact h x p (he ▸ hp)
  · rw [he] at hp; cases hp

/-- A frame that leaves a non-empty queue alone creates nothing for the tag the
queue belongs to. -/
theorem not_creates_top {d : DmaSetup} {rest : List DmaSetup} (hm : ¬ Misdirects s c)
    (hr : ∀ r, Handed s c r → c.direction = hostToDevice) (hs : s.ncqDmaStack = d :: rest)
    (hq : s.ncqDataPackets ≠ []) (p : DiskSensorPacket β) :
    ¬ Creates s c (.ncq d.dmaBufIdentifierLow) p := by
  rintro ⟨r, hh, ⟨htag, hn, _, _, hp, _⟩ | ⟨hx, _⟩⟩
  · refine hm ?_
    unfold Misdirects
    rw [hh.1]
    have htop : s.ncqDmaStack.head?.map DmaSetup.dmaBufIdentifierLow = some r.tag := by
      rw [hs]
      exact congrArg some (Slot.ncq.inj htag)
    exact ⟨hr r hh, .inr ⟨hn, hp, hq, htop⟩⟩
  · cases hx

/-- One call keeps the origin of the buffered frames known. -/
theorem queueFrom_step (hf : fs[k]? = some f) (hm : ¬ Misdirects (handling n fs k f) f.toContent)
    (hb : BurstStep (handling n fs k f) f.toContent (dispatch (handling n fs k f) f.toContent))
    (h : QueueFrom n fs k (handling n fs k f)) :
    QueueFrom n fs (k + 1) (dispatch (handling n fs k f) f.toContent).1 := by
  obtain ⟨is, his, hall⟩ := h
  -- the frames already buffered stay attributed if call `k` creates nothing for the tag
  have older : ∀ i ∈ is, ∀ d rest, (handling n fs k f).ncqDmaStack = d :: rest →
      (∀ p, ¬ Creates (handling n fs k f) f.toContent (.ncq d.dmaBufIdentifierLow) p) →
      Receives n fs i (.ncq d.dmaBufIdentifierLow) ∧
        ∀ j, i ≤ j → j < k + 1 → ∀ p, ¬ CreatesAt n fs j (.ncq d.dmaBufIdentifierLow) p := by
    intro i hi d rest hs hno
    obtain ⟨hrec, hcr⟩ := (hall i hi).2 d rest hs
    refine ⟨hrec, fun j hij hjk => ?_⟩
    rcases Nat.lt_succ_iff_lt_or_eq.mp hjk with hlt | rfl
    · exact hcr j hij hlt
    · exact not_createsAt hf hno
  cases hb with
  | cleared hq => exact queueFrom_of_nil hq
  | kept hs hq hr =>
    refine ⟨is, hq.trans his, fun i hi => ⟨Nat.lt_succ_of_lt (hall i hi).1, ?_⟩⟩
    intro d rest hd
    rw [hs] at hd
    refine older i hi d rest hd (not_creates_top hm hr hd ?_)
    rw [his]
    exact List.map_eq_nil_iff.not.mpr (List.ne_nil_of_mem hi)
  | buffered ha hs hq =>
    have hno : ∀ x p, ¬ Creates (handling n fs k f) f.toContent x p :=
      fun x => not_creates_of_not_register (by simp [ha.1])
    refine ⟨is ++ [k], ?_, ?_⟩
    · rw [hq, his, List.map_append, List.map_singleton, dataAt_eq hf]
    · intro i hi
      rcases List.mem_append.mp hi with hi | hi
      · refine ⟨Nat.lt_succ_of_lt (hall i hi).1, fun d rest hd => ?_⟩
        rw [hs] at hd
        exact older i hi d rest hd (hno _)
      · obtain rfl := List.mem_singleton.mp hi
        refine ⟨Nat.lt_succ_self _, fun d rest hd => ⟨?_, ?_⟩⟩
        · rw [hs] at hd
          exact ⟨f, hf, ha.1, d, rest, hd, rfl⟩
        · intro j hij hjk
          obtain rfl : j = i := by omega
          exact not_createsAt hf (hno _)

/-- What a data frame adds to a packet was received for it. -/
theorem sourced_extend {x : Slot} {r : Nat} {p : DiskSensorPacket β} {frames : List (List β)}
    (hf : fs[k]? = some f) (ho : Orderly (handling n fs k f))
    (hq : QueueFrom n fs k (handling n fs k f))
    (hfeed : Feeds (handling n fs k f) f.toContent x frames) (hr : CreatorOf n fs r k x p)
    (h : Sourced n fs r k x p.data) : Sourced n fs r (k + 1) x (extend p frames).data := by
  obtain ⟨is, his, hall⟩ := h
  have hold : ∀ i ∈ is, r < i ∧ i < k + 1 ∧ Receives n fs i x := fun i hi =>
    ⟨(hall i hi).1, Nat.lt_succ_of_lt (hall i hi).2.1, (hall i hi).2.2⟩
  cases x with
  | regular =>
    obtain ⟨hst, hdata, rfl⟩ := hfeed
    refine ⟨is ++ [k], ?_, ?_⟩
    · simp [extend, his, dataAt_eq hf]
    · intro i hi
      rcases List.mem_append.mp hi with hi | hi
      · exact hold i hi
      · obtain rfl := List.mem_singleton.mp hi
        have hw : ¬ WaitsForDma (handling n fs i f).state := by rw [hst]; decide
        exact ⟨hr.1, Nat.lt_succ_self _, f, hf, hdata, (ho.empty hw).1⟩
  | ncq tag =>
    obtain ⟨ha, rfl, d, rest, hs, rfl⟩ := hfeed
    obtain ⟨qs, hqs, hqall⟩ := hq
    refine ⟨is ++ (qs ++ [k]), ?_, ?_⟩
    · simp [extend, his, hqs, dataAt_eq hf, List.flatMap_def, Function.comp_def]
    · intro i hi
      rcases List.mem_append.mp hi with hi | hi
      · exact hold i hi
      · rcases List.mem_append.mp hi with hi | hi
        · obtain ⟨hik, hrest⟩ := hqall i hi
          obtain ⟨hrec, hno⟩ := hrest d rest hs
          refine ⟨?_, Nat.lt_succ_of_lt hik, hrec⟩
          by_contra hri
          obtain ⟨q, hc, _⟩ := hr.2.1
          exact hno r (by omega) hr.1 q hc
        · obtain rfl := List.mem_singleton.mp hi
          exact ⟨hr.1, Nat.lt_succ_self _, f, hf, ha.1, d, rest, hs, rfl⟩

theorem Sourced.succ {x : Slot} {r : Nat} {data : List β} (h : Sourced n fs r k x data) :
    Sourced n fs r (k + 1) x data := by
  obtain ⟨is, his, hall⟩ := h
  exact ⟨is, his, fun i hi =>
    ⟨(hall i hi).1, Nat.lt_succ_of_lt (hall i hi).2.1, (hall i hi).2.2⟩⟩

/-- A new packet holds nothing yet. -/
theorem Creates.data_nil {x : Slot} {p : DiskSensorPacket β} (h : Creates s c x p) :
    p.data = [] := by
  obtain ⟨r, _, ⟨_, _, _, _, _, rfl⟩ | ⟨_, _, _, rfl⟩⟩ := h <;> rfl

/-- One call keeps the origin of every packet's data known. -/
theorem slotsFrom_step (hf : fs[k]? = some f) (ho : Orderly (handling n fs k f))
    (hq : QueueFrom n fs k (handling n fs k f)) (h : SlotsFrom n fs k (handling n fs k f)) :
    SlotsFrom n fs (k + 1) (dispatch (handling n fs k f) f.toContent).1 := by
  intro x p hp
  cases slotStep_dispatch (s := handling n fs k f) (c := f.toContent) x with
  | created q hc hq =>
    obtain rfl : q = p := Option.some.inj (hq.symm.trans hp)
    refine ⟨k, ⟨Nat.lt_succ_self k, ⟨q, ⟨f, hf, hc⟩, rfl, rfl, rfl, rfl⟩, by omega⟩, [], ?_, ?_⟩
    · rw [Creates.data_nil hc]; rfl
    · simp
  | kept hno hq =>
    obtain ⟨r, hr, hsrc⟩ := h x p (hq.symm.trans hp)
    exact ⟨r, hr.succ (not_createsAt hf hno), hsrc.succ⟩
  | dropped _ hq => rw [hq] at hp; cases hp
  | extended hno q frames hs hfeed hq' =>
    obtain rfl : extend q frames = p := Option.some.inj (hq'.symm.trans hp)
    obtain ⟨r, hr, hsrc⟩ := h x q hs
    exact ⟨r, (hr.same (sameAccess_extend q frames)).succ (not_createsAt hf hno),
      sourced_extend hf ho hq hfeed hr hsrc⟩

/-! ## Runs -/

/-- Order and origins before call `k`. -/
def TracedAt (n : Nat) (fs : List (PhysicalPacket β)) (k : Nat) : Prop :=
  Orderly (stateAt processPacket (init n) fs k) ∧
    QueueFrom n fs k (stateAt processPacket (init n) fs k) ∧
    SlotsFrom n fs k (stateAt processPacket (init n) fs k)

theorem tracedAt_run (hok : ∀ k f, fs[k]? = some f → ¬ Misdirects (handling n fs k f) f.toContent)
    (k : Nat) (hk : k ≤ fs.length) : TracedAt n fs k := by
  induction k with
  | zero =>
    refine ⟨.inl ⟨rfl, rfl⟩, queueFrom_of_nil rfl, fun x p hp => ?_⟩
    rw [stateAt_zero, packetIn_init] at hp
    cases hp
  | succ k ih =>
    obtain ⟨ho, hq, hs⟩ := ih (by omega)
    have hf := List.getElem?_eq_getElem (l := fs) (i := k) (by omega)
    generalize fs[k] = f at hf
    have ho' : Orderly (handling n fs k f) := orderly_arrive f ho
    have hq' : QueueFrom n fs k (handling n fs k f) := queueFrom_arrive hq
    obtain ⟨hnext, hburst⟩ := traces_dispatch ho' (hok k f hf)
    unfold TracedAt
    rw [stateAt_succ hf]
    exact ⟨hnext, queueFrom_step hf (hok k f hf) hburst hq',
      slotsFrom_step hf ho' hq' (slotsFrom_arrive hs)⟩

/-- **In a run in which no frame misdirects a transfer, no payload crosses
commands.** -/
theorem noCrossing_of_not_misdirects (n : Nat) (fs : List (PhysicalPacket β))
    (hok : ∀ k f, fs[k]? = some f → ¬ Misdirects (handling n fs k f) f.toContent) :
    NoCrossing n fs := by
  intro k ps hk p hp
  have hlt : k < fs.length := by
    have := (List.getElem?_eq_some_iff.mp hk).1
    simpa using this
  rw [outputs_get (List.getElem?_eq_getElem hlt), Option.some.injEq] at hk
  obtain ⟨x, p', rfl, hrep⟩ := reportsAt_of_returns (List.getElem?_eq_getElem hlt) hk
  obtain rfl := List.mem_singleton.mp hp
  obtain ⟨f, q, frames, hf, rfl, hq, hfeed, _⟩ := hrep.source
  obtain ⟨ho, hqueue, hslots⟩ := tracedAt_run hok k (Nat.le_of_lt hlt)
  obtain ⟨r, hr, hsrc⟩ := slotsFrom_arrive (f := f) hslots x q hq
  refine ⟨x, r, hrep, hr.same (sameAccess_report f.toContent x q frames), ?_⟩
  have hdata := sourced_extend hf (orderly_arrive f ho) (queueFrom_arrive hqueue) hfeed hr hsrc
  cases x <;> exact hdata

/-- Reads with tags 1 and 2 are queued; a PIO Setup cuts into the transfer for
tag 1 when four of its eight bytes are buffered, then tag 2 is served. -/
def pioInTransfer : List (PhysicalPacket UInt8) :=
  [ { lophiSeqn := 1, direction := hostToDevice,
      fis := .registerHtoD { C := 1, command := 0x60, tag := 1, features := 2, lba := 100 } },
    { lophiSeqn := 2, direction := hostToDevice,
      fis := .registerHtoD { C := 1, command := 0x60, tag := 2, features := 2, lba := 200 } },
    { lophiSeqn := 3, direction := deviceToHost,
      fis := .dmaSetup { directionBit := 1, dmaBufIdentifierLow := 1, transferCount := 8 } },
    { lophiSeqn := 4, direction := deviceToHost, fis := .data,
      sataData := [1, 2, 3, 4, 0, 0, 0, 0] },
    { lophiSeqn := 5, direction := deviceToHost, fis := .pioSetup { transferCount := 8 } },
    { lophiSeqn := 6, direction := deviceToHost,
      fis := .dmaSetup { directionBit := 1, dmaBufIdentifierLow := 2, transferCount := 8 } },
    { lophiSeqn := 7, direction := deviceToHost, fis := .data,
      sataData := [5, 6, 7, 8, 0, 0, 0, 0] } ]

theorem pioInTransfer_reports :
    (outputs processPacket (init 4) pioInTransfer)[6]? =
      some (.ok (some [⟨200, 2, 0, 8, [1, 2, 3, 4, 5, 6, 7, 8], none⟩])) := by decide

/-- The read of tag 2 is reported with the four bytes received for tag 1. -/
theorem pioInTransfer_crosses : ¬ NoCrossing 4 pioInTransfer := by
  intro h
  obtain ⟨x, r, hrep, _, is, hdata, hall⟩ :=
    h 6 _ pioInTransfer_reports _ (List.mem_singleton_self _)
  obtain ⟨f, hf, _, frames, hfeed⟩ := hrep
  obtain rfl := Option.some.inj hf
  have hmem : (1 : UInt8) ∈ is.flatMap (fun i => payload (dataAt pioInTransfer i)) := by
    rw [← hdata]; decide
  obtain ⟨i, hi, h1⟩ := List.mem_flatMap.mp hmem
  obtain ⟨_, hlt, g, hg, _, hrec⟩ := hall i hi
  -- only the frame of tag 1 holds the byte, and then tag 1 was on top
  obtain rfl : i = 3 := by
    have hcases : ∀ i < 7, (1 : UInt8) ∈ payload (dataAt pioInTransfer i) → i = 3 := by decide
    exact hcases i hlt h1
  obtain rfl := Option.some.inj hg
  cases x with
  | regular => cases hrec
  | ncq tag =>
    obtain ⟨_, _, d, rest, hs, rfl⟩ := hfeed
    obtain ⟨d', rest', hs', htag⟩ := hrec
    obtain ⟨rfl, _⟩ := List.cons.inj hs
    obtain ⟨rfl, _⟩ := List.cons.inj hs'
    exact absurd htag (by decide)

/-- The data of a read arrives in two frames, and a command with another tag is
queued between them. -/
def splitBurst : List (PhysicalPacket UInt8) :=
  [ { lophiSeqn := 1, direction := hostToDevice,
      fis := .registerHtoD { C := 1, command := 0x60, tag := 1, features := 1, lba := 100 } },
    { lophiSeqn := 2, direction := deviceToHost,
      fis := .dmaSetup { directionBit := 1, dmaBufIdentifierLow := 1, transferCount := 4 } },
    { lophiSeqn := 3, direction := deviceToHost, fis := .data, sataData := [1, 2, 0, 0, 0, 0] },
    { lophiSeqn := 4, direction := hostToDevice,
      fis := .registerHtoD { C := 1, command := 0x60, tag := 2, features := 1, lba := 200 } },
    { lophiSeqn := 5, direction := deviceToHost, fis := .data, sataData := [3, 4, 0, 0, 0, 0] } ]

theorem splitBurst_attributed :
    ∃ x r, CreatorOf 4 splitBurst r 4 x ⟨100, 1, 0, 4, [1, 2, 3, 4], none⟩ ∧
      Sourced 4 splitBurst r 5 x [1, 2, 3, 4] := by
  have hok : ∀ k f, splitBurst[k]? = some f →
      ¬ Misdirects (handling 4 splitBurst k f) f.toContent := by
    intro k f hf
    match k, hf with
    | 0, hf | 1, hf | 2, hf | 3, hf | 4, hf => obtain rfl := Option.some.inj hf; decide
  have hout : (outputs processPacket (init 4) splitBurst)[4]? =
      some (.ok (some [⟨100, 1, 0, 4, [1, 2, 3, 4], none⟩])) := by decide
  obtain ⟨x, r, _, hc, hs⟩ :=
    noCrossing_of_not_misdirects 4 splitBurst hok 4 _ hout _ (List.mem_singleton_self _)
  exact ⟨x, r, hc, hs⟩

end LoPhi.Sata.Attribution
