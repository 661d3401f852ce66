import LoPhi.Sata.Slots

/-! # Tags as table indices

Both tag tables have 32 entries. A register frame indexes them with a 5-bit
tag, a data frame with the 32-bit buffer identifier of the DMA Setup on top of
the stack, which nothing masks. So the one access that can leave the tables is
made by a data frame, some frames after the setup that makes it do so. -/

namespace LoPhi.Sata.TagRange
open LoPhi.Lib.Python LoPhi.Lib.Machine
open LoPhi.Sata.Frame LoPhi.Sata.Reconstructor LoPhi.Sata.Step LoPhi.Sata.Slots

variable {β : Type} {s : SATAReconstructor β} {c : Content β} {n : Nat}

/-- Both tag tables have their 32 entries. -/
structure Tables (s : SATAReconstructor β) : Prop where
  transactions : s.ncqTransactionsOutstanding.length = 32
  data : s.ncqDataOutstanding.length = 32

/-- A Register FIS from the host carries a 5-bit tag. -/
def TagFits (c : Content β) : Prop := ∀ r, c.fis = .registerHtoD r → r.tag < 32

/-- The frame is the data frame `STATE` waits for, and the setup on top of the
stack names no tag. -/
def Overruns (s : SATAReconstructor β) (c : Content β) : Prop :=
  IsAwaited s.state c ∧ ∃ d rest, s.ncqDmaStack = d :: rest ∧ 32 ≤ d.dmaBufIdentifierLow

theorem not_isAwaited (h : ¬ WaitsForDma s.state) : ¬ IsAwaited s.state c := fun ha => h ha.waits

theorem tables_arrive (f : PhysicalPacket β) (h : Tables s) : Tables (arrive s f) := by
  unfold arrive checkSequence
  split
  · exact ⟨List.length_replicate, List.length_replicate⟩
  · exact ⟨h.transactions, h.data⟩

theorem tables_dispatch (h : Tables s) : Tables (dispatch s c).1 :=
  ⟨keeps_dispatch.transactions h.transactions, keeps_dispatch.data h.data⟩

theorem tables_run (fs : List (PhysicalPacket β)) {k : Nat} (hk : k ≤ fs.length) :
    Tables (stateAt processPacket (init n) fs k) := by
  refine stateAt_invariant Tables ?_ ?_ k hk
  · exact ⟨List.length_replicate, List.length_replicate⟩
  · intro k f hf h
    rw [stateAt_succ hf]
    exact tables_dispatch (tables_arrive f h)

/-! ## One call -/

/-- The call raises no `IndexError`. -/
def InRange (o : Call β) : Prop := o.2 ≠ .error .indexOutOfRange

theorem inRange_register {direction : Nat} {r : RegisterHtoD} (h : Tables s) (ht : r.tag < 32) :
    InRange (handleRegisterHTD s direction r) := by
  by_cases hn : IsNcq r
  · rw [handleRegisterHTD_ncq hn, if_pos (by rw [h.transactions]; exact ht)]
    split
    · rw [if_pos (by rw [h.data]; exact ht)]
      exact nofun
    · exact nofun
  · by_cases hr : IsRegular r
    · rw [handleRegisterHTD_regular hr]
      split <;> exact nofun
    · rw [handleRegisterHTD_ignored hn hr]
      exact nofun

theorem inRange_unexpected (h : Tables s) (ht : TagFits c) :
    InRange (handleUnexpectedPacket s c) := by
  apply handleUnexpectedPacket_cases InRange
  · intro r hr; exact inRange_register ⟨h.transactions, h.data⟩ (ht r hr)
  · intro d _; exact nofun
  · intro _ _; exact nofun

/-- A data frame of a transfer raises exactly when the setup names no tag. -/
theorem inRange_ncqData_iff {data : List β} (h : Tables s) :
    InRange (handleNcqDataPacket s data) ↔
      ∀ d rest, s.ncqDmaStack = d :: rest → d.dmaBufIdentifierLow < 32 := by
  cases hs : s.ncqDmaStack with
  | nil =>
    rw [handleNcqDataPacket_nil hs]
    exact iff_of_true nofun nofun
  | cons d rest =>
    have hone : (∀ d' rest', d :: rest = d' :: rest' → d'.dmaBufIdentifierLow < 32) ↔
        d.dmaBufIdentifierLow < 32 := by
      constructor
      · intro hall; exact hall d rest rfl
      · rintro hlt _ _ ⟨⟩; exact hlt
    rw [hone, handleNcqDataPacket_cons hs]
    by_cases hlt : d.dmaBufIdentifierLow < 32
    · refine iff_of_true ?_ hlt
      obtain ⟨transaction, ht⟩ : ∃ e, s.ncqTransactionsOutstanding[d.dmaBufIdentifierLow]? =
          some e := ⟨_, List.getElem?_eq_getElem (by rw [h.transactions]; exact hlt)⟩
      obtain ⟨entry, hd⟩ : ∃ e, s.ncqDataOutstanding[d.dmaBufIdentifierLow]? = some e :=
        ⟨_, List.getElem?_eq_getElem (by rw [h.data]; exact hlt)⟩
      rw [ht, hd]
      cases transaction with
      | none => exact nofun
      | some r =>
        dsimp only
        split
        · cases entry with
          | none => exact nofun
          | some p => dsimp only; split <;> exact nofun
        · exact nofun
    · refine iff_of_false ?_ hlt
      rw [List.getElem?_eq_none (by rw [h.transactions]; omega)]
      exact fun hr => hr rfl

theorem inRange_nonNcqData {direction : Nat} {data : List β} :
    InRange (handleNonNcqDataPacket s direction data) := by
  apply handleNonNcqDataPacket_cases InRange <;> intros <;> exact nofun

/-- A call indexes outside the tables exactly when its frame is data for a setup
that names no tag. -/
theorem inRange_dispatch_iff (h : Tables s) (ht : TagFits c) :
    InRange (dispatch s c) ↔ ¬ Overruns s c := by
  have hno : ∀ {o : Call β}, InRange o → ¬ IsAwaited s.state c → (InRange o ↔ ¬ Overruns s c) :=
    fun hr ha => iff_of_true hr fun ho => ha ho.1
  have hdata : ∀ {fis : Fis}, c.fis = fis → fis ≠ .data → ¬ IsAwaited s.state c :=
    fun hf hne ha => hne (hf.symm.trans ha.1)
  apply dispatch_cases (fun o => InRange o ↔ ¬ Overruns s c)
  case activate =>
    intro ha
    rcases ha with ⟨a, ha⟩ | ha
    · exact hno nofun (hdata ha nofun)
    · exact hno nofun (hdata ha nofun)
  case bits =>
    intro b hb
    rw [handleSetDeviceBits_eq hb]
    exact hno nofun (hdata hb nofun)
  case register => intro r hr _; exact hno (inRange_register h (ht r hr)) (hdata hr nofun)
  case status =>
    intro r hr hd
    rw [handleNcqRegisterDTH_eq hr hd]
    exact hno nofun (hdata hr nofun)
  case pio => intro p hp; exact hno nofun (hdata hp nofun)
  case inState =>
    intro hc
    apply processInState_cases (fun o => InRange o ↔ ¬ Overruns s c) hc
    case setup => intro d _ hf _; exact hno nofun (hdata hf nofun)
    case idle =>
      intro hst _
      exact hno nofun (not_isAwaited (hst ▸ by decide))
    case unexpected =>
      intro hst
      refine hno (inRange_unexpected h ht) ?_
      rcases hst with hst | ⟨_, hf⟩
      · exact not_isAwaited (hst ▸ by decide)
      · exact fun ha => hf ha.1
    case burst =>
      intro ha
      rw [inRange_ncqData_iff h]
      simp only [Overruns, ha, true_and, not_exists, not_and, Nat.not_le]
    case abandon =>
      intro _ ha
      refine hno ?_ ha
      apply abandonBurst_cases InRange
      · intro _; exact nofun
      · intro d rest _; exact inRange_unexpected ⟨h.transactions, h.data⟩ ht
    case regular =>
      intro hst _
      exact hno inRange_nonNcqData (not_isAwaited (hst ▸ by decide))

/-! ## Setups on the stack -/

/-- Every setup on the stack has the property. -/
def Stacked (P : DmaSetup → Prop) (s : SATAReconstructor β) : Prop := ∀ d ∈ s.ncqDmaStack, P d

section Stack
variable {P : DmaSetup → Prop}

theorem stacked_setup {d : DmaSetup} (h : Stacked P s) (hd : P d) :
    Stacked P (handleDmaSetup s d).1 := List.forall_mem_cons.mpr ⟨hd, h⟩

theorem stacked_register {direction : Nat} {r : RegisterHtoD} (h : Stacked P s) :
    Stacked P (handleRegisterHTD s direction r).1 := by
  apply handleRegisterHTD_cases (fun o => Stacked P o.1) <;> intros <;> exact h

theorem stacked_unexpected (h : Stacked P s) (hc : ∀ d, c.fis = .dmaSetup d → P d) :
    Stacked P (handleUnexpectedPacket s c).1 := by
  apply handleUnexpectedPacket_cases (fun o => Stacked P o.1)
  · intro r _; exact stacked_register h
  · intro d hd; exact stacked_setup h (hc d hd)
  · intro _ _; exact h

theorem stacked_ncqData {data : List β} (h : Stacked P s) :
    Stacked P (handleNcqDataPacket s data).1 := by
  have hrest : ∀ {d rest}, s.ncqDmaStack = d :: rest → ∀ e ∈ rest, P e :=
    fun hs e he => h e (hs ▸ List.mem_cons_of_mem _ he)
  apply handleNcqDataPacket_cases (fun o => Stacked P o.1)
  case burst | command => intro d rest r p hs _ _ _ _; exact hrest hs
  all_goals intros; exact h

/-- A call only pushes the setup it is given. -/
theorem stacked_dispatch (h : Stacked P s) (hc : ∀ d, c.fis = .dmaSetup d → P d) :
    Stacked P (dispatch s c).1 := by
  have hreset : Stacked P (resetNcq s) := nofun
  apply dispatch_cases (fun o => Stacked P o.1)
  case activate => intro _; exact h
  case bits => intro b hb; rw [handleSetDeviceBits_eq hb]; split <;> assumption
  case register => intro r _ _; exact stacked_register h
  case status => intro r hr hd; rw [handleNcqRegisterDTH_eq hr hd]; split <;> assumption
  case pio => intro p _; exact h
  case inState =>
    intro hl
    apply processInState_cases (fun o => Stacked P o.1) hl
    case setup => intro d _ hf _; exact stacked_setup h (hc d hf)
    case idle => intros; exact h
    case unexpected => intro _; exact stacked_unexpected h hc
    case burst => intro _; exact stacked_ncqData h
    case abandon =>
      intro _ _
      apply abandonBurst_cases (fun o => Stacked P o.1)
      · intro _; exact nofun
      · intro d rest hs
        refine stacked_unexpected (s := dropBurst s rest) (fun e he => ?_) hc
        exact h e (hs ▸ List.mem_cons_of_mem _ he)
    case regular =>
      intro _ _
      apply handleNonNcqDataPacket_cases (fun o => Stacked P o.1) <;> intros <;> exact h

theorem stacked_arrive (f : PhysicalPacket β) (h : Stacked P s) : Stacked P (arrive s f) := by
  unfold arrive checkSequence
  split
  · exact nofun
  · exact h

theorem stacked_run {fs : List (PhysicalPacket β)}
    (hc : ∀ f ∈ fs, ∀ d, f.fis = .dmaSetup d → P d) {k : Nat} (hk : k ≤ fs.length) :
    Stacked P (stateAt processPacket (init n) fs k) := by
  have h0 : Stacked P (init n : SATAReconstructor β) := List.forall_mem_nil P
  refine stateAt_invariant (Stacked P) h0 ?_ k hk
  intro k f hf h
  rw [stateAt_succ hf]
  exact stacked_dispatch (stacked_arrive f h) (hc f (List.mem_of_getElem? hf))

end Stack

/-! ## Runs -/

/-- Setups that name a tag never overrun the tables. -/
theorem not_overruns_of_setups {fs : List (PhysicalPacket β)}
    (hc : ∀ f ∈ fs, ∀ d, f.fis = .dmaSetup d → d.dmaBufIdentifierLow < 32) {k : Nat}
    {f : PhysicalPacket β} (hf : fs[k]? = some f) :
    ¬ Overruns (handling n fs k f) f.toContent := by
  rintro ⟨_, d, rest, hs, hge⟩
  have hk := (List.getElem?_eq_some_iff.mp hf).1
  have hlt := stacked_arrive f (stacked_run (n := n) hc (k := k) (by omega)) d
    (hs ▸ List.mem_cons_self)
  omega

/-- **Over every sequence of frames whose register frames carry 5-bit tags, no access to
the tag tables is out of range if and only if no awaited data frame finds a DMA
Setup with an identifier of 32 or more on top of the stack.** -/
theorem tags_in_range_iff (n : Nat) (fs : List (PhysicalPacket β))
    (ht : ∀ f ∈ fs, TagFits f.toContent) :
    (∀ k f, fs[k]? = some f → InRange (processPacket (stateAt processPacket (init n) fs k) f)) ↔
      ∀ k f, fs[k]? = some f → ¬ Overruns (handling n fs k f) f.toContent := by
  refine forall_congr' fun k => forall_congr' fun f => imp_congr_right fun hf => ?_
  have hk := (List.getElem?_eq_some_iff.mp hf).1
  exact inRange_dispatch_iff (tables_arrive f (tables_run fs (by omega)))
    (ht f (List.mem_of_getElem? hf))

/-- A queued read of one four-byte sector with tag 3, its DMA Setup naming the
given buffer. -/
def queuedReadFrom (identifier : Nat) : List (PhysicalPacket UInt8) :=
  [ { lophiSeqn := 7, direction := hostToDevice,
      fis := .registerHtoD { C := 1, command := 0x60, tag := 3, features := 1, lba := 9 } },
    { lophiSeqn := 8, direction := deviceToHost,
      fis := .dmaSetup
        { directionBit := 1, dmaBufIdentifierLow := identifier, transferCount := 4 } },
    { lophiSeqn := 9, direction := deviceToHost, fis := .data,
      sataData := [10, 20, 30, 40, 0, 0, 0, 0] } ]

theorem tagFits_queuedReadFrom (identifier : Nat) :
    ∀ f ∈ queuedReadFrom identifier, TagFits f.toContent := by
  simp [queuedReadFrom, TagFits]

theorem tags_in_range_queuedRead :
    (∀ f ∈ queuedReadFrom 3, TagFits f.toContent) ∧
      ∀ k f, (queuedReadFrom 3)[k]? = some f →
        InRange (processPacket (stateAt processPacket (init 4) (queuedReadFrom 3) k) f) := by
  refine ⟨tagFits_queuedReadFrom 3, ?_⟩
  rw [tags_in_range_iff 4 _ (tagFits_queuedReadFrom 3)]
  intro k f hf
  exact not_overruns_of_setups (by simp [queuedReadFrom]) hf

/-- With buffer 32 the data frame raises. -/
theorem buffer_32_out_of_range :
    (∀ f ∈ queuedReadFrom 32, TagFits f.toContent) ∧
      ¬ ∀ k f, (queuedReadFrom 32)[k]? = some f →
        InRange (processPacket (stateAt processPacket (init 4) (queuedReadFrom 32) k) f) := by
  refine ⟨tagFits_queuedReadFrom 32, fun h => ?_⟩
  exact h 2 _ rfl (by decide)

end LoPhi.Sata.TagRange
