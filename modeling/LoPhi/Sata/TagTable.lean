import LoPhi.Sata.Slots

/-! # The NCQ tag tables

`ncq_transactions_outstanding` and `ncq_data_outstanding` describe the same
commands: a tag has a register frame exactly when it has a packet, and the
packet is the one that frame asks for. This holds for frames whose fields have
their wire widths, as long as the byte count of the largest command fits the
packet's 32-bit size. -/

namespace LoPhi.Sata.TagTable
open LoPhi.Lib.Python LoPhi.Lib.Machine
open LoPhi.Sata.Frame LoPhi.Sata.Reconstructor LoPhi.Sata.Step LoPhi.Sata.Slots

variable {β : Type} {s : SATAReconstructor β} {c : Content β} {n : Nat}

/-- The fields have the widths they have on the wire, and tags are tags. -/
def WireWidths (c : Content β) : Prop :=
  match c.fis with
  | .registerHtoD r => r.tag < 32 ∧ r.lba < 2 ^ 48 ∧ r.count < 2 ^ 16 ∧ r.features < 2 ^ 16
  | .dmaSetup d => d.dmaBufIdentifierLow < 32
  | _ => True

instance : DecidablePred (WireWidths (β := β)) := fun c =>
  match h : c.fis with
  | .registerHtoD r => decidable_of_iff (r.tag < 32 ∧ r.lba < 2 ^ 48 ∧ r.count < 2 ^ 16 ∧
      r.features < 2 ^ 16) (by simp [WireWidths, h])
  | .dmaSetup d => decidable_of_iff (d.dmaBufIdentifierLow < 32) (by simp [WireWidths, h])
  | .registerDtoH _ | .dmaActivate _ | .data | .bistActivate | .pioSetup _ | .setDeviceBits _ =>
    isTrue (by simp [WireWidths, h])

/-- The packet is the one the register frame asks for. -/
structure Describes (n : Nat) (r : RegisterHtoD) (p : DiskSensorPacket β) : Prop where
  ncq : IsNcq r
  sector : p.sector = r.lba
  numSectors : p.numSectors = r.features
  diskOperation : p.diskOperation = ncqOperation r
  size : p.size = r.features * n

/-- The two tables have 32 entries and describe the same commands. -/
structure TagTables (n : Nat) (s : SATAReconstructor β) : Prop where
  transactions : s.ncqTransactionsOutstanding.length = 32
  data : s.ncqDataOutstanding.length = 32
  both : ∀ t, t < 32 → (s.ncqTransactionsOutstanding[t]? = some none ↔
    s.ncqDataOutstanding[t]? = some none)
  entry : ∀ (t : Nat) r p, s.ncqTransactionsOutstanding[t]? = some (some r) →
    s.ncqDataOutstanding[t]? = some (some p) → Describes n r p

theorem TagTables.of_eq {t : SATAReconstructor β} (h : TagTables n s)
    (ht : t.ncqTransactionsOutstanding = s.ncqTransactionsOutstanding)
    (hd : t.ncqDataOutstanding = s.ncqDataOutstanding) : TagTables n t :=
  ⟨ht ▸ h.transactions, hd ▸ h.data, ht ▸ hd ▸ h.both, ht ▸ hd ▸ h.entry⟩

theorem tagTables_empty (ht : s.ncqTransactionsOutstanding = List.replicate 32 none)
    (hd : s.ncqDataOutstanding = List.replicate 32 none) : TagTables n s := by
  refine ⟨by simp [ht], by simp [hd], ?_, ?_⟩
  · intro t h
    rw [ht, hd, List.getElem?_replicate_of_lt h, List.getElem?_replicate_of_lt h]
    exact iff_of_true rfl rfl
  · intro t r p hr
    rw [ht, List.getElem?_replicate] at hr
    split at hr <;> simp at hr

/-- The tables stay in agreement when both entries of a tag are replaced, by
nothing or by a frame and its packet. -/
theorem TagTables.set {t : SATAReconstructor β} (h : TagTables n s) (tag : Nat)
    (tr : Option RegisterHtoD) (da : Option (DiskSensorPacket β))
    (ht : t.ncqTransactionsOutstanding = s.ncqTransactionsOutstanding.set tag tr)
    (hd : t.ncqDataOutstanding = s.ncqDataOutstanding.set tag da)
    (hboth : tr = none ↔ da = none)
    (hentry : ∀ r p, tr = some r → da = some p → Describes n r p) : TagTables n t := by
  refine ⟨by simp [ht, h.transactions], by simp [hd, h.data], ?_, ?_⟩
  · intro u hu
    rw [ht, hd]
    by_cases hut : tag = u
    · subst hut
      simp [h.transactions, h.data, hu, hboth]
    · simpa [hut] using h.both u hu
  · intro u r p hr hp
    rw [ht] at hr
    rw [hd] at hp
    by_cases hut : tag = u
    · subst hut
      by_cases hlt : tag < 32
      · exact hentry r p (by simpa [h.transactions, hlt] using hr) (by simpa [h.data, hlt] using hp)
      · simp [h.transactions, hlt] at hr
    · exact h.entry u r p (by simpa [hut] using hr) (by simpa [hut] using hp)

theorem ncqOperation_lt (r : RegisterHtoD) : ncqOperation r < 2 ^ 32 := by
  unfold ncqOperation
  split <;> decide

theorem ncqPacks_of_widths {r : RegisterHtoD} (hn : 65535 * n < 2 ^ 32)
    (hlba : r.lba < 2 ^ 48) (hf : r.features < 2 ^ 16) : NcqPacks n r := by
  refine ⟨by omega, by omega, ncqOperation_lt r, ?_⟩
  calc r.features * n ≤ 65535 * n := Nat.mul_le_mul_right n (by omega)
    _ < 2 ^ 32 := hn

/-! ## One call -/

section Tables
variable (hn : 65535 * n < 2 ^ 32) (h : TagTables n s) (hs : s.sectorSize = n)
include hn h hs

theorem tagTables_register {direction : Nat} {r : RegisterHtoD} (ht : r.tag < 32)
    (hlba : r.lba < 2 ^ 48) (hf : r.features < 2 ^ 16) :
    TagTables n (handleRegisterHTD s direction r).1 := by
  apply handleRegisterHTD_cases (fun o => TagTables n o.1)
  case ignored | outOfRange => intros; exact h
  case regular | unpacked => intros; exact h.of_eq rfl rfl
  case queued =>
    intro hr _ _ _
    refine h.set r.tag (some r) (some (ncqPacket s.sectorSize r)) rfl rfl (by simp) ?_
    rintro _ _ ⟨⟩ ⟨⟩
    exact ⟨hr, rfl, rfl, rfl, by simp [ncqPacket, hs]⟩
  case half =>
    -- with wire widths both tables have room and the packet packs
    intro _ _ _ _ hno
    exact absurd ⟨hs ▸ ncqPacks_of_widths hn hlba hf, by rw [h.data]; exact ht⟩ hno

theorem tagTables_unexpected (hw : WireWidths c) :
    TagTables n (handleUnexpectedPacket s c).1 := by
  have hi : TagTables n { s with numErrors := s.numErrors + 1, state := .deviceIdle } :=
    h.of_eq rfl rfl
  apply handleUnexpectedPacket_cases (fun o => TagTables n o.1)
  · intro r hf
    obtain ⟨ht, hlba, _, hfe⟩ : r.tag < 32 ∧ r.lba < 2 ^ 48 ∧ r.count < 2 ^ 16 ∧
        r.features < 2 ^ 16 := by simpa [WireWidths, hf] using hw
    exact tagTables_register hn hi hs ht hlba hfe
  · intro d _; exact h.of_eq rfl rfl
  · intro _ _; exact hi

omit hn hs in
theorem tagTables_ncqData {data : List β} : TagTables n (handleNcqDataPacket s data).1 := by
  apply handleNcqDataPacket_cases (fun o => TagTables n o.1)
  case noSetup | outOfRange | unknown => intros; exact h
  case buffered | noPacket => intros; exact h.of_eq rfl rfl
  case burst =>
    intro d rest r p _ hr hp _ _
    have hset : s.ncqTransactionsOutstanding =
        s.ncqTransactionsOutstanding.set d.dmaBufIdentifierLow (some r) := by
      obtain ⟨hlt, he⟩ := List.getElem?_eq_some_iff.mp hr
      rw [← he, List.set_getElem_self]
    refine h.set d.dmaBufIdentifierLow (some r) _ hset rfl (by simp) ?_
    rintro _ _ ⟨⟩ ⟨⟩
    obtain ⟨h0, h1, h2, h3, h4⟩ := h.entry _ r p hr hp
    exact ⟨h0, h1, h2, h3, h4⟩
  case command =>
    intro d rest r p _ hr hp _ _
    exact h.set d.dmaBufIdentifierLow none none rfl rfl (by simp) (by simp)

theorem tagTables_dispatch (hw : WireWidths c) : TagTables n (dispatch s c).1 := by
  have hreset : TagTables n (resetNcq s) := tagTables_empty rfl rfl
  apply dispatch_cases (fun o => TagTables n o.1)
  case activate => intro _; exact h
  case bits => intro b hb; rw [handleSetDeviceBits_eq hb]; split <;> assumption
  case register =>
    intro r hf _
    obtain ⟨ht, hlba, _, hfe⟩ : r.tag < 32 ∧ r.lba < 2 ^ 48 ∧ r.count < 2 ^ 16 ∧
        r.features < 2 ^ 16 := by simpa [WireWidths, hf] using hw
    exact tagTables_register hn h hs ht hlba hfe
  case status => intro r hr hd; rw [handleNcqRegisterDTH_eq hr hd]; split <;> assumption
  case pio => intro p _; exact h.of_eq rfl rfl
  case inState =>
    intro hc
    apply processInState_cases (fun o => TagTables n o.1) hc
    case setup => intros; exact h.of_eq rfl rfl
    case idle => intros; exact h
    case unexpected => intro _; exact tagTables_unexpected hn h hs hw
    case burst => intro _; exact tagTables_ncqData h
    case abandon =>
      intro _ _
      apply abandonBurst_cases (fun o => TagTables n o.1)
      · intro _; exact h.of_eq rfl rfl
      · intro d rest _
        exact tagTables_unexpected (s := dropBurst s rest) hn (h.of_eq rfl rfl) hs hw
    case regular =>
      intro _ _
      apply handleNonNcqDataPacket_cases (fun o => TagTables n o.1)
      case ignored | missing | unset => intros; exact h
      case added | command => intros; exact h.of_eq rfl rfl

end Tables

theorem tagTables_arrive (f : PhysicalPacket β) (h : TagTables n s) : TagTables n (arrive s f) := by
  unfold arrive checkSequence
  split
  · exact tagTables_empty rfl rfl
  · exact h.of_eq rfl rfl

/-! ## Runs -/

/-- **In every state of every run the tag tables describe the same commands; over
the run every returned list is one packet with at least `size` bytes, created
by an earlier register frame, and no register frame is reported twice.** -/
theorem tagTables_run (hn : 65535 * n < 2 ^ 32) (fs : List (PhysicalPacket β))
    (hw : ∀ f ∈ fs, WireWidths f.toContent) :
    (∀ k, k ≤ fs.length → TagTables n (stateAt processPacket (init n) fs k)) ∧
    (∀ k ps, (outputs processPacket (init n) fs)[k]? = some (.ok (some ps)) →
      ∃ x p r, ps = [p] ∧ p.size ≤ p.data.length ∧ ReportsAt n fs k x p ∧
        CreatorOf n fs r k x p) ∧
    ∀ r k k' x x' p p', ReportsAt n fs k x p → ReportsAt n fs k' x' p' →
      CreatorOf n fs r k x p → CreatorOf n fs r k' x' p' → k = k' := by
  refine ⟨?_, ?_, fun r k k' x x' p p' => creatorOf_injective⟩
  · apply stateAt_invariant (TagTables n) (tagTables_empty rfl rfl)
    intro k f hf h
    rw [stateAt_succ hf]
    refine tagTables_dispatch hn (tagTables_arrive f h) ?_ (hw f (List.mem_of_getElem? hf))
    rw [sectorSize_arrive, stateAt, sectorSize_run]
    rfl
  · intro k ps hk
    have hlt : k < fs.length := by
      have := (List.getElem?_eq_some_iff.mp hk).1
      simpa using this
    have hf := List.getElem?_eq_getElem (l := fs) (i := k) hlt
    rw [outputs_get hf, Option.some.injEq] at hk
    obtain ⟨x, p, rfl, hr⟩ := reportsAt_of_returns hf hk
    obtain ⟨r, hc⟩ := hr.creator
    refine ⟨x, p, r, rfl, ?_, hr, hc⟩
    obtain ⟨f, q, frames, _, rfl, _, _, hsize, _⟩ := hr.source
    cases x <;> exact hsize

/-- A queued read of one four-byte sector with tag 3, transferred in one burst. -/
def queuedRead : List (PhysicalPacket UInt8) :=
  [ { lophiSeqn := 7, direction := hostToDevice,
      fis := .registerHtoD { C := 1, command := 0x60, tag := 3, features := 1, lba := 9 } },
    { lophiSeqn := 8, direction := deviceToHost,
      fis := .dmaSetup { directionBit := 1, dmaBufIdentifierLow := 3, transferCount := 4 } },
    { lophiSeqn := 9, direction := deviceToHost, fis := .data,
      sataData := [10, 20, 30, 40, 0, 0, 0, 0] } ]

theorem tagTables_queuedRead :
    TagTables 4 (stateAt processPacket (init 4) queuedRead 2) ∧
      ∃ x p r, (outputs processPacket (init 4) queuedRead)[2]? = some (.ok (some [p])) ∧
        p.size ≤ p.data.length ∧ CreatorOf 4 queuedRead r 2 x p := by
  obtain ⟨htab, hret, _⟩ := tagTables_run (n := 4) (by decide) queuedRead (by decide)
  have hout : (outputs processPacket (init 4) queuedRead)[2]? = some (.ok (some
      [⟨9, 1, 0, 4, [10, 20, 30, 40], none⟩])) := by decide
  obtain ⟨x, p, r, hp, hsize, _, hc⟩ := hret 2 _ hout
  exact ⟨htab 2 (by decide), x, p, r, hp ▸ hout, hsize, hc⟩

end LoPhi.Sata.TagTable
