import LoPhi.Sata.Step

/-! # Sequence numbers

The sensor numbers its frames modulo 65536, and `process_packet` resets itself
when a number is missing. The number it measures from is the last one it
remembers. A reset forgets it, and the legal number zero is taken for none
remembered, so a gap goes unnoticed right after either. -/

namespace LoPhi.Sata.Sequence
open LoPhi.Lib.Machine
open LoPhi.Sata.Frame LoPhi.Sata.Reconstructor LoPhi.Sata.Step

variable {β : Type} {n k : Nat} {fs : List (PhysicalPacket β)} {f g : PhysicalPacket β}

/-- Frame `k` is not the first one and its number is not the one after the
previous frame's. -/
def GapAt (fs : List (PhysicalPacket β)) : Nat → Prop
  | 0 => False
  | k + 1 => ∃ f g, fs[k]? = some f ∧ fs[k + 1]? = some g ∧
      g.lophiSeqn ≠ (f.lophiSeqn + 1) % 65536

/-- A fresh reconstructor calls `_reset_state` before it handles frame `k`. -/
def ResetsAt (n : Nat) (fs : List (PhysicalPacket β)) (k : Nat) : Prop :=
  ∃ f, fs[k]? = some f ∧ gapBefore (stateAt processPacket (init n) fs k) f.lophiSeqn = true

theorem gapBefore_iff {s : SATAReconstructor β} {seqn : Nat} :
    gapBefore s seqn = true ↔
      ∃ last, s.lastPacketSeqno = some last ∧ last ≠ 0 ∧ seqn ≠ (last + 1) % 65536 := by
  unfold gapBefore expectedAfter
  cases s.lastPacketSeqno with
  | none => simp
  | some last =>
    by_cases h : last = 0
    · simp [Option.filter, h]
    · simp [Option.filter, h]

/-- No handler touches the number the check has stored. -/
theorem lastPacketSeqno_processPacket (s : SATAReconstructor β) (f : PhysicalPacket β) :
    (processPacket s f).1.lastPacketSeqno =
      if gapBefore s f.lophiSeqn then none else some f.lophiSeqn := by
  have hgap : gapBefore { s with totalFrames := s.totalFrames + 1 } f.lophiSeqn =
      gapBefore s f.lophiSeqn := rfl
  rw [processPacket, keeps_dispatch.lastPacketSeqno, arrive, checkSequence, hgap]
  split <;> rfl

/-- The remembered number after a frame: its own, or none after a reset. -/
theorem lastPacketSeqno_succ (hf : fs[k]? = some f) :
    (ResetsAt n fs k ∧ (stateAt processPacket (init n) fs (k + 1)).lastPacketSeqno = none) ∨
      (¬ ResetsAt n fs k ∧
        (stateAt processPacket (init n) fs (k + 1)).lastPacketSeqno = some f.lophiSeqn) := by
  rw [stateAt_succ hf, lastPacketSeqno_processPacket]
  split
  · rename_i hg
    exact .inl ⟨⟨f, hf, hg⟩, rfl⟩
  · rename_i hg
    refine .inr ⟨?_, rfl⟩
    rintro ⟨f', hf', hg'⟩
    obtain rfl := Option.some.inj (hf.symm.trans hf')
    exact hg hg'

theorem not_resetsAt_zero : ¬ ResetsAt n fs 0 := by
  rintro ⟨f, _, hg⟩
  obtain ⟨last, hl, _⟩ := gapBefore_iff.mp hg
  cases hl

/-- A reset happens at a gap that follows a frame with a number other than zero,
which was not itself reset at. -/
theorem resetsAt_succ_iff (hf : fs[k]? = some f) :
    ResetsAt n fs (k + 1) ↔ GapAt fs (k + 1) ∧ f.lophiSeqn ≠ 0 ∧ ¬ ResetsAt n fs k := by
  rcases lastPacketSeqno_succ (n := n) hf with ⟨hr, hl⟩ | ⟨hr, hl⟩
  · refine iff_of_false ?_ (fun h => h.2.2 hr)
    rintro ⟨g, _, hg⟩
    obtain ⟨last, hl', _⟩ := gapBefore_iff.mp hg
    rw [hl] at hl'
    cases hl'
  · constructor
    · rintro ⟨g, hg, hgap⟩
      obtain ⟨last, hl', h0, hne⟩ := gapBefore_iff.mp hgap
      obtain rfl := Option.some.inj (hl.symm.trans hl')
      exact ⟨⟨f, g, hf, hg, hne⟩, h0, hr⟩
    · rintro ⟨⟨f', g, hf', hg, hne⟩, h0, _⟩
      obtain rfl := Option.some.inj (hf.symm.trans hf')
      exact ⟨g, hg, gapBefore_iff.mpr ⟨_, hl, h0, hne⟩⟩

theorem GapAt.previous (h : GapAt fs (k + 1)) : ∃ f, fs[k]? = some f := by
  obtain ⟨f, _, hf, _⟩ := h
  exact ⟨f, hf⟩

theorem ResetsAt.previous (h : ResetsAt n fs (k + 1)) : ∃ f, fs[k]? = some f := by
  obtain ⟨g, hg, _⟩ := h
  have hk := (List.getElem?_eq_some_iff.mp hg).1
  exact ⟨_, List.getElem?_eq_getElem (by omega)⟩

/-- **For every sequence of frames, the reconstructor resets itself exactly at the gaps
if and only if no gap directly follows a frame with number zero and no gap
directly follows a gap.** -/
theorem resets_exactly_at_gaps_iff (n : Nat) (fs : List (PhysicalPacket β)) :
    (∀ k, ResetsAt n fs k ↔ GapAt fs k) ↔
      ∀ k f, fs[k]? = some f → GapAt fs (k + 1) → f.lophiSeqn ≠ 0 ∧ ¬ GapAt fs k := by
  constructor
  · intro h k f hf hgap
    obtain ⟨_, h0, hr⟩ := (resetsAt_succ_iff hf).mp ((h (k + 1)).mpr hgap)
    exact ⟨h0, fun hk => hr ((h k).mpr hk)⟩
  · intro h k
    induction k with
    | zero => exact iff_of_false not_resetsAt_zero id
    | succ k ih =>
      constructor
      · intro hr
        obtain ⟨f, hf⟩ := hr.previous
        exact ((resetsAt_succ_iff hf).mp hr).1
      · intro hgap
        obtain ⟨f, hf⟩ := hgap.previous
        obtain ⟨h0, hk⟩ := h k f hf hgap
        exact (resetsAt_succ_iff hf).mpr ⟨hgap, h0, fun hr => hk (ih.mp hr)⟩

/-- Three DMA Activate frames over the wrap: 65535, 0, and 2 with 1 lost. -/
def lostAfterWrap : List (PhysicalPacket UInt8) :=
  [65535, 0, 2].map fun seqn =>
    { lophiSeqn := seqn, direction := deviceToHost, fis := .dmaActivate {} }

/-- The gap after number zero is not noticed. -/
theorem gap_after_wrap_unnoticed :
    ¬ ∀ k, ResetsAt 512 lostAfterWrap k ↔ GapAt lostAfterWrap k := by
  intro h
  have hgap : GapAt lostAfterWrap 2 := ⟨_, _, rfl, rfl, by decide⟩
  obtain ⟨f, hf, hg⟩ := (h 2).mpr hgap
  obtain rfl := Option.some.inj hf
  revert hg
  decide

end LoPhi.Sata.Sequence
