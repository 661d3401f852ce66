import Mathlib.Data.List.Chain
import LoPhi.Sata.Step

/-! # Reconstructors that answer alike

Two reconstructors are alike on a set of tags when they agree on everything
the handlers read except, possibly, the table entries of the other tags, the
counters and the sequence number, and the depth of the register stack outside
NCQ. A laxer form also lets them differ in how they turn away data outside NCQ.
A frame that does not consult another tag gets the same answer from both
and leaves them alike. On a gap-free sequence the sequence check changes
nothing that matters, so the run is a run of the dispatch on frame contents. -/

namespace LoPhi.Sata.TwoRuns
open LoPhi.Lib.Python LoPhi.Lib.Machine
open LoPhi.Sata.Frame LoPhi.Sata.Reconstructor LoPhi.Sata.Step

variable {β : Type} {s t : SATAReconstructor β} {c : Content β} {T : Nat → Prop}
  {lax : Prop}

/-! ## Visible outcomes -/

/-- The packets a call hands back. -/
def packets : Outcome β → List (DiskSensorPacket β)
  | .ok (some ps) => ps
  | _ => []

/-- The packets emitted over a run, in order. -/
def emitted (os : List (Outcome β)) : List (DiskSensorPacket β) := os.flatMap packets

/-- The call returned packets or raised. -/
def visible : Outcome β → Bool
  | .ok none => false
  | _ => true

theorem emitted_visible (os : List (Outcome β)) : emitted (os.filter visible) = emitted os := by
  induction os with
  | nil => rfl
  | cons o os ih =>
    unfold emitted at ih ⊢
    match o with
    | .ok none => simpa [visible, packets] using ih
    | .ok (some ps) => rw [List.filter_cons_of_pos rfl, List.flatMap_cons, ih, List.flatMap_cons]
    | .error e => rw [List.filter_cons_of_pos rfl, List.flatMap_cons, ih, List.flatMap_cons]

@[simp] theorem emitted_cons (o : Outcome β) (os : List (Outcome β)) :
    emitted (o :: os) = packets o ++ emitted os := rfl

@[simp] theorem emitted_append (os os' : List (Outcome β)) :
    emitted (os ++ os') = emitted os ++ emitted os' := by
  simp [emitted]

/-! ## Alike reconstructors -/

/-- No data frame outside NCQ can be added to a packet. -/
def Silent (s : SATAReconstructor β) : Prop :=
  s.regularRegisterStack = [] ∨ ∀ p, s.regularDiskSensorPacket ≠ .packet p

/-- Agreement on what is kept of a command outside NCQ. The lax form also lets
two reconstructors pass that both have no packet to add data to: one of them may
raise where the other ignores a frame. -/
def AlikeRegular (lax : Prop) (s t : SATAReconstructor β) : Prop :=
  (s.regularRegisterStack = [] ↔ t.regularRegisterStack = []) ∧
      s.regularDiskSensorPacket = t.regularDiskSensorPacket ∨
    lax ∧ Silent s ∧ Silent t

structure Alike (T : Nat → Prop) (lax : Prop) (s t : SATAReconstructor β) : Prop where
  sectorSize : s.sectorSize = t.sectorSize
  regular : AlikeRegular lax s t
  stack : s.ncqDmaStack = t.ncqDmaStack
  frames : s.ncqDataPackets = t.ncqDataPackets
  len : s.ncqDataLen = t.ncqDataLen
  state : s.state = t.state
  transactionsLength :
    s.ncqTransactionsOutstanding.length = t.ncqTransactionsOutstanding.length
  dataLength : s.ncqDataOutstanding.length = t.ncqDataOutstanding.length
  transactions : ∀ u, T u →
    s.ncqTransactionsOutstanding[u]? = t.ncqTransactionsOutstanding[u]?
  data : ∀ u, T u → s.ncqDataOutstanding[u]? = t.ncqDataOutstanding[u]?

/-- Both calls leave the reconstructors alike and hand back the same packets; in
the strict form they have the same outcome. -/
def AlikeCalls (T : Nat → Prop) (lax : Prop) (o o' : Call β) : Prop :=
  Alike T lax o.1 o'.1 ∧ packets o.2 = packets o'.2 ∧ (¬ lax → o.2 = o'.2)

theorem Silent.congr (h : Silent s)
    (hreg : s.regularRegisterStack = [] ↔ t.regularRegisterStack = [])
    (hpack : s.regularDiskSensorPacket = t.regularDiskSensorPacket) : Silent t := by
  unfold Silent at h ⊢
  rwa [← hreg, ← hpack]

theorem AlikeRegular.refl (lax : Prop) (s : SATAReconstructor β) : AlikeRegular lax s s :=
  .inl ⟨.rfl, rfl⟩

theorem AlikeRegular.symm (h : AlikeRegular lax s t) : AlikeRegular lax t s := by
  rcases h with ⟨hreg, hpack⟩ | ⟨hlax, hs, ht⟩
  · exact .inl ⟨hreg.symm, hpack.symm⟩
  · exact .inr ⟨hlax, ht, hs⟩

theorem AlikeRegular.trans {v : SATAReconstructor β} (h : AlikeRegular lax s t)
    (h' : AlikeRegular lax t v) : AlikeRegular lax s v := by
  rcases h with ⟨hreg, hpack⟩ | ⟨hlax, hs, ht⟩ <;>
    rcases h' with ⟨hreg', hpack'⟩ | ⟨hlax', ht', hv⟩
  · exact .inl ⟨hreg.trans hreg', hpack.trans hpack'⟩
  · exact .inr ⟨hlax', ht'.congr hreg.symm hpack.symm, hv⟩
  · exact .inr ⟨hlax, hs, ht.congr hreg' hpack'⟩
  · exact .inr ⟨hlax, hs, hv⟩

theorem Alike.refl (T : Nat → Prop) (lax : Prop) (s : SATAReconstructor β) : Alike T lax s s :=
  ⟨rfl, .refl lax s, rfl, rfl, rfl, rfl, rfl, rfl, fun _ _ => rfl, fun _ _ => rfl⟩

theorem Alike.symm (h : Alike T lax s t) : Alike T lax t s :=
  ⟨h.sectorSize.symm, h.regular.symm, h.stack.symm, h.frames.symm, h.len.symm,
    h.state.symm, h.transactionsLength.symm, h.dataLength.symm,
    fun u hu => (h.transactions u hu).symm, fun u hu => (h.data u hu).symm⟩

theorem Alike.trans {v : SATAReconstructor β} (h : Alike T lax s t) (h' : Alike T lax t v) :
    Alike T lax s v :=
  ⟨h.sectorSize.trans h'.sectorSize, h.regular.trans h'.regular,
    h.stack.trans h'.stack, h.frames.trans h'.frames, h.len.trans h'.len,
    h.state.trans h'.state, h.transactionsLength.trans h'.transactionsLength,
    h.dataLength.trans h'.dataLength,
    fun u hu => (h.transactions u hu).trans (h'.transactions u hu),
    fun u hu => (h.data u hu).trans (h'.data u hu)⟩

theorem set_alike {α : Type} {l m : List α} (hl : l.length = m.length)
    (h : ∀ u, T u → l[u]? = m[u]?) (i : Nat) (a : α) :
    ∀ u, T u → (l.set i a)[u]? = (m.set i a)[u]? := by
  intro u hu
  rw [List.getElem?_set, List.getElem?_set, h u hu, hl]

/-! ## Handlers -/

theorem alike_resetNcq (h : Alike T lax s t) : Alike T lax (resetNcq s) (resetNcq t) :=
  ⟨h.sectorSize, h.regular, rfl, rfl, rfl, h.state, rfl, rfl, fun _ _ => rfl,
    fun _ _ => rfl⟩

theorem alike_setup (h : Alike T lax s t) (d : DmaSetup) :
    AlikeCalls T lax (handleDmaSetup s d) (handleDmaSetup t d) :=
  ⟨⟨h.sectorSize, h.regular, congrArg (d :: ·) h.stack, h.frames, h.len, rfl,
    h.transactionsLength, h.dataLength, h.transactions, h.data⟩, rfl, fun _ => rfl⟩

theorem alike_storeRegister (h : Alike T lax s t) (r : RegisterHtoD) :
    Alike T lax (storeRegister s r) (storeRegister t r) :=
  ⟨h.sectorSize, h.regular, h.stack, h.frames, h.len, h.state,
    by simpa [storeRegister] using h.transactionsLength, h.dataLength,
    set_alike h.transactionsLength h.transactions _ _, h.data⟩

theorem alike_storeCommand (h : Alike T lax s t) (r : RegisterHtoD) :
    Alike T lax (storeCommand s r) (storeCommand t r) := by
  refine ⟨h.sectorSize, h.regular, h.stack, h.frames, h.len, h.state,
    by simpa [storeCommand] using h.transactionsLength,
    by simpa [storeCommand] using h.dataLength,
    set_alike h.transactionsLength h.transactions _ _, ?_⟩
  have := set_alike h.dataLength h.data r.tag (some (ncqPacket t.sectorSize r))
  simpa only [storeCommand, h.sectorSize] using this

theorem alike_register (h : Alike T lax s t) (direction : Nat) (r : RegisterHtoD) :
    AlikeCalls T lax (handleRegisterHTD s direction r) (handleRegisterHTD t direction r) := by
  by_cases hn : IsNcq r
  · rw [handleRegisterHTD_ncq hn, handleRegisterHTD_ncq hn, h.sectorSize, h.transactionsLength,
      h.dataLength]
    split
    · split
      · split
        · exact ⟨alike_storeCommand h r, rfl, fun _ => rfl⟩
        · exact ⟨alike_storeRegister h r, rfl, fun _ => rfl⟩
      · exact ⟨alike_storeRegister h r, rfl, fun _ => rfl⟩
    · exact ⟨h, rfl, fun _ => rfl⟩
  · by_cases hr : IsRegular r
    · rw [handleRegisterHTD_regular hr, handleRegisterHTD_regular hr, h.sectorSize]
      split
      · exact ⟨⟨rfl, .inl ⟨by simp, rfl⟩, h.stack, h.frames, h.len, rfl,
          h.transactionsLength, h.dataLength, h.transactions, h.data⟩, rfl, fun _ => rfl⟩
      · exact ⟨⟨rfl, .inl ⟨by simp, rfl⟩, h.stack, h.frames, h.len, h.state,
          h.transactionsLength, h.dataLength, h.transactions, h.data⟩, rfl, fun _ => rfl⟩
    · rw [handleRegisterHTD_ignored hn hr, handleRegisterHTD_ignored hn hr]
      exact ⟨h, rfl, fun _ => rfl⟩

theorem alike_unexpected (h : Alike T lax s t) :
    AlikeCalls T lax (handleUnexpectedPacket s c) (handleUnexpectedPacket t c) := by
  have hi : Alike T lax { s with numErrors := s.numErrors + 1, state := .deviceIdle }
      { t with numErrors := t.numErrors + 1, state := .deviceIdle } :=
    ⟨h.sectorSize, h.regular, h.stack, h.frames, h.len, rfl, h.transactionsLength,
      h.dataLength, h.transactions, h.data⟩
  unfold handleUnexpectedPacket
  dsimp only
  cases c.fis with
  | registerHtoD r => exact alike_register hi _ r
  | dmaSetup d => exact alike_setup hi d
  | _ => exact ⟨hi, rfl, fun _ => rfl⟩

theorem alike_dropBurst (h : Alike T lax s t) (rest : List DmaSetup) :
    Alike T lax (dropBurst s rest) (dropBurst t rest) :=
  ⟨h.sectorSize, h.regular, rfl, rfl, rfl, h.state, h.transactionsLength,
    h.dataLength, h.transactions, h.data⟩

theorem alike_abandon (h : Alike T lax s t) :
    AlikeCalls T lax (abandonBurst s c) (abandonBurst t c) := by
  apply abandonBurst_cases (fun o => AlikeCalls T lax o (abandonBurst t c))
  · intro hs
    apply abandonBurst_cases (fun o => AlikeCalls T lax _ o)
    · intro _; exact ⟨alike_dropBurst h [], rfl, fun _ => rfl⟩
    · intro d rest ht; simp [← h.stack, hs] at ht
  · intro d rest hs
    apply abandonBurst_cases (fun o => AlikeCalls T lax _ o)
    · intro ht; simp [← h.stack, hs] at ht
    · intro d' rest' ht
      obtain rfl : rest = rest' := (List.cons.inj (hs.symm.trans (h.stack.trans ht))).2
      exact alike_unexpected (alike_dropBurst h rest)

theorem alike_buffer (h : Alike T lax s t) (data : List β) :
    Alike T lax (buffer s data) (buffer t data) :=
  ⟨h.sectorSize, h.regular, h.stack, congrArg (· ++ [data]) h.frames,
    congrArg (· + _) h.len, h.state, h.transactionsLength, h.dataLength, h.transactions, h.data⟩

theorem alike_closeBurst (h : Alike T lax s t) (tag : Nat) (rest : List DmaSetup)
    (e : Option (DiskSensorPacket β)) :
    Alike T lax (closeBurst s tag rest e) (closeBurst t tag rest e) :=
  ⟨h.sectorSize, h.regular, rfl, rfl, rfl, rfl, h.transactionsLength,
    by simpa [closeBurst] using h.dataLength, h.transactions,
    set_alike h.dataLength h.data _ _⟩

theorem alike_finishCommand (h : Alike T lax s t) (tag : Nat) (rest : List DmaSetup) :
    Alike T lax (finishCommand s tag rest) (finishCommand t tag rest) :=
  ⟨h.sectorSize, h.regular, rfl, rfl, rfl, rfl,
    by simpa [finishCommand, closeBurst] using h.transactionsLength,
    by simpa [finishCommand, closeBurst] using h.dataLength,
    set_alike h.transactionsLength h.transactions _ _, set_alike h.dataLength h.data _ _⟩

theorem alike_ncqData (h : Alike T lax s t) (data : List β)
    (hT : ∀ d rest, s.ncqDmaStack = d :: rest → T d.dmaBufIdentifierLow) :
    AlikeCalls T lax (handleNcqDataPacket s data) (handleNcqDataPacket t data) := by
  have hb := alike_buffer h data
  cases hs : s.ncqDmaStack with
  | nil =>
    rw [handleNcqDataPacket_nil hs, handleNcqDataPacket_nil (h.stack.symm.trans hs)]
    exact ⟨h, rfl, fun _ => rfl⟩
  | cons d rest =>
    rw [handleNcqDataPacket_cons hs, handleNcqDataPacket_cons (h.stack.symm.trans hs),
      h.transactions _ (hT d rest hs), h.data _ (hT d rest hs), hb.len, hb.frames]
    split
    · exact ⟨h, rfl, fun _ => rfl⟩
    · exact ⟨h, rfl, fun _ => rfl⟩
    · split
      · split
        · exact ⟨hb, rfl, fun _ => rfl⟩
        · exact ⟨hb, rfl, fun _ => rfl⟩
        · split
          · exact ⟨alike_finishCommand h _ _, rfl, fun _ => rfl⟩
          · exact ⟨alike_closeBurst h _ _ _, rfl, fun _ => rfl⟩
      · exact ⟨hb, rfl, fun _ => rfl⟩

/-- A silent reconstructor ignores the data frame, or raises; either way nothing
changes. -/
theorem silent_nonNcqData (h : Silent s) (direction : Nat) (data : List β) :
    (handleNonNcqDataPacket s direction data).1 = s ∧
      packets (handleNonNcqDataPacket s direction data).2 = [] := by
  by_cases hs : s.regularRegisterStack = []
  · rw [handleNonNcqDataPacket_nil hs]
    exact ⟨rfl, rfl⟩
  · rw [handleNonNcqDataPacket_ne hs]
    split
    · exact ⟨rfl, rfl⟩
    · exact ⟨rfl, rfl⟩
    · rename_i p hp
      exact absurd hp (h.resolve_left hs p)

theorem alike_nonNcqData (h : Alike T lax s t) (direction : Nat) (data : List β) :
    AlikeCalls T lax (handleNonNcqDataPacket s direction data)
      (handleNonNcqDataPacket t direction data) := by
  rcases h.regular with ⟨hreg, hpack⟩ | ⟨hlax, hs, ht⟩
  · by_cases hs : s.regularRegisterStack = []
    · rw [handleNonNcqDataPacket_nil hs, handleNonNcqDataPacket_nil (hreg.mp hs)]
      exact ⟨h, rfl, fun _ => rfl⟩
    · rw [handleNonNcqDataPacket_ne hs, handleNonNcqDataPacket_ne (mt hreg.mpr hs), hpack]
      split
      · exact ⟨h, rfl, fun _ => rfl⟩
      · exact ⟨h, rfl, fun _ => rfl⟩
      · split
        · exact ⟨⟨h.sectorSize, .inl ⟨hreg, rfl⟩, h.stack, h.frames, h.len, rfl,
            h.transactionsLength, h.dataLength, h.transactions, h.data⟩, rfl, fun _ => rfl⟩
        · exact ⟨⟨h.sectorSize, .inl ⟨hreg, rfl⟩, h.stack, h.frames, h.len, h.state,
            h.transactionsLength, h.dataLength, h.transactions, h.data⟩, rfl, fun _ => rfl⟩
  · obtain ⟨hs1, hs2⟩ := silent_nonNcqData hs direction data
    obtain ⟨ht1, ht2⟩ := silent_nonNcqData ht direction data
    refine ⟨?_, hs2.trans ht2.symm, fun hn => absurd hlax hn⟩
    rwa [hs1, ht1]

/-! ## process_packet -/

theorem alike_inState (h : Alike T lax s t)
    (hT : IsAwaited s.state c → ∀ d rest, s.ncqDmaStack = d :: rest → T d.dmaBufIdentifierLow) :
    AlikeCalls T lax (processInState s c) (processInState t c) := by
  unfold processInState
  rw [← h.state]
  cases hst : s.state with
  | deviceIdle =>
    dsimp only
    cases c.fis with
    | registerHtoD r =>
      dsimp only
      split
      · exact alike_register h _ r
      · exact ⟨h, rfl, fun _ => rfl⟩
    | dmaSetup d =>
      dsimp only
      split
      · exact alike_setup h d
      · exact ⟨h, rfl, fun _ => rfl⟩
    | _ => exact ⟨h, rfl, fun _ => rfl⟩
  | waitForRegisterAck =>
    dsimp only
    cases c.fis with
    | registerDtoH r =>
      dsimp only [handleNcqRegisterDTH]
      split
      · split
        · exact ⟨alike_resetNcq h, rfl, fun _ => rfl⟩
        · exact ⟨h, rfl, fun _ => rfl⟩
      · exact alike_unexpected h
    | _ => exact alike_unexpected h
  | waitForDmaDataDevice =>
    dsimp only
    split
    · rename_i hc
      exact alike_ncqData h _ (hT ⟨hc.2, .inl ⟨hst, hc.1⟩⟩)
    · exact alike_abandon h
  | waitForDmaDataHost =>
    dsimp only
    split
    · rename_i hc
      exact alike_ncqData h _ (hT ⟨hc.2, .inr ⟨hst, hc.1⟩⟩)
    · exact alike_abandon h
  | waitForNonNcqData =>
    dsimp only
    split
    · exact alike_nonNcqData h _ _
    · exact alike_unexpected h

/-- Alike reconstructors answer a frame alike, unless it is the data frame of a
transfer for a tag they may differ on. -/
theorem alike_dispatch (h : Alike T lax s t)
    (hT : IsAwaited s.state c → ∀ d rest, s.ncqDmaStack = d :: rest → T d.dmaBufIdentifierLow) :
    AlikeCalls T lax (dispatch s c) (dispatch t c) := by
  unfold dispatch
  cases hf : c.fis with
  | dmaActivate a => exact ⟨h, rfl, fun _ => rfl⟩
  | bistActivate => exact ⟨h, rfl, fun _ => rfl⟩
  | setDeviceBits b =>
    dsimp only
    rw [handleSetDeviceBits_eq hf, handleSetDeviceBits_eq hf]
    split
    · exact ⟨alike_resetNcq h, rfl, fun _ => rfl⟩
    · exact ⟨h, rfl, fun _ => rfl⟩
  | registerHtoD r =>
    dsimp only
    split
    · exact alike_register h _ r
    · exact alike_inState h hT
  | registerDtoH r =>
    dsimp only [handleNcqRegisterDTH]
    split
    · split
      · exact ⟨alike_resetNcq h, rfl, fun _ => rfl⟩
      · exact ⟨h, rfl, fun _ => rfl⟩
    · exact alike_inState h hT
  | pioSetup p =>
    exact ⟨⟨h.sectorSize, h.regular, h.stack, h.frames, h.len, rfl,
      h.transactionsLength, h.dataLength, h.transactions, h.data⟩, rfl, fun _ => rfl⟩
  | dmaSetup d => exact alike_inState h hT
  | data => exact alike_inState h hT

/-! ## Gap-free sequences -/

/-- Every frame has the sequence number after that of the frame before it. -/
def GapFree (fs : List (PhysicalPacket β)) : Prop :=
  fs.IsChain fun f g => g.lophiSeqn = (f.lophiSeqn + 1) % 65536

/-- The contents as frames numbered from `k` on. -/
def number (k : Nat) : List (Content β) → List (PhysicalPacket β)
  | [] => []
  | c :: cs => { c with lophiSeqn := k % 65536 } :: number (k + 1) cs

@[simp] theorem number_contents (k : Nat) (cs : List (Content β)) :
    (number k cs).map PhysicalPacket.toContent = cs := by
  induction cs generalizing k with
  | nil => rfl
  | cons c cs ih => exact congrArg (c :: ·) (ih (k + 1))

theorem gapFree_number (k : Nat) (cs : List (Content β)) : GapFree (number k cs) := by
  induction cs generalizing k with
  | nil => exact .nil
  | cons c cs ih =>
    cases cs with
    | nil => exact .singleton _
    | cons c' cs =>
      refine .cons_cons ?_ (ih (k + 1))
      show (k + 1) % 65536 = (k % 65536 + 1) % 65536
      omega

/-- The first of the frames, if any, leaves no gap. -/
def Follows (s : SATAReconstructor β) (fs : List (PhysicalPacket β)) : Prop :=
  ∀ f, fs.head? = some f → gapBefore s f.lophiSeqn = false

theorem follows_init (n : Nat) (fs : List (PhysicalPacket β)) : Follows (init n) fs :=
  fun _ _ => rfl

theorem arrive_of_no_gap {f : PhysicalPacket β} (h : gapBefore s f.lophiSeqn = false) :
    arrive s f =
      { s with lastPacketSeqno := some f.lophiSeqn, totalFrames := s.totalFrames + 1 } := by
  have hg : gapBefore { s with totalFrames := s.totalFrames + 1 } f.lophiSeqn = false := h
  unfold arrive checkSequence
  rw [hg]
  rfl

theorem alike_arrive {f : PhysicalPacket β} (h : gapBefore s f.lophiSeqn = false) :
    Alike T lax (arrive s f) s := by
  rw [arrive_of_no_gap h]
  exact ⟨rfl, .refl lax s, rfl, rfl, rfl, rfl, rfl, rfl, fun _ _ => rfl, fun _ _ => rfl⟩

theorem gapBefore_of_last {m k : Nat} (hs : s.lastPacketSeqno = some m)
    (hk : k = (m + 1) % 65536) : gapBefore s k = false := by
  unfold gapBefore expectedAfter
  rw [hs]
  by_cases hm : m = 0
  · simp [hm, Option.filter]
  · simp [hm, hk, Option.filter]

/-- After a frame without a gap the rest of a gap-free sequence follows. -/
theorem follows_tail {f : PhysicalPacket β} {fs : List (PhysicalPacket β)}
    (hg : GapFree (f :: fs)) (hl : (arrive s f).lastPacketSeqno = some f.lophiSeqn) :
    Follows (processPacket s f).1 fs := by
  intro g hhead
  cases fs with
  | nil => cases hhead
  | cons g' fs =>
    obtain rfl : g' = g := Option.some.inj hhead
    have hseq : g'.lophiSeqn = (f.lophiSeqn + 1) % 65536 := (List.isChain_cons_cons.mp hg).1
    exact gapBefore_of_last (keeps_dispatch.lastPacketSeqno.trans hl) hseq

/-- On a gap-free sequence that follows, the reconstructor is its dispatch. -/
theorem gapFree_run {fs : List (PhysicalPacket β)} (hg : GapFree fs) (hf : Follows s fs)
    (h : Alike (fun _ => True) lax s t) :
    emitted (outputs processPacket s fs) =
        emitted (outputs dispatch t (fs.map PhysicalPacket.toContent)) ∧
      (¬ lax → outputs processPacket s fs =
        outputs dispatch t (fs.map PhysicalPacket.toContent)) ∧
      Alike (fun _ => True) lax (run processPacket s fs)
        (run dispatch t (fs.map PhysicalPacket.toContent)) := by
  induction fs generalizing s t with
  | nil => exact ⟨rfl, fun _ => rfl, h⟩
  | cons f fs ih =>
    have hgap := hf f rfl
    obtain ⟨hal, hpack, hout⟩ := alike_dispatch (c := f.toContent) ((alike_arrive hgap).trans h)
      (fun _ _ _ _ => trivial)
    have hlast : (arrive s f).lastPacketSeqno = some f.lophiSeqn := by rw [arrive_of_no_gap hgap]
    obtain ⟨he, ho, hr⟩ := ih hg.tail (follows_tail hg hlast) hal
    refine ⟨?_, fun hl => ?_, hr⟩
    · rw [outputs_cons, emitted_cons, he, List.map_cons, outputs_cons, emitted_cons]
      exact congrArg (· ++ _) hpack
    · rw [outputs_cons, ho hl, List.map_cons, outputs_cons]
      exact congrArg (· :: _) (hout hl)

/-- The same for a fresh reconstructor. -/
theorem gapFree_init {fs : List (PhysicalPacket β)} (n : Nat) (hg : GapFree fs) :
    outputs processPacket (init n) fs =
      outputs dispatch (init n) (fs.map PhysicalPacket.toContent) :=
  (gapFree_run hg (follows_init n fs) (Alike.refl _ False _)).2.1 not_false

/-- What comes after a part of a gap-free sequence follows it. -/
theorem follows_run {fs gs : List (PhysicalPacket β)} (hg : GapFree (fs ++ gs))
    (hf : Follows s (fs ++ gs)) : Follows (run processPacket s fs) gs := by
  induction fs generalizing s with
  | nil => exact hf
  | cons f fs ih =>
    have hlast : (arrive s f).lastPacketSeqno = some f.lophiSeqn := by
      rw [arrive_of_no_gap (hf f rfl)]
    exact ih hg.tail (follows_tail hg hlast)

theorem dispatch_alike (h : Alike (fun _ => True) False s t) (cs : List (Content β)) :
    outputs dispatch s cs = outputs dispatch t cs := by
  refine outputs_related (fun s t c h => ?_) h cs
  obtain ⟨hal, _, hout⟩ := alike_dispatch (c := c) h (fun _ _ _ _ => trivial)
  exact ⟨hal, hout not_false⟩

end LoPhi.Sata.TwoRuns
