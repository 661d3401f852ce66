import LoPhi.Sata.Queuing

/-! # NCQ reassembly

The reconstructor refines the link: tag tables, DMA stack, buffered frames, byte
count and `STATE` together represent the commands outstanding on the link and
the burst in progress. Every frame of the link's traffic is answered with the
outcome the link gives it. -/

namespace LoPhi.Sata.Reassembly
open LoPhi.Lib.Python LoPhi.Lib.Machine
open LoPhi.Sata.Frame LoPhi.Sata.Reconstructor LoPhi.Sata.Step LoPhi.Sata.TwoRuns
open LoPhi.Sata.Transparency LoPhi.Sata.Queuing

variable {β : Type} {n : Nat} {s : SATAReconstructor β} {c : Content β} {l : Link β n}

/-- The packet of a queued command as far as its data has come. -/
def packetSoFar (p : Progress β n) : DiskSensorPacket β :=
  extend (ncqPacket n p.txn.register) (framesOf p.done)

/-- The state that waits for the data of a command. -/
def waitFor (r : RegisterHtoD) : State :=
  if r.command = writeFPDMAQueued then .waitForDmaDataHost else .waitForDmaDataDevice

/-- The tag tables hold the outstanding commands. -/
def Tables (o : Nat → Option (Progress β n)) (s : SATAReconstructor β) : Prop :=
  ∀ tag p, o tag = some p → p.txn.register.tag = tag ∧
    s.ncqTransactionsOutstanding[tag]? = some (some p.txn.register) ∧
    s.ncqDataOutstanding[tag]? = some (some (packetSoFar p))

/-- The object represents the link. -/
structure Represents (l : Link β n) (s : SATAReconstructor β) : Prop where
  sectorSize : s.sectorSize = n
  transactionsLength : s.ncqTransactionsOutstanding.length = 32
  dataLength : s.ncqDataOutstanding.length = 32
  outstanding : Tables l.outstanding s
  idle : l.transfer = none → s.state = .deviceIdle ∧ s.ncqDmaStack = [] ∧
    s.ncqDataPackets = [] ∧ s.ncqDataLen = 0
  busy : ∀ x, l.transfer = some x → ∃ p b bs, l.outstanding x.tag = some p ∧
    p.todo = b :: bs ∧ b.frames = x.sent ++ x.left ∧ s.state = waitFor p.txn.register ∧
    s.ncqDmaStack = [b.setup] ∧ s.ncqDataPackets = x.sent ∧ s.ncqDataLen = received x.sent

theorem represents_init : Represents (.idle : Link β n) (init n : SATAReconstructor β) where
  sectorSize := rfl
  transactionsLength := List.length_replicate
  dataLength := List.length_replicate
  outstanding := by intro tag p h; cases h
  idle := fun _ => ⟨rfl, rfl, rfl, rfl⟩
  busy := by intro x h; cases h

/-- The entry of one tag changes, the others stay. -/
theorem Tables.update {o : Nat → Option (Progress β n)} (h : Tables o s)
    {t : SATAReconstructor β} {tag : Nat} {e : Option (Progress β n)}
    (ht : ∀ u, u ≠ tag → t.ncqTransactionsOutstanding[u]? = s.ncqTransactionsOutstanding[u]?)
    (hd : ∀ u, u ≠ tag → t.ncqDataOutstanding[u]? = s.ncqDataOutstanding[u]?)
    (he : ∀ p, e = some p → p.txn.register.tag = tag ∧
      t.ncqTransactionsOutstanding[tag]? = some (some p.txn.register) ∧
      t.ncqDataOutstanding[tag]? = some (some (packetSoFar p))) :
    Tables (Function.update o tag e) t := by
  intro u p hp
  by_cases hu : u = tag
  · subst hu
    rw [Function.update_self] at hp
    exact he p hp
  · rw [Function.update_of_ne hu] at hp
    rw [ht u hu, hd u hu]
    exact h u p hp

/-! ## What the link says about the current burst -/

theorem mem_bursts {p : Progress β n} {b : Burst β} {bs : List (Burst β)}
    (h : p.todo = b :: bs) : b ∈ p.txn.bursts := by
  rw [← p.split, h]
  simp

theorem setup_of_todo {p : Progress β n} {b : Burst β} {bs : List (Burst β)}
    (h : p.todo = b :: bs) : b.setup.dmaBufIdentifierLow = p.txn.register.tag ∧
      (b.setup.directionBit = hostToDevice ↔ p.txn.register.command = writeFPDMAQueued) :=
  p.txn.setups b (mem_bursts h)

/-- A command packs: its fields have their wire widths. -/
theorem ncqPacks_txn (hn : 65535 * n < 2 ^ 32) (t : Transaction β n) :
    NcqPacks n t.register := by
  have hlba := t.lba
  have hfeat := t.features.2
  have hsize : t.register.features * n ≤ 65535 * n := Nat.mul_le_mul_right n (by omega)
  refine ⟨by omega, by omega, ?_, by omega⟩
  unfold ncqOperation
  split <;> decide

/-- The data frame is the one `STATE` waits for. -/
theorem awaited {r : RegisterHtoD} (hst : s.state = waitFor r) (hc : c.fis = .data)
    (hd : c.direction = dataDirection r) : IsAwaited s.state c := by
  refine ⟨hc, ?_⟩
  unfold waitFor at hst
  unfold dataDirection at hd
  split at hst
  · rename_i hw; rw [if_pos hw] at hd; exact .inr ⟨hst, hd⟩
  · rename_i hw; rw [if_neg hw] at hd; exact .inl ⟨hst, hd⟩

/-- An awaited data frame is handled as NCQ data. -/
theorem dispatch_awaited (h : IsAwaited s.state c) :
    dispatch s c = handleNcqDataPacket s c.sataData := by
  unfold dispatch
  rw [h.1]
  unfold processInState
  rcases h.2 with ⟨hst, hd⟩ | ⟨hst, hd⟩
  · rw [hst]; exact if_pos ⟨hd, h.1⟩
  · rw [hst]; exact if_pos ⟨hd, h.1⟩

/-! ## One frame -/

theorem represents_command (hn : 65535 * n < 2 ^ 32) (h : Represents l s) (t : Transaction β n)
    (hc : c.fis = .registerHtoD t.register) (hd : c.direction = hostToDevice)
    (free : l.outstanding t.register.tag = none) :
    dispatch s c = (storeCommand s t.register, .ok none) ∧
      Represents { l with
        outstanding := Function.update l.outstanding t.register.tag (some (.start t)) }
        (storeCommand s t.register) := by
  have htt : t.register.tag < s.ncqTransactionsOutstanding.length :=
    h.transactionsLength ▸ t.tag
  have htd : t.register.tag < s.ncqDataOutstanding.length := h.dataLength ▸ t.tag
  constructor
  · unfold dispatch
    rw [hc]
    dsimp only
    rw [if_pos hd, handleRegisterHTD_ncq t.ncq, if_pos htt,
      if_pos (h.sectorSize ▸ ncqPacks_txn hn t), if_pos htd]
  · refine ⟨h.sectorSize, ?_, ?_, ?_, h.idle, ?_⟩
    · simp [storeCommand, h.transactionsLength]
    · simp [storeCommand, h.dataLength]
    · refine h.outstanding.update (fun u hu => List.getElem?_set_ne (Ne.symm hu))
        (fun u hu => List.getElem?_set_ne (Ne.symm hu)) ?_
      intro p hp
      obtain rfl := Option.some.inj hp
      refine ⟨rfl, by simp [storeCommand, htt, Progress.start], ?_⟩
      simp [storeCommand, htd, h.sectorSize, packetSoFar, Progress.start, framesOf, extend,
        ncqPacket]
    · intro x hx
      obtain ⟨p, b, bs, hp, hrest⟩ := h.busy x hx
      have hne : x.tag ≠ t.register.tag := by
        intro he
        rw [he, free] at hp
        cases hp
      exact ⟨p, b, bs, (Function.update_of_ne hne _ _).trans hp, hrest⟩

theorem represents_setup (h : Represents l s) {p : Progress β n} {b : Burst β}
    {bs : List (Burst β)} (idle : l.transfer = none)
    (hp : l.outstanding p.txn.register.tag = some p) (htodo : p.todo = b :: bs)
    (hc : c.fis = .dmaSetup b.setup) (hd : c.direction = deviceToHost) :
    dispatch s c = handleDmaSetup s b.setup ∧
      Represents { l with transfer := some ⟨p.txn.register.tag, [], b.frames⟩ }
        (handleDmaSetup s b.setup).1 := by
  obtain ⟨hst, hstack, hq, hlen⟩ := h.idle idle
  constructor
  · unfold dispatch
    rw [hc]
    unfold processInState
    rw [hst, hc]
    exact if_pos hd
  · refine ⟨h.sectorSize, h.transactionsLength, h.dataLength, h.outstanding, by simp, ?_⟩
    intro x hx
    obtain rfl := Option.some.inj hx
    refine ⟨p, b, bs, hp, htodo, rfl, ?_, congrArg (b.setup :: ·) hstack, hq, hlen⟩
    have hdir := (setup_of_todo htodo).2
    unfold handleDmaSetup waitFor
    dsimp only
    simp only [hdir]

/-- What handling a data frame of the current burst comes to. -/
theorem handle_data (h : Represents l s) {p : Progress β n} {sent left : List (List β)}
    (busy : l.transfer = some ⟨p.txn.register.tag, sent, c.sataData :: left⟩)
    (hp : l.outstanding p.txn.register.tag = some p) (hc : c.fis = .data)
    (hd : c.direction = dataDirection p.txn.register) :
    ∃ b bs, p.todo = b :: bs ∧ b.frames = (sent ++ [c.sataData]) ++ left ∧
      s.ncqDmaStack = [b.setup] ∧ (buffer s c.sataData).ncqDataPackets = sent ++ [c.sataData] ∧
      dispatch s c =
        if b.setup.transferCount ≤ received (sent ++ [c.sataData]) then
          if p.txn.register.features * n ≤
              received (framesOf p.done ++ (sent ++ [c.sataData])) then
            (finishCommand s p.txn.register.tag [],
              .ok (some [extend (packetSoFar p) (sent ++ [c.sataData])]))
          else (closeBurst s p.txn.register.tag []
              (some (extend (packetSoFar p) (sent ++ [c.sataData]))), .ok none)
        else (buffer s c.sataData, .ok none) := by
  obtain ⟨p', b, bs, hp', htodo, hframes, hst, hstack, hq, hlen⟩ := h.busy _ busy
  obtain rfl : p = p' := Option.some.inj (hp.symm.trans hp')
  obtain ⟨_, htr, hdata⟩ := h.outstanding _ p hp
  have htag := (setup_of_todo htodo).1
  have hqueue : (buffer s c.sataData).ncqDataPackets = sent ++ [c.sataData] := by
    simp [buffer, hq]
  have hblen : (buffer s c.sataData).ncqDataLen = received (sent ++ [c.sataData]) := by
    simp [buffer, hlen]
  have hsize : (extend (packetSoFar p) (sent ++ [c.sataData])).data.length =
      received (framesOf p.done ++ (sent ++ [c.sataData])) := by
    simp [extend, packetSoFar, ncqPacket, received, Function.comp_def]
  refine ⟨b, bs, htodo, by simpa using hframes, hstack, hqueue, ?_⟩
  rw [dispatch_awaited (awaited hst hc hd), handleNcqDataPacket_cons hstack, htag, htr, hdata]
  dsimp only
  rw [hqueue, hblen, hsize]
  rfl

theorem extend_extend (p : DiskSensorPacket β) (xs ys : List (List β)) :
    extend (extend p xs) ys = extend p (xs ++ ys) := by
  simp [extend]

/-- Every burst reaches its transfer count, so together they reach the total. -/
theorem total_le_received (bursts : List (Burst β)) :
    (bursts.map (·.setup.transferCount)).sum ≤ received (framesOf bursts) := by
  induction bursts with
  | nil => exact Nat.le_refl 0
  | cons b bs ih =>
    have hb := b.reached
    rw [show b :: bs = [b] ++ bs from rfl, framesOf_append, received_append, framesOf_singleton]
    simp only [List.map_append, List.map_cons, List.map_nil, List.sum_append, List.sum_cons,
      List.sum_nil]
    omega

theorem represents_data (h : Represents l s) {p : Progress β n} {sent left : List (List β)}
    (busy : l.transfer = some ⟨p.txn.register.tag, sent, c.sataData :: left⟩) (more : left ≠ [])
    (hp : l.outstanding p.txn.register.tag = some p) (hc : c.fis = .data)
    (hd : c.direction = dataDirection p.txn.register) :
    dispatch s c = (buffer s c.sataData, .ok none) ∧
      Represents { l with transfer := some ⟨p.txn.register.tag, sent ++ [c.sataData], left⟩ }
        (buffer s c.sataData) := by
  obtain ⟨p', b', bs', hp', _, _, hst, _, _, hlen⟩ := h.busy _ busy
  obtain rfl : p = p' := Option.some.inj (hp.symm.trans hp')
  obtain ⟨b, bs, htodo, hframes, hstack, hqueue, hdis⟩ := handle_data h busy hp hc hd
  have hshort := b.short _ left hframes more
  constructor
  · rw [hdis, if_neg (by omega)]
  · refine ⟨h.sectorSize, h.transactionsLength, h.dataLength, h.outstanding, by simp, ?_⟩
    intro x hx
    obtain rfl := Option.some.inj hx
    refine ⟨p, b, bs, hp, htodo, hframes, hst, hstack, hqueue, ?_⟩
    simp [buffer, hlen]

/-- The frames of a burst that ends with the data frame. -/
theorem last_reached {b : Burst β} {sent : List (List β)} {d : List β}
    (h : b.frames = (sent ++ [d]) ++ []) :
    b.frames = sent ++ [d] ∧ b.setup.transferCount ≤ received (sent ++ [d]) := by
  rw [List.append_nil] at h
  exact ⟨h, h ▸ b.reached⟩

theorem represents_burst (h : Represents l s) {p : Progress β n} {sent : List (List β)}
    {b : Burst β} {bs : List (Burst β)}
    (busy : l.transfer = some ⟨p.txn.register.tag, sent, [c.sataData]⟩)
    (hp : l.outstanding p.txn.register.tag = some p) (htodo : p.todo = b :: bs) (more : bs ≠ [])
    (hc : c.fis = .data) (hd : c.direction = dataDirection p.txn.register) :
    (dispatch s c).2 = .ok none ∧
      Represents
        { outstanding :=
            Function.update l.outstanding p.txn.register.tag (some (p.advance htodo)),
          transfer := none } (dispatch s c).1 := by
  obtain ⟨b', bs', htodo', hframes, _, _, hdis⟩ := handle_data h busy hp hc hd
  obtain ⟨rfl, rfl⟩ : b = b' ∧ bs = bs' := List.cons.inj (htodo.symm.trans htodo')
  obtain ⟨hframes, hreach⟩ := last_reached hframes
  have hearly : received (framesOf p.done ++ (sent ++ [c.sataData])) <
      p.txn.register.features * n := by
    have := p.txn.early (p.done ++ [b]) bs (by rw [← p.split, htodo]; simp) more
    rwa [framesOf_append, framesOf_singleton, hframes] at this
  have hlt : p.txn.register.tag < s.ncqDataOutstanding.length := h.dataLength ▸ p.txn.tag
  rw [hdis, if_pos hreach, if_neg (by omega)]
  refine ⟨rfl, h.sectorSize, h.transactionsLength, ?_, ?_, fun _ => ⟨rfl, rfl, rfl, rfl⟩, ?_⟩
  · simp [closeBurst, h.dataLength]
  · refine h.outstanding.update (fun _ _ => rfl)
      (fun u hu => List.getElem?_set_ne (Ne.symm hu)) ?_
    intro q hq
    obtain rfl := Option.some.inj hq
    obtain ⟨_, htr, _⟩ := h.outstanding _ p hp
    refine ⟨rfl, htr, ?_⟩
    have hpack : packetSoFar (p.advance htodo) =
        extend (packetSoFar p) (sent ++ [c.sataData]) := by
      simp [packetSoFar, Progress.advance, extend_extend, hframes]
    simp [closeBurst, hlt, hpack]
  · intro x hx; cases hx

theorem represents_complete (h : Represents l s) {p : Progress β n} {sent : List (List β)}
    {b : Burst β} (busy : l.transfer = some ⟨p.txn.register.tag, sent, [c.sataData]⟩)
    (hp : l.outstanding p.txn.register.tag = some p) (htodo : p.todo = [b])
    (hc : c.fis = .data) (hd : c.direction = dataDirection p.txn.register) :
    (dispatch s c).2 = .ok (some [p.txn.packet]) ∧
      Represents
        { outstanding := Function.update l.outstanding p.txn.register.tag none,
          transfer := none } (dispatch s c).1 := by
  obtain ⟨b', bs', htodo', hframes, _, _, hdis⟩ := handle_data h busy hp hc hd
  obtain ⟨rfl, rfl⟩ : b = b' ∧ [] = bs' := List.cons.inj (htodo.symm.trans htodo')
  obtain ⟨hframes, hreach⟩ := last_reached hframes
  have hall : framesOf p.txn.bursts = framesOf p.done ++ (sent ++ [c.sataData]) := by
    rw [← p.split, htodo, framesOf_append, framesOf_singleton, hframes]
  have hfull : p.txn.register.features * n ≤
      received (framesOf p.done ++ (sent ++ [c.sataData])) := by
    rw [← p.txn.total, ← hall]
    exact total_le_received p.txn.bursts
  rw [hdis, if_pos hreach, if_pos hfull]
  refine ⟨?_, h.sectorSize, ?_, ?_, ?_, fun _ => ⟨rfl, rfl, rfl, rfl⟩, ?_⟩
  · rw [packetSoFar, extend_extend, ← hall]
    rfl
  · simp [finishCommand, h.transactionsLength]
  · simp [finishCommand, closeBurst, h.dataLength]
  · refine h.outstanding.update (fun u hu => List.getElem?_set_ne (Ne.symm hu))
      (fun u hu => List.getElem?_set_ne (Ne.symm hu)) ?_
    intro q hq
    cases hq
  · intro x hx; cases hx

/-- The dispatch follows the link frame by frame. -/
theorem represents_step (hn : 65535 * n < 2 ^ 32) {l' : Link β n} {o : Outcome β}
    (h : Represents l s) (hstep : LinkStep l c o l') :
    (dispatch s c).2 = o ∧ Represents l' (dispatch s c).1 := by
  cases hstep with
  | command t hc hd free =>
    obtain ⟨hdis, hrep⟩ := represents_command hn h t hc hd free
    rw [hdis]
    exact ⟨rfl, hrep⟩
  | setup idle hp htodo hc hd =>
    obtain ⟨hdis, hrep⟩ := represents_setup h idle hp htodo hc hd
    rw [hdis]
    exact ⟨rfl, hrep⟩
  | data busy more hp hc hd =>
    obtain ⟨hdis, hrep⟩ := represents_data h busy more hp hc hd
    rw [hdis]
    exact ⟨rfl, hrep⟩
  | burst busy hp htodo more hc hd => exact represents_burst h busy hp htodo more hc hd
  | complete busy hp htodo hc hd => exact represents_complete h busy hp htodo hc hd
  | other hc => rw [dispatch_bookkeeping s hc]; exact ⟨rfl, h⟩

/-! ## Runs -/

theorem represents_traffic (hn : 65535 * n < 2 ^ 32) {l' : Link β n} {cs : List (Content β)}
    {os : List (Outcome β)} (h : Represents l s) (ht : Traffic l cs os l') :
    outputs dispatch s cs = os ∧ Represents l' (run dispatch s cs) := by
  induction ht generalizing s with
  | nil l => exact ⟨rfl, h⟩
  | cons head _ ih =>
    obtain ⟨ho, hrep⟩ := represents_step hn h head
    obtain ⟨hos, hrun⟩ := ih hrep
    exact ⟨by rw [outputs_cons, ho, hos], hrun⟩

/-- **On gap-free frames whose contents are traffic of the link, a fresh
reconstructor answers every frame as the link does: with nothing, but for the
last data frame of each command, which is answered with its access, all payload
in order.** -/
theorem reassembly_correct (n : Nat) (hn : 65535 * n < 2 ^ 32) {fs : List (PhysicalPacket β)}
    (hg : GapFree fs) {os : List (Outcome β)} {l : Link β n}
    (ht : Traffic .idle (fs.map PhysicalPacket.toContent) os l) :
    outputs processPacket (init n) fs = os := by
  rw [gapFree_init n hg]
  exact (represents_traffic hn represents_init ht).1

/-- A read of two four-byte sectors with tag 1, in two bursts. -/
def queuedRead : Transaction UInt8 4 where
  register := { C := 1, command := 0x60, tag := 1, features := 2, lba := 100 }
  bursts :=
    [.single { directionBit := 1, dmaBufIdentifierLow := 1, transferCount := 4 }
      [1, 2, 3, 4, 0, 0, 0, 0] (by decide) (by decide),
     .single { directionBit := 1, dmaBufIdentifierLow := 1, transferCount := 4 }
      [5, 6, 7, 8, 0, 0, 0, 0] (by decide) (by decide)]
  ncq := by decide
  tag := by decide
  lba := by decide
  features := by decide
  setups := by simp [Burst.single, hostToDevice, writeFPDMAQueued]
  total := rfl
  early := early_of_exact (by simp [Burst.single, received, payload]) rfl

/-- A write of one sector with tag 2, in one burst. -/
def queuedWrite : Transaction UInt8 4 where
  register := { C := 1, command := 0x61, tag := 2, features := 1, lba := 200 }
  bursts :=
    [.single { dmaBufIdentifierLow := 2, transferCount := 4 } [9, 9, 9, 9, 0, 0, 0, 0]
      (by decide) (by decide)]
  ncq := by decide
  tag := by decide
  lba := by decide
  features := by decide
  setups := by simp [Burst.single, hostToDevice, writeFPDMAQueued]
  total := rfl
  early := early_of_exact (by simp [Burst.single, received, payload]) rfl

/-- The write is queued in the middle of the read's first burst and served
between its bursts, with a DMA Activate before its data. -/
def interleaved : List (Content UInt8) :=
  [ { direction := hostToDevice, fis := .registerHtoD queuedRead.register },
    { direction := deviceToHost,
      fis := .dmaSetup { directionBit := 1, dmaBufIdentifierLow := 1, transferCount := 4 } },
    { direction := hostToDevice, fis := .registerHtoD queuedWrite.register },
    { direction := deviceToHost, fis := .data, sataData := [1, 2, 3, 4, 0, 0, 0, 0] },
    { direction := deviceToHost,
      fis := .dmaSetup { dmaBufIdentifierLow := 2, transferCount := 4 } },
    { direction := deviceToHost, fis := .dmaActivate {} },
    { direction := hostToDevice, fis := .data, sataData := [9, 9, 9, 9, 0, 0, 0, 0] },
    { direction := deviceToHost,
      fis := .dmaSetup { directionBit := 1, dmaBufIdentifierLow := 1, transferCount := 4 } },
    { direction := deviceToHost, fis := .data, sataData := [5, 6, 7, 8, 0, 0, 0, 0] } ]

theorem interleaved_traffic : ∃ l : Link UInt8 4, Traffic .idle interleaved
    [.ok none, .ok none, .ok none, .ok none, .ok none, .ok none,
      .ok (some [queuedWrite.packet]), .ok none, .ok (some [queuedRead.packet])] l :=
  ⟨_, .cons (.command queuedRead rfl rfl rfl) <|
    .cons (.setup (p := .start queuedRead) rfl rfl rfl rfl rfl) <|
    .cons (.command queuedWrite rfl rfl rfl) <|
    .cons (.burst (p := .start queuedRead) rfl rfl rfl (by simp) rfl rfl) <|
    .cons (.setup (p := .start queuedWrite) rfl rfl rfl rfl rfl) <|
    .cons (.other trivial) <|
    .cons (.complete (p := .start queuedWrite) rfl rfl rfl rfl rfl) <|
    .cons (.setup (p := (Progress.start queuedRead).advance rfl) rfl rfl rfl rfl rfl) <|
    .cons (.complete (p := (Progress.start queuedRead).advance rfl) rfl rfl rfl rfl rfl) <|
    .nil _⟩

theorem interleaved_reassembled :
    outputs processPacket (init 4) (number 65530 interleaved) =
      [.ok none, .ok none, .ok none, .ok none, .ok none, .ok none,
        .ok (some [⟨200, 1, 1, 4, [9, 9, 9, 9], none⟩]), .ok none,
        .ok (some [⟨100, 2, 0, 8, [1, 2, 3, 4, 5, 6, 7, 8], none⟩])] := by
  obtain ⟨l, ht⟩ := interleaved_traffic
  rw [← number_contents 65530 interleaved] at ht
  rw [reassembly_correct 4 (by decide) (gapFree_number _ _) ht]
  rfl

end LoPhi.Sata.Reassembly
