import LoPhi.Sata.TwoRuns
import LoPhi.Sata.Slots

/-! # Queued commands and other traffic

The host queues NCQ commands whenever it likes, also between a DMA Setup and
its data. A register frame of an NCQ command touches only the table entries of
its tag, so it commutes with every frame that neither reads nor writes these:
every frame but a register frame of the same tag, a data frame of a transfer
for that tag and a frame that drops the whole queue. -/

namespace LoPhi.Sata.Commutation
open LoPhi.Lib.Machine
open LoPhi.Sata.Frame LoPhi.Sata.Reconstructor LoPhi.Sata.Step LoPhi.Sata.TwoRuns
open LoPhi.Sata.Slots

variable {β : Type} {s t : SATAReconstructor β} {c q : Content β} {tag : Nat}

/-- The register frame of an NCQ command with this tag may be moved across `c`,
handled in `s`. -/
def Crossable (tag : Nat) (s : SATAReconstructor β) (c : Content β) : Prop :=
  ¬ ResetsNcq c ∧ (∀ r, c.fis = .registerHtoD r → IsNcq r → r.tag ≠ tag) ∧
    (c.fis = .data → ∀ d rest, s.ncqDmaStack = d :: rest → d.dmaBufIdentifierLow ≠ tag)

theorem Crossable.congr (h : Crossable tag s c) (hs : s.ncqDmaStack = t.ncqDmaStack) :
    Crossable tag t c := by
  unfold Crossable at h ⊢
  rwa [← hs]

/-! ## The entries of the tag -/

/-- The call leaves both table entries of the tag as they are in `s`. -/
def Leaves (tag : Nat) (s : SATAReconstructor β) (o : Call β) : Prop :=
  o.1.ncqTransactionsOutstanding[tag]? = s.ncqTransactionsOutstanding[tag]? ∧
    o.1.ncqDataOutstanding[tag]? = s.ncqDataOutstanding[tag]?

/-- `t` is the object as the register frame finds it. -/
theorem leaves_register {r : RegisterHtoD} {direction : Nat} (hr : IsNcq r → r.tag ≠ tag)
    (ht : t.ncqTransactionsOutstanding = s.ncqTransactionsOutstanding)
    (hd : t.ncqDataOutstanding = s.ncqDataOutstanding) :
    Leaves tag s (handleRegisterHTD t direction r) := by
  have hsame : Leaves tag s (t, .ok none) := by simp only [Leaves, ht, hd, and_self]
  apply handleRegisterHTD_cases (Leaves tag s)
  case queued =>
    intro hn _ _ _
    simp only [Leaves, storeCommand, List.getElem?_set_ne (hr hn), ht, hd, and_self]
  case half =>
    intro _ _ hn _ _
    simp only [Leaves, storeRegister, List.getElem?_set_ne (hr hn), ht, hd, and_self]
  all_goals intros; exact hsame

theorem leaves_unexpected (hr : ∀ r, c.fis = .registerHtoD r → IsNcq r → r.tag ≠ tag)
    (ht : t.ncqTransactionsOutstanding = s.ncqTransactionsOutstanding)
    (hd : t.ncqDataOutstanding = s.ncqDataOutstanding) :
    Leaves tag s (handleUnexpectedPacket t c) := by
  apply handleUnexpectedPacket_cases (Leaves tag s)
  · intro r hf; exact leaves_register (hr r hf) ht hd
  · intro d _; simp only [Leaves, handleDmaSetup, ht, hd, and_self]
  · intro _ _; simp only [Leaves, ht, hd, and_self]

theorem leaves_ncqData {data : List β}
    (hs : ∀ d rest, s.ncqDmaStack = d :: rest → d.dmaBufIdentifierLow ≠ tag) :
    Leaves tag s (handleNcqDataPacket s data) := by
  apply handleNcqDataPacket_cases (Leaves tag s)
  case burst =>
    intro d rest r p hd _ _ _ _
    simp only [Leaves, closeBurst, List.getElem?_set_ne (hs d rest hd), and_self]
  case command =>
    intro d rest r p hd _ _ _ _
    simp only [Leaves, finishCommand, closeBurst, List.getElem?_set_ne (hs d rest hd), and_self]
  all_goals intros; exact ⟨rfl, rfl⟩

theorem leaves_dispatch (h : Crossable tag s c) : Leaves tag s (dispatch s c) := by
  obtain ⟨hn, hr, hd⟩ := h
  apply dispatch_cases (Leaves tag s)
  case activate => intro _; exact ⟨rfl, rfl⟩
  case bits => intro b hb; rw [handleSetDeviceBits_eq hb, if_neg hn]; exact ⟨rfl, rfl⟩
  case register => intro r hf _; exact leaves_register (hr r hf) rfl rfl
  case status => intro r hf hdir; rw [handleNcqRegisterDTH_eq hf hdir, if_neg hn]; exact ⟨rfl, rfl⟩
  case pio => intro p _; exact ⟨rfl, rfl⟩
  case inState =>
    intro hc
    apply processInState_cases (Leaves tag s) hc
    case setup => intro d _ _ _; exact ⟨rfl, rfl⟩
    case idle => intro _ _; exact ⟨rfl, rfl⟩
    case unexpected => intro _; exact leaves_unexpected hr rfl rfl
    case burst => intro ha; exact leaves_ncqData (hd ha.1)
    case abandon =>
      intro _ _
      apply abandonBurst_cases (Leaves tag s)
      · intro _; exact ⟨rfl, rfl⟩
      · intro d rest _; exact leaves_unexpected hr rfl rfl
    case regular =>
      intro _ _
      apply handleNonNcqDataPacket_cases (Leaves tag s) <;> intros <;> exact ⟨rfl, rfl⟩

/-! ## One frame -/

/-- A host register frame that queues an NCQ command. -/
def Queues (c : Content β) (r : RegisterHtoD) : Prop :=
  c.fis = .registerHtoD r ∧ c.direction = hostToDevice ∧ IsNcq r

theorem dispatch_queues {r : RegisterHtoD} (h : Queues q r) :
    dispatch s q = handleRegisterHTD s q.direction r := by
  unfold dispatch
  rw [h.1]
  exact if_pos h.2.1

/-- Queueing a command changes nothing but the entries of its tag. -/
theorem alike_queues {r : RegisterHtoD} (h : Queues q r) :
    Alike (· ≠ r.tag) False (dispatch s q).1 s := by
  rw [dispatch_queues h]
  apply handleRegisterHTD_cases (fun o : Call β => Alike (· ≠ r.tag) False o.1 s)
  case queued =>
    intro _ _ _ _
    exact ⟨rfl, .refl _ s, rfl, rfl, rfl, rfl, List.length_set, List.length_set,
      fun u hu => List.getElem?_set_ne (Ne.symm hu), fun u hu => List.getElem?_set_ne (Ne.symm hu)⟩
  case half =>
    intro _ _ _ _ _
    exact ⟨rfl, .refl _ s, rfl, rfl, rfl, rfl, List.length_set, rfl,
      fun u hu => List.getElem?_set_ne (Ne.symm hu), fun u hu => rfl⟩
  case regular => intro hr _; exact absurd hr h.2.2.not_regular
  case unpacked => intro hr _; exact absurd hr h.2.2.not_regular
  all_goals intros; exact Alike.refl _ _ _

/-- Queueing a command depends on the sector size and the tables' lengths; the
entries it leaves for its tag do too, up to what was there. -/
theorem queues_entries {r : RegisterHtoD} (h : Queues q r) (hn : t.sectorSize = s.sectorSize)
    (ht : t.ncqTransactionsOutstanding.length = s.ncqTransactionsOutstanding.length)
    (hd : t.ncqDataOutstanding.length = s.ncqDataOutstanding.length)
    (hl : ∀ o, Leaves r.tag s (t, o)) :
    Leaves r.tag (dispatch s q).1 (dispatch t q) ∧ (dispatch t q).2 = (dispatch s q).2 := by
  obtain ⟨hlt, hld⟩ := hl (.ok none)
  rw [dispatch_queues h, dispatch_queues h, handleRegisterHTD_ncq h.2.2,
    handleRegisterHTD_ncq h.2.2, hn, ht, hd]
  split
  · rename_i htag
    split
    · split
      · rename_i hdata
        refine ⟨⟨?_, ?_⟩, rfl⟩
        · simp [storeCommand, htag, ht]
        · simp [storeCommand, hdata, hd, hn]
      · exact ⟨⟨by simp [storeRegister, htag, ht], hld⟩, rfl⟩
    · exact ⟨⟨by simp [storeRegister, htag, ht], hld⟩, rfl⟩
  · exact ⟨⟨hlt, hld⟩, rfl⟩

theorem alike_of_leaves (h : Alike (· ≠ tag) False s t) (hl : Leaves tag s (t, .ok none)) :
    Alike (fun _ => True) False s t := by
  refine ⟨h.sectorSize, h.regular, h.stack, h.frames, h.len, h.state,
    h.transactionsLength, h.dataLength, fun u _ => ?_, fun u _ => ?_⟩
  · by_cases hu : u = tag
    · rw [hu]; exact hl.1.symm
    · exact h.transactions u hu
  · by_cases hu : u = tag
    · rw [hu]; exact hl.2.symm
    · exact h.data u hu

/-- A frame that leaves the tag's entries alone does not notice whether the
command is queued before it or after it. -/
theorem queues_commute {r : RegisterHtoD} (h : Queues q r) (hc : Crossable r.tag s c)
    (ht : s.ncqTransactionsOutstanding.length = 32) (hd : s.ncqDataOutstanding.length = 32) :
    Alike (fun _ => True) False (dispatch (dispatch s c).1 q).1 (dispatch (dispatch s q).1 c).1 ∧
      (dispatch (dispatch s q).1 c).2 = (dispatch s c).2 ∧
      (dispatch (dispatch s c).1 q).2 = (dispatch s q).2 := by
  have hq := alike_queues (s := s) h
  have hcq : Crossable r.tag (dispatch s q).1 c := hc.congr hq.stack.symm
  obtain ⟨hal, _, hout⟩ := alike_dispatch (c := c) hq (fun ha => hcq.2.2 ha.1)
  have hk := keeps_dispatch (s := s) (c := c)
  obtain ⟨hent, hans⟩ := queues_entries (s := s) (t := (dispatch s c).1) h hk.sectorSize
    ((hk.transactions ht).trans ht.symm) ((hk.data hd).trans hd.symm)
    (fun _ => leaves_dispatch hc)
  refine ⟨?_, hout not_false, hans⟩
  have hne : Alike (· ≠ r.tag) False (dispatch (dispatch s c).1 q).1
      (dispatch (dispatch s q).1 c).1 :=
    (alike_queues h).trans hal.symm
  have hafter := leaves_dispatch hcq
  exact alike_of_leaves hne ⟨hafter.1.trans hent.1.symm, hafter.2.trans hent.2.symm⟩

/-! ## Runs -/

/-- The register frame moves across a whole run of such frames. `u` has not seen
it yet, `v` has. -/
theorem queues_moves {r : RegisterHtoD} (h : Queues q r) {u v : SATAReconstructor β}
    {bs : List (Content β)} (ht : u.ncqTransactionsOutstanding.length = 32)
    (hd : u.ncqDataOutstanding.length = 32) (huv : Alike (fun _ => True) False (dispatch u q).1 v)
    (hb : (∀ k c, bs[k]? = some c → Crossable r.tag (stateAt dispatch u bs k) c) ∨
      ∀ k c, bs[k]? = some c → Crossable r.tag (stateAt dispatch v bs k) c) :
    outputs dispatch v bs = outputs dispatch u bs ∧
      (dispatch (run dispatch u bs) q).2 = (dispatch u q).2 ∧
      Alike (fun _ => True) False (dispatch (run dispatch u bs) q).1 (run dispatch v bs) := by
  induction bs generalizing u v with
  | nil => exact ⟨rfl, rfl, huv⟩
  | cons c bs ih =>
    have hstack : v.ncqDmaStack = u.ncqDmaStack :=
      huv.stack.symm.trans (alike_queues (s := u) h).stack
    have hc : Crossable r.tag u c := by
      rcases hb with hb | hb
      · exact hb 0 c rfl
      · exact (hb 0 c rfl).congr hstack
    obtain ⟨hal, hout, hans⟩ := queues_commute h hc ht hd
    obtain ⟨halv, _, houtv⟩ := alike_dispatch (c := c) huv (fun _ _ _ _ => trivial)
    have hk := keeps_dispatch (s := u) (c := c)
    obtain ⟨hos, hansb, halb⟩ := ih (hk.transactions ht) (hk.data hd) (hal.trans halv)
      (hb.imp (fun hb k c' hc' => hb (k + 1) c' hc') (fun hb k c' hc' => hb (k + 1) c' hc'))
    refine ⟨?_, hansb.trans hans, halb⟩
    rw [outputs_cons, outputs_cons, hos, ← houtv not_false, hout]

/-- Each of the `m` frames from number `i` on may be crossed where the run
handles it. -/
def CrossableFrom (n tag : Nat) (fs : List (PhysicalPacket β)) (i m : Nat) : Prop :=
  ∀ k f, i ≤ k → k < i + m → fs[k]? = some f → Crossable tag (handling n fs k f) f.toContent

variable {n : Nat} {fs : List (PhysicalPacket β)}

theorem handling_alike (hg : GapFree fs) {k : Nat} {f : PhysicalPacket β} (hf : fs[k]? = some f) :
    Alike (fun _ => True) False (handling n fs k f)
      (stateAt dispatch (init n) (fs.map PhysicalPacket.toContent) k) := by
  have hfol : Follows (run processPacket (init n) (fs.take k)) (fs.drop k) :=
    follows_run (by rwa [List.take_append_drop]) (follows_init n _)
  have hgap : gapBefore (stateAt processPacket (init n) fs k) f.lophiSeqn = false :=
    hfol f (by rw [List.head?_drop, hf])
  have hrun := (gapFree_run (s := init n) (hg.take k) (follows_init n _) (Alike.refl _ False _)).2.2
  rw [List.map_take] at hrun
  exact (alike_arrive hgap).trans hrun

/-- The same condition on the run of the dispatch. -/
theorem crossable_contents (hg : GapFree fs) {pre bs post : List (Content β)}
    (hfs : fs.map PhysicalPacket.toContent = pre ++ (bs ++ post))
    (h : CrossableFrom n tag fs pre.length bs.length) {k : Nat} (hk : bs[k]? = some c) :
    Crossable tag (stateAt dispatch (run dispatch (init n) pre) bs k) c := by
  have hlt := (List.getElem?_eq_some_iff.mp hk).1
  have hc : (fs.map PhysicalPacket.toContent)[pre.length + k]? = some c := by
    rw [hfs, List.getElem?_append_right (by omega), Nat.add_sub_cancel_left,
      List.getElem?_append_left hlt, hk]
  rw [List.getElem?_map, Option.map_eq_some_iff] at hc
  obtain ⟨f, hf, rfl⟩ := hc
  have hst : stateAt dispatch (init n) (fs.map PhysicalPacket.toContent) (pre.length + k) =
      stateAt dispatch (run dispatch (init n) pre) bs k := by
    rw [stateAt, hfs, List.take_length_add_append, List.take_append_of_le_length hlt.le,
      run_append, stateAt]
  have hcross := h (pre.length + k) f (by omega) (by omega) hf
  exact hcross.congr ((handling_alike hg hf).stack.trans (congrArg _ hst))

theorem keeps_run (s : SATAReconstructor β) (cs : List (Content β)) :
    Keeps s (run dispatch s cs) := by
  induction cs generalizing s with
  | nil => exact Keeps.refl s
  | cons c cs ih =>
    have h := keeps_dispatch (s := s) (c := c)
    have hr := ih (dispatch s c).1
    exact ⟨hr.sectorSize.trans h.sectorSize, hr.lastPacketSeqno.trans h.lastPacketSeqno,
      hr.totalFrames.trans h.totalFrames, hr.transactions ∘ h.transactions, hr.data ∘ h.data⟩

theorem packets_queues {r : RegisterHtoD} (h : Queues q r) : packets (dispatch s q).2 = [] := by
  rw [dispatch_queues h]
  apply handleRegisterHTD_cases (fun o : Call β => packets o.2 = []) <;> intros <;> rfl

/-- **Moving the register frame of a queued command across frames that leave its
tag alone, earlier or later, leaves the emitted packets as they are; every other
call has the outcome it had, and so has the call with the moved frame.** -/
theorem queued_command_moves (n : Nat) {xs ys : List (PhysicalPacket β)} (hx : GapFree xs)
    (hy : GapFree ys) {as bs cs : List (Content β)} {r : RegisterHtoD} (hq : Queues q r)
    (hxs : xs.map PhysicalPacket.toContent = as ++ q :: (bs ++ cs))
    (hys : ys.map PhysicalPacket.toContent = as ++ (bs ++ q :: cs))
    (h : CrossableFrom n r.tag xs (as.length + 1) bs.length ∨
      CrossableFrom n r.tag ys as.length bs.length) :
    emitted (outputs processPacket (init n) xs) = emitted (outputs processPacket (init n) ys) ∧
      ∃ oa o ob oc, oa.length = as.length ∧ ob.length = bs.length ∧
        outputs processPacket (init n) xs = oa ++ o :: (ob ++ oc) ∧
        outputs processPacket (init n) ys = oa ++ (ob ++ o :: oc) := by
  let u : SATAReconstructor β := run dispatch (init n) as
  have hu := keeps_run (init n) as
  have hb : (∀ k c, bs[k]? = some c → Crossable r.tag (stateAt dispatch u bs k) c) ∨
      ∀ k c, bs[k]? = some c → Crossable r.tag (stateAt dispatch (dispatch u q).1 bs k) c := by
    rcases h with h | h
    · right
      intro k c hk
      have hpre : xs.map PhysicalPacket.toContent = (as ++ [q]) ++ (bs ++ cs) := by
        rw [hxs, List.append_assoc]; rfl
      have := crossable_contents hx hpre (by simpa using h) hk
      rwa [run_append] at this
    · left
      intro k c hk
      exact crossable_contents hy hys h hk
  obtain ⟨hob, ho, hal⟩ := queues_moves hq (hu.transactions List.length_replicate)
    (hu.data List.length_replicate) (Alike.refl _ _ _) hb
  have hox : outputs processPacket (init n) xs =
      outputs dispatch (init n) as ++ (dispatch u q).2 ::
        (outputs dispatch u bs ++ outputs dispatch (run dispatch (dispatch u q).1 bs) cs) := by
    rw [gapFree_init n hx, hxs, outputs_append,
      outputs_cons, outputs_append, hob]
  have hoy : outputs processPacket (init n) ys =
      outputs dispatch (init n) as ++ (outputs dispatch u bs ++ (dispatch u q).2 ::
        outputs dispatch (run dispatch (dispatch u q).1 bs) cs) := by
    rw [gapFree_init n hy, hys, outputs_append,
      outputs_append, outputs_cons, ho, dispatch_alike hal]
  refine ⟨?_, _, _, _, _, outputs_length _, outputs_length _, hox, hoy⟩
  rw [hox, hoy]
  simp [packets_queues hq]

/-- A read of one four-byte sector queued with tag 5, its DMA Setup and its data,
then the same for tag 3 but for the command. -/
def twoReads : List (Content UInt8) × List (Content UInt8) × List (Content UInt8) :=
  ([ { direction := hostToDevice,
       fis := .registerHtoD { C := 1, command := 0x60, tag := 5, features := 1, lba := 70 } },
     { direction := deviceToHost,
       fis := .dmaSetup { directionBit := 1, dmaBufIdentifierLow := 5, transferCount := 4 } } ],
   [ { direction := deviceToHost, fis := .data, sataData := [1, 2, 3, 4, 0, 0, 0, 0] } ],
   [ { direction := deviceToHost,
       fis := .dmaSetup { directionBit := 1, dmaBufIdentifierLow := 3, transferCount := 4 } },
     { direction := deviceToHost, fis := .data, sataData := [10, 20, 30, 40, 0, 0, 0, 0] } ])

/-- The command of tag 3. -/
def laterCommand : Content UInt8 where
  direction := hostToDevice
  fis := .registerHtoD { C := 1, command := 0x60, tag := 3, features := 1, lba := 9 }

/-- Queued after the transfer of tag 5, and moved between its DMA Setup and its
data. -/
theorem laterCommand_moves :
    emitted (outputs processPacket (init 4)
      (number 65534 (twoReads.1 ++ laterCommand :: (twoReads.2.1 ++ twoReads.2.2)))) =
      [⟨70, 1, 0, 4, [1, 2, 3, 4], none⟩, ⟨9, 1, 0, 4, [10, 20, 30, 40], none⟩] := by
  have hcross : CrossableFrom 4 3
      (number 65534 (twoReads.1 ++ (twoReads.2.1 ++ laterCommand :: twoReads.2.2))) 2 1 := by
    intro k f h1 h2 hf
    obtain rfl : k = 2 := by omega
    obtain rfl := Option.some.inj hf
    refine ⟨by decide, ?_, ?_⟩
    · intro r hr; cases hr
    · intro _ d rest hs
      obtain ⟨rfl, _⟩ := List.cons.inj hs
      decide
  rw [(queued_command_moves 4 (gapFree_number _ _) (gapFree_number 65534 _) ⟨rfl, rfl, by decide⟩
    (number_contents _ _) (number_contents _ _) (.inr hcross)).1]
  decide

end LoPhi.Sata.Commutation
