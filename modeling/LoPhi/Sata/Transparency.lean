import LoPhi.Sata.TwoRuns

/-! # Bookkeeping frames

Frames that announce or acknowledge but carry no command and no data: the
reconstructor handles them before it looks at `STATE` and changes nothing. So
they can be inserted anywhere in a gap-free sequence, in the middle of a burst
too, and the same packets come out. -/

namespace LoPhi.Sata.Transparency
open LoPhi.Lib.Machine
open LoPhi.Sata.Frame LoPhi.Sata.Reconstructor LoPhi.Sata.Step LoPhi.Sata.TwoRuns

variable {β : Type} {c : Content β}

/-- DMA Activate and BIST Activate; a Set Device Bits or a device register frame
that reports no error; a host register frame that issues no command the
reconstructor follows. -/
def Bookkeeping (c : Content β) : Prop :=
  match c.fis with
  | .dmaActivate _ => True
  | .bistActivate => True
  | .setDeviceBits b => b.statusLo &&& 1 ≠ 1 ∧ ¬ (b.interrupt = 1 ∧ b.proto = 0xffffffff)
  | .registerDtoH r => c.direction = deviceToHost ∧ r.status &&& 1 ≠ 1
  | .registerHtoD r => c.direction = hostToDevice ∧ (r.C = 0 ∨ r.command = ncqQueueManagement)
  | _ => False

/-- A bookkeeping frame changes nothing, whatever the state. -/
theorem dispatch_bookkeeping (s : SATAReconstructor β) (h : Bookkeeping c) :
    dispatch s c = (s, .ok none) := by
  unfold Bookkeeping at h
  unfold dispatch
  cases hf : c.fis with
  | dmaActivate a => rfl
  | bistActivate => rfl
  | setDeviceBits b =>
    rw [hf] at h
    exact (if_neg h.1).trans (if_neg h.2)
  | registerDtoH r =>
    rw [hf] at h
    dsimp only
    rw [if_pos h.1]
    exact if_neg h.2
  | registerHtoD r =>
    rw [hf] at h
    dsimp only
    rw [if_pos h.1]
    rcases h.2 with hC | hm
    · exact handleRegisterHTD_ignored (fun hn => hn.1 hC) (fun hr => hr.1 hC)
    · refine handleRegisterHTD_ignored (fun hn => ?_) (fun hr => hr.2.2 hm)
      rcases hn.2 with hc | hc <;> rw [hm] at hc <;> exact absurd hc (by decide)
  | pioSetup p => rw [hf] at h; exact h.elim
  | dmaSetup d => rw [hf] at h; exact h.elim
  | data => rw [hf] at h; exact h.elim

/-- **Bookkeeping frames inserted anywhere in a gap-free sequence, renumbered to
stay gap-free, change nothing visible: a fresh reconstructor emits the same
packets in the same order, and raises the same errors among them.** -/
theorem bookkeeping_transparent (n : Nat) {xs ys : List (PhysicalPacket β)} (hx : GapFree xs)
    (hy : GapFree ys)
    (h : Inserted Bookkeeping (xs.map PhysicalPacket.toContent)
      (ys.map PhysicalPacket.toContent)) :
    emitted (outputs processPacket (init n) ys) = emitted (outputs processPacket (init n) xs) ∧
      (outputs processPacket (init n) ys).filter visible =
        (outputs processPacket (init n) xs).filter visible := by
  have hvis : (outputs processPacket (init n) ys).filter visible =
      (outputs processPacket (init n) xs).filter visible := by
    rw [gapFree_init n hx, gapFree_init n hy]
    refine outputs_inserted (fun s c hc => ?_) h (init n)
    rw [dispatch_bookkeeping s hc]
    exact ⟨rfl, rfl⟩
  exact ⟨by rw [← emitted_visible, hvis, emitted_visible], hvis⟩

/-- A queued read of one four-byte sector. -/
def plainRead : List (PhysicalPacket UInt8) :=
  [ { lophiSeqn := 65534, direction := hostToDevice,
      fis := .registerHtoD { C := 1, command := 0x60, tag := 3, features := 1, lba := 9 } },
    { lophiSeqn := 65535, direction := deviceToHost,
      fis := .dmaSetup { directionBit := 1, dmaBufIdentifierLow := 3, transferCount := 4 } },
    { lophiSeqn := 0, direction := deviceToHost, fis := .data,
      sataData := [10, 20, 30, 40, 0, 0, 0, 0] } ]

/-- The same read with an acknowledgement after the command and a status frame
between the DMA Setup and its data. -/
def acknowledgedRead : List (PhysicalPacket UInt8) :=
  [ { lophiSeqn := 65534, direction := hostToDevice,
      fis := .registerHtoD { C := 1, command := 0x60, tag := 3, features := 1, lba := 9 } },
    { lophiSeqn := 65535, direction := deviceToHost, fis := .registerDtoH { status := 0x40 } },
    { lophiSeqn := 0, direction := deviceToHost,
      fis := .dmaSetup { directionBit := 1, dmaBufIdentifierLow := 3, transferCount := 4 } },
    { lophiSeqn := 1, direction := deviceToHost, fis := .setDeviceBits { statusLo := 0x40 } },
    { lophiSeqn := 2, direction := deviceToHost, fis := .data,
      sataData := [10, 20, 30, 40, 0, 0, 0, 0] } ]

theorem acknowledgedRead_transparent :
    emitted (outputs processPacket (init 4) acknowledgedRead) =
      [⟨9, 1, 0, 4, [10, 20, 30, 40], none⟩] := by
  have hins : Inserted Bookkeeping (plainRead.map PhysicalPacket.toContent)
      (acknowledgedRead.map PhysicalPacket.toContent) :=
    .keep _ (.insert ⟨rfl, by decide⟩ (.keep _ (.insert ⟨by decide, by decide⟩ (.keep _ .nil))))
  rw [(bookkeeping_transparent 4 (by simp [GapFree, plainRead])
    (by simp [GapFree, acknowledgedRead]) hins).1]
  decide

end LoPhi.Sata.Transparency
