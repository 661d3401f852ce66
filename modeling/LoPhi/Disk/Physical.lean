import LoPhi.Lib.Heapq
import LoPhi.Sata.Frame

/-! # The physical disk sensor

`DiskSensorPhysical._get_sata_packet` reads LO-PHI packets off the wire and hands
on the SATA frames in the order of their 16-bit sequence numbers. A frame that
arrives early waits in a heap keyed by its raw number; when the heap grows beyond
`MAX_HEAP_SIZE` its root is handed on whatever its number is.

The wire is the list of packets still to come; a read from an empty wire blocks.
Two packets with the same number are compared as Python compares the objects:
that comparison is a parameter. -/

namespace LoPhi.Disk.Physical
open LoPhi.Lib.Python LoPhi.Lib.Heapq LoPhi.Sata.Frame

/-- `MAX_HEAP_SIZE`. -/
def maxHeapSize : Nat := 20

/-- An entry of the heap: the sequence number and the packet. -/
abbrev Entry := Option Nat × LOPHIPacket

/-- The part of the object that `_get_sata_packet` uses. `last_lophi_packet` is
only ever assigned. -/
structure DiskSensorPhysical where
  sataEnabled : Bool := false
  sataHeap : List Entry := []
  lastLophiSeqn : Option Nat := none
  droppedPackets : Nat := 0
  deriving DecidableEq, Repr

/-- `None` comes before every number. -/
def seqnLt : Option Nat → Option Nat → Bool
  | none, some _ => true
  | some a, some b => a < b
  | _, none => false

/-- Tuples are compared by the number first, then by the packet. -/
def entryLt (packetLt : LOPHIPacket → LOPHIPacket → Bool) (a b : Entry) : Bool :=
  seqnLt a.1 b.1 || (a.1 == b.1 && packetLt a.2 b.2)

/-- What a call hands on: the `SATAFrame` parsed from a packet's data, or the
packet itself. -/
inductive Delivered where
  | frame (p : LOPHIPacket)
  | packet (p : LOPHIPacket)
  deriving DecidableEq, Repr

/-- The packet a delivered object comes from. -/
def Delivered.source : Delivered → LOPHIPacket
  | .frame p => p
  | .packet p => p

/-- How a call ends. -/
inductive Call where
  | returned (d : Delivered) (s : DiskSensorPhysical) (wire : List LOPHIPacket)
  | blocked (s : DiskSensorPhysical)
  | raised (e : PyError) (s : DiskSensorPhysical) (wire : List LOPHIPacket)
  deriving DecidableEq, Repr

section Sensor
variable (packetLt : LOPHIPacket → LOPHIPacket → Bool)

/-- The first half of the loop's body: the heap's root goes out if it has the
expected number or the heap is too large; otherwise the wire is read. -/
def release (s : DiskSensorPhysical) : Option (Except PyError (Delivered × DiskSensorPhysical)) :=
  match s.sataHeap with
  | [] => none
  | (heapNextSeqn, _) :: _ =>
    match s.lastLophiSeqn with
    | none => some (.error .typeError)
    | some last =>
      if heapNextSeqn = some ((last + 1) % 65536) ∨ maxHeapSize < s.sataHeap.length then
        match heappop (entryLt packetLt) s.sataHeap with
        | none => some (.error .indexOutOfRange)
        | some ((lophiSeqn, lophiPacket), heap) =>
          some (.ok (.packet lophiPacket, { s with
            sataHeap := heap
            lastLophiSeqn := lophiSeqn
            droppedPackets :=
              if maxHeapSize < s.sataHeap.length then s.droppedPackets + 1
              else s.droppedPackets }))
      else none

/-- The end of a call that released an entry of the heap, or failed to. -/
def settle (s : DiskSensorPhysical) (wire : List LOPHIPacket) :
    Except PyError (Delivered × DiskSensorPhysical) → Call
  | .ok (d, s) => .returned d s wire
  | .error e => .raised e s wire

/-- The packet is out of order: a number is known and this is not the next. -/
def outOfOrder (s : DiskSensorPhysical) (p : LOPHIPacket) : Bool :=
  match s.lastLophiSeqn with
  | some last => p.seqnNum ≠ some ((last + 1) % 65536)
  | none => false

/-- The loop of `_get_sata_packet`. The debug line after a push formats the number
with `%d`, which raises if the packet has none. -/
def loop (s : DiskSensorPhysical) : List LOPHIPacket → Call
  | [] =>
    match release packetLt s with
    | some r => settle s [] r
    | none => .blocked s
  | p :: wire =>
    match release packetLt s with
    | some r => settle s (p :: wire) r
    | none =>
      if p.opCode = sataFrame then
        if outOfOrder s p then
          let s := { s with sataHeap := heappush (entryLt packetLt) s.sataHeap (p.seqnNum, p) }
          match p.seqnNum with
          | some _ => loop s wire
          | none => .raised .typeError s wire
        else .returned (.frame p) { s with lastLophiSeqn := p.seqnNum } wire
      else loop s wire

/-- `_get_sata_packet`. The first call enables the extraction of frames, and
`_send_command` takes the next packet for the response. -/
def getSataPacket (s : DiskSensorPhysical) (wire : List LOPHIPacket) : Call :=
  if s.sataEnabled then loop packetLt s wire
  else match wire with
    | [] => .blocked s
    | _ :: wire => loop packetLt { s with sataEnabled := true } wire

/-- What the first `n` calls hand on, up to one that blocks or raises. -/
def calls : Nat → DiskSensorPhysical → List LOPHIPacket → List Delivered
  | 0, _, _ => []
  | n + 1, s, wire =>
    match getSataPacket packetLt s wire with
    | .returned d s wire => d :: calls n s wire
    | _ => []

end Sensor

/-! ## The heap's order -/

/-- The heap is ordered by the raw number alone; no number comes first. -/
def entryKey (e : Entry) : Nat := (e.1.map (· + 1)).getD 0

theorem seqnLt_iff (a b : Entry) : seqnLt a.1 b.1 = true ↔ entryKey a < entryKey b := by
  obtain ⟨a, p⟩ := a
  obtain ⟨b, q⟩ := b
  cases a <;> cases b <;> simp [seqnLt, entryKey]

theorem entryLt_respects (packetLt : LOPHIPacket → LOPHIPacket → Bool) :
    Respects entryKey (entryLt packetLt) := by
  constructor
  · intro a b h
    simp only [entryLt, Bool.or_eq_true, Bool.and_eq_true, beq_iff_eq] at h
    cases h with
    | inl h => exact Nat.le_of_lt ((seqnLt_iff a b).mp h)
    | inr h => exact Nat.le_of_eq (by rw [entryKey, entryKey, h.1])
  · intro a b h
    simp only [entryLt, Bool.or_eq_false_iff] at h
    refine Nat.le_of_not_lt (fun hlt => ?_)
    rw [(seqnLt_iff a b).mpr hlt] at h
    cases h.1

/-! ## One turn of the loop -/

/-- The packet carries a SATA frame. -/
def isSata (p : LOPHIPacket) : Bool := p.opCode == sataFrame

section Turn
variable {packetLt : LOPHIPacket → LOPHIPacket → Bool} {s : DiskSensorPhysical}
  {wire : List LOPHIPacket} {last : Nat}

/-- A heap that is small enough and whose root is not due keeps its entries. -/
theorem release_eq_none (hlast : s.lastLophiSeqn = some last)
    (hsize : s.sataHeap.length ≤ maxHeapSize)
    (hroot : ∀ e, s.sataHeap.head? = some e → e.1 ≠ some ((last + 1) % 65536)) :
    release packetLt s = none := by
  unfold release
  split
  · rfl
  · rename_i heapNextSeqn p rest heap
    rw [heap] at hsize hroot
    have hne := hroot _ rfl
    simp only [hlast, heap]
    rw [if_neg]
    intro h
    cases h with
    | inl h => exact hne h
    | inr h => omega

/-- A root that is due, or that a full heap gives up, goes out. -/
theorem release_root (packetLt : LOPHIPacket → LOPHIPacket → Bool) {root : Entry}
    {rest : List Entry} (heap : s.sataHeap = root :: rest)
    (order : IsHeap entryKey s.sataHeap) (hlast : s.lastLophiSeqn = some last)
    (hdue : root.1 = some ((last + 1) % 65536) ∨ maxHeapSize < s.sataHeap.length) :
    ∃ s', release packetLt s = some (.ok (.packet root.2, s')) ∧
      s'.sataHeap.Perm rest ∧ IsHeap entryKey s'.sataHeap ∧
      s'.lastLophiSeqn = root.1 ∧ s'.sataEnabled = s.sataEnabled := by
  rw [heap] at order
  obtain ⟨heap', hpop, hperm, horder⟩ := heappop_cons (entryLt_respects packetLt) order
  unfold release
  simp only [heap, hlast]
  rw [heap] at hdue
  rw [if_pos hdue, hpop]
  exact ⟨_, rfl, hperm, horder, rfl, rfl⟩

theorem loop_release {r : Except PyError (Delivered × DiskSensorPhysical)}
    (h : release packetLt s = some r) : loop packetLt s wire = settle s wire r := by
  cases wire with
  | nil => simp only [loop, h]
  | cons p wire => simp only [loop, h]

/-- Without a frame to come the loop waits for ever. -/
theorem loop_blocked (h : release packetLt s = none) (hwire : wire.filter isSata = []) :
    loop packetLt s wire = .blocked s := by
  induction wire with
  | nil => simp only [loop, h]
  | cons p wire ih =>
    rw [List.filter_cons] at hwire
    split at hwire
    · cases hwire
    · rename_i hp
      have hop : p.opCode ≠ sataFrame := by simpa [isSata] using hp
      simp only [loop, h, if_neg hop]
      exact ih hwire

/-- The next frame is held back if it is out of order and handed on otherwise;
the packets before it are skipped. -/
theorem loop_read {p : LOPHIPacket} {frames : List LOPHIPacket} {seqn : Nat}
    (h : release packetLt s = none) (hwire : wire.filter isSata = p :: frames)
    (hseqn : p.seqnNum = some seqn) :
    ∃ wire', wire'.filter isSata = frames ∧
      loop packetLt s wire =
        if outOfOrder s p then
          loop packetLt
            { s with sataHeap := heappush (entryLt packetLt) s.sataHeap (some seqn, p) } wire'
        else .returned (.frame p) { s with lastLophiSeqn := some seqn } wire' := by
  induction wire with
  | nil => cases hwire
  | cons q wire ih =>
    rw [List.filter_cons] at hwire
    split at hwire
    · rename_i hq
      have hop : q.opCode = sataFrame := by simpa [isSata] using hq
      cases hwire
      exact ⟨wire, rfl, by simp only [loop, h, if_pos hop, hseqn]⟩
    · rename_i hq
      have hop : q.opCode ≠ sataFrame := by simpa [isSata] using hq
      obtain ⟨wire', hframes, heq⟩ := ih hwire
      refine ⟨wire', hframes, ?_⟩
      rw [← heq]
      simp only [loop, h, if_neg hop]

end Turn

end LoPhi.Disk.Physical
