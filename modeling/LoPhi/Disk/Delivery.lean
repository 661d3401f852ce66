import Mathlib.Data.List.Nodup
import Mathlib.Data.List.Range
import LoPhi.Disk.Physical

/-! # In-order delivery

A stream of frames numbered consecutively modulo 65536 arrives with every frame
at most `MAX_HEAP_SIZE` positions from its place. The heap orders the waiting
frames by their raw numbers, so it puts frame 0 before frame 65535. When two
frames on different sides of that wrap wait for the same earlier frame, the sensor
stops delivering in order. A sensor that still has to enable the extraction takes
the first packet of the stream for the response, so it loses the first frame where
that is the first packet. In every other case it delivers in order.

Between two calls the heap holds the frames read so far that are still to be
delivered, and the last frame read is one already delivered. -/

namespace LoPhi.Disk.Delivery
open LoPhi.Lib.Struct LoPhi.Lib.Heapq LoPhi.Sata.Frame LoPhi.Disk.Physical

/-- A stream and its arrival. Frame number `i` of the stream is `frame i`;
`arrivals` lists the numbers as the frames come in, and `wire` has packets of
other operations among them. Extraction may be `enabled` already, or not. -/
structure Stream where
  start : Nat
  frame : Nat → LOPHIPacket
  arrivals : List Nat
  wire : List LOPHIPacket
  enabled : Bool
  complete : arrivals.Perm (List.range arrivals.length)
  first : arrivals.idxOf 0 = 0
  near : ∀ i < arrivals.length,
    arrivals.idxOf i ≤ i + maxHeapSize ∧ i ≤ arrivals.idxOf i + maxHeapSize
  numbered : ∀ i < arrivals.length, (frame i).seqnNum = some ((start + i) % 65536)
  onWire : wire.filter isSata = arrivals.map frame

namespace Stream
variable (S : Stream)

/-- The number of frames sent. -/
def size : Nat := S.arrivals.length

/-- The number that frame `i` carries. -/
def seqn (i : Nat) : Nat := (S.start + i) % 65536

/-- The position at which frame `i` arrives. -/
def position (i : Nat) : Nat := S.arrivals.idxOf i

def sensor : DiskSensorPhysical := { sataEnabled := S.enabled }

/-- Successive calls hand on the frames in the order sent, each once. -/
def InOrder (packetLt : LOPHIPacket → LOPHIPacket → Bool) : Prop :=
  ∀ n, (calls packetLt n S.sensor S.wire).map Delivered.source =
    ((List.range S.size).take n).map S.frame

/-- The packet that `_send_command` takes for the response, if it takes any, is not a frame. -/
def KeepsFirst : Prop :=
  S.enabled = true ∨ ∀ p, S.wire.head? = some p → isSata p = false

/-- Frame `m` and a later frame `j` with a smaller number both arrive before a
frame `i` sent before them. -/
def StraddlesAt (m : Nat) : Prop :=
  ∃ i j, i < m ∧ m < j ∧ j < S.size ∧ S.position m < S.position i ∧
    S.position j < S.position i ∧ S.seqn j < S.seqn m

theorem mem_arrivals {i : Nat} : i ∈ S.arrivals ↔ i < S.size :=
  S.complete.mem_iff.trans List.mem_range

theorem nodup_arrivals : S.arrivals.Nodup := S.complete.nodup_iff.mpr List.nodup_range

theorem first_arrival {x : Nat} {rest : List Nat} (h : S.arrivals = x :: rest) : x = 0 := by
  have hfirst := S.first
  rw [h] at hfirst
  by_contra hne
  rw [List.idxOf_cons_ne _ hne] at hfirst
  cases hfirst

theorem seqn_succ (m : Nat) : (S.seqn m + 1) % 65536 = S.seqn (m + 1) := by
  unfold seqn
  omega

/-- Frames that are close together carry different numbers. -/
theorem seqn_ne {i j : Nat} (h : i < j) (hj : j < i + 65536) : S.seqn i ≠ S.seqn j := by
  unfold seqn
  omega

theorem frame_ne {i j : Nat} (hi : i < S.size) (hj : j < S.size) (h : S.seqn i ≠ S.seqn j) :
    S.frame i ≠ S.frame j := by
  intro heq
  have hnum := S.numbered i hi
  rw [heq, S.numbered j hj] at hnum
  exact h (Option.some.inj hnum).symm

/-- The heap entry of frame `i`. -/
def entry (i : Nat) : Entry := (some (S.seqn i), S.frame i)

@[simp] theorem entryKey_entry (i : Nat) : entryKey (S.entry i) = S.seqn i + 1 := rfl

end Stream

section Split
variable {S : Stream} {read rest : List Nat}

theorem mem_read_lt_size (h : S.arrivals = read ++ rest) {i : Nat} (hi : i ∈ read) :
    i < S.size := by
  rw [← S.mem_arrivals, h]
  exact List.mem_append_left rest hi

theorem position_lt_of_mem (h : S.arrivals = read ++ rest) {i : Nat} (hi : i ∈ read) :
    S.position i < read.length := by
  rw [Stream.position, h, List.idxOf_append_of_mem hi]
  exact List.idxOf_lt_length_of_mem hi

theorem mem_of_position_lt (h : S.arrivals = read ++ rest) {i : Nat}
    (hi : S.position i < read.length) : i ∈ read := by
  by_contra hne
  rw [Stream.position, h, List.idxOf_append_of_notMem hne] at hi
  omega

theorem notMem_rest (h : S.arrivals = read ++ rest) {i : Nat} (hi : i ∈ read) : i ∉ rest := by
  have hn := S.nodup_arrivals
  rw [h, List.nodup_append] at hn
  exact fun hr => hn.2.2 i hi i hr rfl

theorem position_last (h : S.arrivals = read ++ rest) {i : Nat}
    (hlast : read.getLast? = some i) : S.position i + 1 = read.length := by
  obtain ⟨before, rfl⟩ := List.getLast?_eq_some_iff.mp hlast
  have hsplit : S.arrivals = before ++ i :: rest := by rw [h]; simp
  have hi : i ∉ before := fun hi => notMem_rest hsplit hi (by simp)
  rw [Stream.position, hsplit, List.idxOf_append_of_notMem hi]
  simp

/-- Every frame read arrived before the last one read. -/
theorem position_lt_last (h : S.arrivals = read ++ rest) {i j : Nat}
    (hlast : read.getLast? = some i) (hj : j ∈ read) (hne : j ≠ i) :
    S.position j < S.position i := by
  have hmem : j ∈ S.arrivals := S.mem_arrivals.mpr (mem_read_lt_size h hj)
  have hpos : S.position j ≠ S.position i := fun hEq => hne ((List.idxOf_inj hmem).mp hEq)
  have hlt := position_lt_of_mem h hj
  have hlen := position_last h hlast
  omega

/-- A frame that has arrived is not far ahead of the number of arrivals. -/
theorem mem_read_near (h : S.arrivals = read ++ rest) {i : Nat} (hi : i ∈ read) :
    i < read.length + 20 := by
  have hpos := position_lt_of_mem h hi
  have hnear := (S.near i (mem_read_lt_size h hi)).2
  unfold Stream.position at hpos
  unfold maxHeapSize at hnear
  omega

/-- A frame that has not arrived is not far behind the number of arrivals. -/
theorem read_length_le (h : S.arrivals = read ++ rest) {i : Nat} (hi : i ∉ read)
    (hs : i < S.size) : read.length ≤ i + 20 := by
  have hpos : ¬ S.position i < read.length := fun hlt => hi (mem_of_position_lt h hlt)
  have hnear := (S.near i hs).1
  unfold Stream.position at hpos
  unfold maxHeapSize at hnear
  omega

end Split

/-! ## Between two reads -/

/-- The sensor has handed on the first `m` frames, and `read` has arrived. -/
structure Reordering (S : Stream) (m : Nat) (read rest : List Nat) (s : DiskSensorPhysical)
    (wire : List LOPHIPacket) : Prop where
  enabled : s.sataEnabled = true
  last : ∃ last, s.lastLophiSeqn = some last ∧ (last + 1) % 65536 = S.seqn m
  split : S.arrivals = read ++ rest
  onWire : wire.filter isSata = rest.map S.frame
  heap : s.sataHeap.Perm ((read.filter (m ≤ ·)).map S.entry)
  order : IsHeap entryKey s.sataHeap
  sent : ∀ i < m, i ∈ read

section Reordering
variable {packetLt : LOPHIPacket → LOPHIPacket → Bool} {S : Stream} {m : Nat}
  {read rest : List Nat} {s : DiskSensorPhysical} {wire : List LOPHIPacket}

theorem Reordering.nodup_read (h : Reordering S m read rest s wire) : read.Nodup := by
  have hn := S.nodup_arrivals
  rw [h.split] at hn
  exact hn.of_append_left

theorem Reordering.mem_heap (h : Reordering S m read rest s wire) {e : Entry} :
    e ∈ s.sataHeap ↔ ∃ i ∈ read, m ≤ i ∧ S.entry i = e := by
  rw [h.heap.mem_iff, List.mem_map]
  simp only [List.mem_filter, decide_eq_true_eq, and_assoc]

/-- The frames read are those handed on and those in the heap. -/
theorem Reordering.length_heap (h : Reordering S m read rest s wire) :
    s.sataHeap.length + m = read.length := by
  have hsent : (read.filter (fun i => !decide (m ≤ i))).Perm (List.range m) := by
    rw [List.perm_ext_iff_of_nodup (h.nodup_read.filter _) List.nodup_range]
    intro i
    rw [List.mem_filter, List.mem_range]
    constructor
    · intro hi
      simpa using hi.2
    · intro hi
      exact ⟨h.sent i hi, by simpa using hi⟩
  have hlen := List.length_eq_length_filter_add (l := read) (fun i => decide (m ≤ i))
  rw [hsent.length_eq, List.length_range] at hlen
  rw [h.heap.length_eq, List.length_map]
  exact hlen.symm

/-- A frame still to come is one that is still to be handed on. -/
theorem Reordering.le_of_mem_rest (h : Reordering S m read rest s wire) {i : Nat}
    (hi : i ∈ rest) : m ≤ i := by
  by_contra hlt
  exact notMem_rest h.split (h.sent i (by omega)) hi

/-- The next frame read is not far ahead. -/
theorem Reordering.next_near {x : Nat} (h : Reordering S m read (x :: rest) s wire) :
    x < read.length + 21 := by
  have hsplit : S.arrivals = (read ++ [x]) ++ rest := by rw [h.split]; simp
  have hnear := mem_read_near hsplit (i := x) (by simp)
  simpa using hnear

theorem Reordering.length_le_of_last (h : Reordering S m read rest s wire) {i : Nat}
    (hlast : read.getLast? = some i) (him : i < m) : read.length ≤ m + 20 := by
  have hlen := position_last h.split hlast
  have hnear := (S.near i (mem_read_lt_size h.split (List.mem_of_getLast? hlast))).1
  unfold Stream.position at hlen
  unfold maxHeapSize at hnear
  omega

/-- The frame that is due is not in the heap: nothing is released. -/
theorem Reordering.release_none (h : Reordering S m read rest s wire)
    (hlen : read.length ≤ m + 20)
    (hroot : ∀ e, s.sataHeap.head? = some e → e.1 ≠ some (S.seqn m)) :
    release packetLt s = none := by
  obtain ⟨last, hlast, hnext⟩ := h.last
  have hheap := h.length_heap
  refine release_eq_none hlast ?_ ?_
  · unfold maxHeapSize
    omega
  · rw [hnext]
    exact hroot

/-- Frame `x` arrives out of turn and joins the heap. -/
theorem Reordering.push {x : Nat} (h : Reordering S m read (x :: rest) s wire)
    {wire' : List LOPHIPacket} (hwire : wire'.filter isSata = rest.map S.frame) :
    Reordering S m (read ++ [x]) rest
      { s with sataHeap := heappush (entryLt packetLt) s.sataHeap (S.entry x) } wire' where
  enabled := h.enabled
  last := h.last
  split := by rw [h.split]; simp
  onWire := hwire
  heap := by
    have hx : m ≤ x := h.le_of_mem_rest (by simp)
    refine (heappush_perm _ _ _).trans ?_
    rw [List.filter_append, List.map_append, List.filter_cons_of_pos (by simpa using hx)]
    exact (h.heap.cons _).trans (List.perm_append_singleton _ _).symm
  order := heappush_isHeap (entryLt_respects packetLt) h.order _
  sent := fun i hi => List.mem_append_left _ (h.sent i hi)

theorem Reordering.outOfOrder_frame (h : Reordering S m read rest s wire) {x : Nat}
    (hx : x < S.size) : outOfOrder s (S.frame x) = decide (S.seqn x ≠ S.seqn m) := by
  obtain ⟨last, hlast, hnext⟩ := h.last
  unfold outOfOrder
  rw [hlast]
  have hnum : (S.frame x).seqnNum = some (S.seqn x) := S.numbered x hx
  simp only [hnext, hnum, ne_eq, Option.some.injEq]

/-- Frame `m` arrives when it is due. -/
theorem Reordering.take (h : Reordering S m read (m :: rest) s wire)
    {wire' : List LOPHIPacket} (hwire : wire'.filter isSata = rest.map S.frame) :
    Reordering S (m + 1) (read ++ [m]) rest { s with lastLophiSeqn := some (S.seqn m) } wire' where
  enabled := h.enabled
  last := ⟨_, rfl, S.seqn_succ m⟩
  split := by rw [h.split]; simp
  onWire := hwire
  heap := by
    have hnot : m ∉ read := fun hr => notMem_rest h.split hr (by simp)
    have hkeep : (read ++ [m]).filter (m + 1 ≤ ·) = read.filter (m ≤ ·) := by
      rw [List.filter_append, List.filter_cons_of_neg (by simp), List.filter_nil, List.append_nil]
      refine List.filter_congr (fun i hi => ?_)
      have hne : i ≠ m := fun hEq => hnot (hEq ▸ hi)
      rw [decide_eq_decide]
      omega
    rw [hkeep]
    exact h.heap
  order := h.order
  sent := by
    intro i hi
    by_cases him : i = m
    · simp [him]
    · exact List.mem_append_left _ (h.sent i (by omega))

/-- The loop reads on to the frame that is due. -/
theorem Reordering.deliver_arriving (h : Reordering S m read rest s wire) (hm : m ∈ rest) :
    ∃ s' wire' read' rest', loop packetLt s wire = .returned (.frame (S.frame m)) s' wire' ∧
      Reordering S (m + 1) (read' ++ [m]) rest' s' wire' := by
  induction rest generalizing read s wire with
  | nil => cases hm
  | cons x rest ih =>
    have hnot : m ∉ read := fun hr => notMem_rest h.split hr hm
    have hsize : ∀ i ∈ x :: rest, i < S.size := by
      intro i hi
      rw [← S.mem_arrivals, h.split]
      exact List.mem_append_right read hi
    have hlen := read_length_le h.split hnot (hsize m hm)
    have hrel : release packetLt s = none := by
      refine h.release_none hlen (fun e he heq => ?_)
      obtain ⟨i, hi, hmi, rfl⟩ := h.mem_heap.mp (List.mem_of_mem_head? he)
      have hne : i ≠ m := fun hEq => hnot (hEq ▸ hi)
      have hnear := mem_read_near h.split hi
      exact S.seqn_ne (i := m) (j := i) (by omega) (by omega) (Option.some.inj heq).symm
    have hx := hsize x (by simp)
    obtain ⟨wire', hwire, heq⟩ :=
      loop_read hrel (h.onWire.trans (List.map_cons ..)) (S.numbered x hx)
    have hout := h.outOfOrder_frame hx
    by_cases hxm : x = m
    · subst hxm
      rw [if_neg (by simp [hout])] at heq
      exact ⟨_, wire', read, rest, heq, h.take hwire⟩
    · have hle := h.le_of_mem_rest (i := x) (by simp)
      have hnear := h.next_near
      have hne := S.seqn_ne (i := m) (j := x) (by omega) (by omega)
      rw [if_pos (by simpa [hout] using hne.symm)] at heq
      obtain ⟨s', w', read', rest', hloop, hnext⟩ :=
        ih (h.push hwire) ((List.mem_cons.mp hm).resolve_left (Ne.symm hxm))
      exact ⟨s', w', read', rest', heq.trans hloop, hnext⟩

/-- The frame that is due is the heap's root and goes out. -/
theorem Reordering.deliver_waiting (h : Reordering S m read rest s wire) (hm : m ∈ read)
    (hroot : s.sataHeap.head? = some (S.entry m)) :
    ∃ s', loop packetLt s wire = .returned (.packet (S.frame m)) s' wire ∧
      Reordering S (m + 1) read rest s' wire := by
  obtain ⟨last, hlast, hnext⟩ := h.last
  obtain ⟨others, hheap⟩ := List.head?_eq_some_iff.mp hroot
  obtain ⟨s', hrel, hperm, horder, hlast', henabled⟩ :=
    release_root packetLt hheap h.order hlast (.inl (by rw [hnext]; rfl))
  refine ⟨s', loop_release hrel, ?_⟩
  have hkeep : (read.filter (m ≤ ·)).Perm (m :: read.filter (m + 1 ≤ ·)) := by
    rw [List.perm_ext_iff_of_nodup (h.nodup_read.filter _) ?_]
    · intro i
      by_cases him : i = m
      · simp [him, hm]
      · simp only [List.mem_filter, List.mem_cons, him, false_or, decide_eq_true_eq]
        refine and_congr_right (fun _ => ?_)
        omega
    · rw [List.nodup_cons]
      exact ⟨by simp, h.nodup_read.filter _⟩
  constructor
  · rw [henabled, h.enabled]
  · exact ⟨S.seqn m, hlast', S.seqn_succ m⟩
  · exact h.split
  · exact h.onWire
  · have hall := h.heap.trans (hkeep.map S.entry)
    rw [hheap, List.map_cons] at hall
    exact hperm.trans hall.cons_inv
  · exact horder
  · intro i hi
    by_cases him : i = m
    · rw [him]; exact hm
    · exact h.sent i (by omega)

/-- No frame is left: the next call waits for ever. -/
theorem Reordering.loop_end (h : Reordering S S.size read rest s wire) :
    loop packetLt s wire = .blocked s := by
  have hlen : read.length + rest.length = S.size := by
    rw [Stream.size, h.split, List.length_append]
  have hheap := h.length_heap
  obtain ⟨hheap, hrest⟩ : s.sataHeap.length = 0 ∧ rest.length = 0 := by omega
  rw [List.length_eq_zero_iff] at hheap hrest
  subst hrest
  refine loop_blocked (h.release_none (by omega) ?_) h.onWire
  rw [hheap]
  intro e he
  cases he

theorem Reordering.root_le (h : Reordering S m read rest s wire) {j : Nat} (hj : j ∈ read)
    (hmj : m ≤ j) : ∃ i ∈ read, m ≤ i ∧ s.sataHeap.head? = some (S.entry i) ∧
      S.seqn i ≤ S.seqn j := by
  have hjheap : S.entry j ∈ s.sataHeap := h.mem_heap.mpr ⟨j, hj, hmj, rfl⟩
  obtain ⟨root, others, hheap⟩ := List.exists_cons_of_ne_nil (List.ne_nil_of_mem hjheap)
  obtain ⟨i, hi, hmi, rfl⟩ := h.mem_heap.mp (hheap ▸ List.mem_cons_self)
  obtain ⟨k, hk⟩ := List.getElem?_of_mem hjheap
  have hle := h.order.root_le k (S.entry i) (S.entry j) (by rw [hheap]; rfl) hk
  exact ⟨i, hi, hmi, by rw [hheap]; rfl, by simpa using hle⟩

/-- A waiting frame of smaller number keeps frame `m` from the root: the loop
reads on, or the full heap gives up another frame. -/
theorem Reordering.release_other (h : Reordering S m read rest s wire) (hm : m ∈ read) {j : Nat}
    (hj : j ∈ read) (hmj : m < j) (hless : S.seqn j < S.seqn m) {d : Delivered}
    {s' : DiskSensorPhysical} {wire' : List LOPHIPacket}
    (hret : loop packetLt s wire = .returned d s' wire') :
    (read.length ≤ m + 20 ∧ release packetLt s = none) ∨ d.source ≠ S.frame m := by
  obtain ⟨i, hi, -, hroot, hij⟩ := h.root_le hj (by omega)
  have hne : S.seqn i ≠ S.seqn m := by omega
  by_cases hfull : read.length ≤ m + 20
  · refine .inl ⟨hfull, h.release_none hfull (fun e he heq => hne ?_)⟩
    rw [hroot] at he
    cases he
    exact Option.some.inj heq
  · obtain ⟨others, hheap⟩ := List.head?_eq_some_iff.mp hroot
    obtain ⟨last, hlast, -⟩ := h.last
    have hheaplen := h.length_heap
    have hdue : maxHeapSize < s.sataHeap.length := by unfold maxHeapSize; omega
    obtain ⟨s'', hrel, -⟩ := release_root packetLt hheap h.order hlast (.inr hdue)
    rw [loop_release hrel] at hret
    cases hret
    exact .inr (S.frame_ne (mem_read_lt_size h.split hi) (mem_read_lt_size h.split hm) hne)

/-- While a frame of smaller number waits with it, frame `m` does not go out. -/
theorem Reordering.not_delivered (h : Reordering S m read rest s wire) (hm : m ∈ read) {j : Nat}
    (hj : j ∈ read) (hmj : m < j) (hless : S.seqn j < S.seqn m) {d : Delivered}
    {s' : DiskSensorPhysical} {wire' : List LOPHIPacket}
    (hret : loop packetLt s wire = .returned d s' wire') : d.source ≠ S.frame m := by
  induction rest generalizing read s wire with
  | nil =>
    cases h.release_other hm hj hmj hless hret with
    | inl hnone =>
      rw [loop_blocked hnone.2 h.onWire] at hret
      cases hret
    | inr hne => exact hne
  | cons x rest ih =>
    cases h.release_other hm hj hmj hless hret with
    | inl hnone =>
      obtain ⟨hlen, hrel⟩ := hnone
      have hx : x < S.size := by rw [← S.mem_arrivals, h.split]; simp
      obtain ⟨wire'', hwire, heq⟩ :=
        loop_read hrel (h.onWire.trans (List.map_cons ..)) (S.numbered x hx)
      have hle := h.le_of_mem_rest (i := x) (by simp)
      have hxm : x ≠ m := fun hEq => notMem_rest h.split hm (by simp [hEq])
      have hnear := h.next_near
      have hne := S.seqn_ne (i := m) (j := x) (by omega) (by omega)
      rw [if_pos (by simpa [h.outOfOrder_frame hx] using hne.symm)] at heq
      exact ih (h.push hwire) (List.mem_append_left _ hm) (List.mem_append_left _ hj)
        (heq.symm.trans hret)
    | inr hne => exact hne

end Reordering

/-! ## Between two calls -/

/-- The sensor is about to be asked for frame `m`: nothing was asked yet, or the
last frame read is one already handed on. -/
def Ready (S : Stream) (m : Nat) (s : DiskSensorPhysical) (wire : List LOPHIPacket) : Prop :=
  (m = 0 ∧ s = S.sensor ∧ wire = S.wire ∧ S.KeepsFirst) ∨
    ∃ read rest i, read.getLast? = some i ∧ i < m ∧ Reordering S m read rest s wire

section Ready
variable {packetLt : LOPHIPacket → LOPHIPacket → Bool} {S : Stream} {m : Nat}
  {s : DiskSensorPhysical} {wire : List LOPHIPacket}

/-- The first call reads the frames of the stream, all of them. -/
theorem getSataPacket_first (packetLt : LOPHIPacket → LOPHIPacket → Bool) (h : S.KeepsFirst)
    (hwire : S.wire ≠ []) :
    ∃ wire, wire.filter isSata = S.arrivals.map S.frame ∧
      getSataPacket packetLt S.sensor S.wire = loop packetLt { sataEnabled := true } wire := by
  have hframes := S.onWire
  unfold getSataPacket Stream.sensor
  cases henabled : S.enabled with
  | true => exact ⟨S.wire, hframes, rfl⟩
  | false =>
    obtain ⟨p, wire, heq⟩ := List.exists_cons_of_ne_nil hwire
    have hp : isSata p = false := by
      refine h.resolve_left (by simp [henabled]) p ?_
      rw [heq]
      rfl
    rw [heq, List.filter_cons_of_neg (by simp [hp])] at hframes
    exact ⟨wire, hframes, by rw [heq]; rfl⟩

/-- Where the response is a frame, the first call cannot hand it on. -/
theorem first_lost (packetLt : LOPHIPacket → LOPHIPacket → Bool) (h : ¬ S.KeepsFirst) :
    ∃ wire rest, S.arrivals = 0 :: rest ∧ wire.filter isSata = rest.map S.frame ∧
      getSataPacket packetLt S.sensor S.wire = loop packetLt { sataEnabled := true } wire := by
  unfold Stream.KeepsFirst at h
  push Not at h
  obtain ⟨henabled, p, hhead, hp⟩ := h
  obtain ⟨wire, heq⟩ := List.head?_eq_some_iff.mp hhead
  have hframes := S.onWire
  rw [heq, List.filter_cons_of_pos (by simpa using hp)] at hframes
  cases harrivals : S.arrivals with
  | nil =>
    rw [harrivals] at hframes
    cases hframes
  | cons x rest =>
    have hx := S.first_arrival harrivals
    rw [harrivals, List.map_cons] at hframes
    refine ⟨wire, rest, by rw [hx], (List.cons.inj hframes).2, ?_⟩
    rw [heq]
    exact if_neg henabled

theorem getSataPacket_enabled (h : s.sataEnabled = true) :
    getSataPacket packetLt s wire = loop packetLt s wire := by
  simp only [getSataPacket, h, if_true]

/-- The first frame to arrive is the first one sent. -/
theorem deliver_first (packetLt : LOPHIPacket → LOPHIPacket → Bool) (hsize : 0 < S.size)
    (hframes : wire.filter isSata = S.arrivals.map S.frame) :
    ∃ s' wire' rest, loop packetLt { sataEnabled := true } wire =
      .returned (.frame (S.frame 0)) s' wire' ∧ Reordering S 1 [0] rest s' wire' := by
  obtain ⟨x, rest, hsplit⟩ := List.exists_cons_of_length_pos hsize
  obtain rfl : x = 0 := S.first_arrival hsplit
  rw [hsplit, List.map_cons] at hframes
  have hrel : release packetLt { sataEnabled := true } = none := rfl
  obtain ⟨wire', hwire, heq⟩ := loop_read hrel hframes (S.numbered 0 hsize)
  rw [if_neg (by simp [outOfOrder])] at heq
  refine ⟨_, wire', rest, heq, ?_⟩
  constructor
  · rfl
  · exact ⟨_, rfl, S.seqn_succ 0⟩
  · exact hsplit
  · exact hwire
  · exact List.Perm.refl _
  · intro p c _
    exact below_of_length_le (Nat.zero_le c)
  · intro i hi
    simp [Nat.lt_one_iff.mp hi]

/-- Everything in the heap arrived before the last frame read: without a
straddle the frame that is due is the root. -/
theorem Reordering.root_due {read rest : List Nat} {i : Nat}
    (h : Reordering S m read rest s wire) (hlast : read.getLast? = some i) (him : i < m)
    (hm : m ∈ read) (hns : ¬ S.StraddlesAt m) : s.sataHeap.head? = some (S.entry m) := by
  obtain ⟨j, hj, hmj, hroot, hle⟩ := h.root_le hm (Nat.le_refl m)
  by_cases hEq : j = m
  · rw [hroot, hEq]
  · have hsize := mem_read_lt_size h.split hj
    have hnear := mem_read_near h.split hj
    have hlen := h.length_le_of_last hlast him
    have hne := S.seqn_ne (i := m) (j := j) (by omega) (by omega)
    exact absurd ⟨i, j, him, by omega, hsize, position_lt_last h.split hlast hm (by omega),
      position_lt_last h.split hlast hj (by omega), by omega⟩ hns

/-- **One call hands on the frame that is due**, unless it straddles the wrap. -/
theorem Ready.step (packetLt : LOPHIPacket → LOPHIPacket → Bool) (h : Ready S m s wire)
    (hm : m < S.size) (hns : ¬ S.StraddlesAt m) :
    ∃ d s' wire', getSataPacket packetLt s wire = .returned d s' wire' ∧
      d.source = S.frame m ∧ Ready S (m + 1) s' wire' := by
  cases h with
  | inl h =>
    obtain ⟨rfl, rfl, rfl, hkeeps⟩ := h
    have hwire : S.wire ≠ [] := by
      intro hnil
      have hframes := S.onWire
      rw [hnil] at hframes
      have hnone : S.arrivals = [] := List.map_eq_nil_iff.mp hframes.symm
      rw [Stream.size, hnone] at hm
      cases hm
    obtain ⟨wire, hframes, hfirst⟩ := getSataPacket_first packetLt hkeeps hwire
    obtain ⟨s', wire', rest, hloop, hnext⟩ := deliver_first packetLt hm hframes
    exact ⟨_, s', wire', hfirst.trans hloop, rfl,
      .inr ⟨[0], rest, 0, rfl, Nat.zero_lt_one, hnext⟩⟩
  | inr h =>
    obtain ⟨read, rest, i, hlast, him, h⟩ := h
    rw [getSataPacket_enabled h.enabled]
    by_cases hmr : m ∈ read
    · obtain ⟨s', hloop, hnext⟩ := h.deliver_waiting hmr (h.root_due hlast him hmr hns)
      exact ⟨_, s', wire, hloop, rfl, .inr ⟨read, rest, i, hlast, by omega, hnext⟩⟩
    · have hrest : m ∈ rest := by
        rw [← S.mem_arrivals, h.split] at hm
        exact (List.mem_append.mp hm).resolve_left hmr
      obtain ⟨s', wire', read', rest', hloop, hnext⟩ := h.deliver_arriving hrest
      exact ⟨_, s', wire', hloop, rfl,
        .inr ⟨read' ++ [m], rest', m, by simp, Nat.lt_succ_self m, hnext⟩⟩

/-- A call for a frame that straddles the wrap hands on another one, if any. -/
theorem Ready.not_delivered (h : Ready S m s wire) (hs : S.StraddlesAt m) {d : Delivered}
    {s' : DiskSensorPhysical} {wire' : List LOPHIPacket}
    (hret : getSataPacket packetLt s wire = .returned d s' wire') : d.source ≠ S.frame m := by
  obtain ⟨i, j, him, hmj, hsize, hmi, hji, hless⟩ := hs
  cases h with
  | inl h => omega
  | inr h =>
    obtain ⟨read, rest, k, hlast, hkm, h⟩ := h
    rw [getSataPacket_enabled h.enabled] at hret
    have hpos := position_lt_of_mem h.split (h.sent i him)
    have hm : m ∈ read := mem_of_position_lt h.split (by omega)
    have hj : j ∈ read := mem_of_position_lt h.split (by omega)
    exact h.not_delivered hm hj hmj hless hret

theorem Ready.calls_end (h : Ready S S.size s wire) (n : Nat) : calls packetLt n s wire = [] := by
  have hblocked : ∃ s', getSataPacket packetLt s wire = .blocked s' := by
    cases h with
    | inl h =>
      obtain ⟨hsize, rfl, rfl, hkeeps⟩ := h
      by_cases hwire : S.wire = []
      · rw [hwire]
        unfold getSataPacket
        split
        · exact ⟨_, loop_blocked rfl rfl⟩
        · exact ⟨_, rfl⟩
      · obtain ⟨wire, hframes, hfirst⟩ := getSataPacket_first packetLt hkeeps hwire
        rw [List.length_eq_zero_iff.mp hsize] at hframes
        exact ⟨_, hfirst.trans (loop_blocked rfl hframes)⟩
    | inr h =>
      obtain ⟨read, rest, i, -, -, h⟩ := h
      exact ⟨s, (getSataPacket_enabled h.enabled).trans h.loop_end⟩
  obtain ⟨s', hblocked⟩ := hblocked
  cases n with
  | zero => rfl
  | succ n => simp only [calls, hblocked]

/-- Call after call hands on the frames up to the first that straddles. -/
theorem Ready.run (packetLt : LOPHIPacket → LOPHIPacket → Bool) {n : Nat}
    (h : Ready S m s wire) (hn : m + n ≤ S.size)
    (hns : ∀ k, m ≤ k → k < m + n → ¬ S.StraddlesAt k) :
    ∃ s' wire', Ready S (m + n) s' wire' ∧ ∀ l,
      (calls packetLt (n + l) s wire).map Delivered.source =
        (List.range' m n).map S.frame ++ (calls packetLt l s' wire').map Delivered.source := by
  induction n generalizing m s wire with
  | zero => exact ⟨s, wire, h, fun l => by simp⟩
  | succ n ih =>
    obtain ⟨d, s₁, wire₁, hcall, hd, hnext⟩ :=
      h.step packetLt (by omega) (hns m (Nat.le_refl m) (by omega))
    obtain ⟨s', wire', hend, hcalls⟩ :=
      ih hnext (by omega) (fun k hk hlt => hns k (by omega) (by omega))
    refine ⟨s', wire', by rwa [Nat.add_right_comm, Nat.add_assoc] at hend, fun l => ?_⟩
    rw [Nat.add_right_comm n 1 l]
    simp only [calls, hcall, List.map_cons, List.range'_succ, List.cons_append, hd, hcalls l]

end Ready

/-- Without the first frame the first call hands on another one, if any. -/
theorem not_inOrder_of_lost {S : Stream} (packetLt : LOPHIPacket → LOPHIPacket → Bool)
    (h : ¬ S.KeepsFirst) : ¬ S.InOrder packetLt := by
  intro hin
  obtain ⟨wire, rest, hsplit, hframes, hfirst⟩ := first_lost packetLt h
  have hsize : 0 < S.size := by
    rw [Stream.size, hsplit]
    exact Nat.succ_pos _
  have hone := hin 1
  rw [List.take_range, Nat.min_eq_left hsize] at hone
  cases rest with
  | nil =>
    have hblocked : loop packetLt { sataEnabled := true } wire = .blocked _ :=
      loop_blocked rfl hframes
    simp only [calls, hfirst, hblocked] at hone
    cases hone
  | cons x rest =>
    have hx : x < S.size := by
      rw [← S.mem_arrivals, hsplit]
      simp
    have hsplit' : S.arrivals = [0, x] ++ rest := hsplit
    have hnear : x < 22 := mem_read_near hsplit' (by simp)
    have hne : x ≠ 0 := by
      rintro rfl
      have hagain : S.arrivals = [0] ++ (0 :: rest) := hsplit
      exact notMem_rest hagain (i := 0) (by simp) (by simp)
    have hframe : S.frame x ≠ S.frame 0 :=
      S.frame_ne hx hsize (S.seqn_ne (i := 0) (by omega) (by omega)).symm
    obtain ⟨wire', -, heq⟩ : ∃ wire', _ ∧
        loop packetLt { sataEnabled := true } wire = _ :=
      loop_read rfl (hframes.trans (List.map_cons ..)) (S.numbered x hx)
    rw [if_neg (by simp [outOfOrder])] at heq
    simp only [calls, hfirst, heq, List.map_cons, List.map_nil, Delivered.source] at hone
    exact hframe (List.cons.inj hone).1

/-- **The sensor delivers in order exactly when no frame is taken for the response and no frame
straddles the wrap.** -/
theorem inOrder_iff (packetLt : LOPHIPacket → LOPHIPacket → Bool) (S : Stream) :
    S.InOrder packetLt ↔ S.KeepsFirst ∧ ∀ m, ¬ S.StraddlesAt m := by
  constructor
  · -- the calls before the least straddling frame are in order, the next is not
    intro hin
    have hkeeps : S.KeepsFirst := by
      by_contra hlost
      exact not_inOrder_of_lost packetLt hlost hin
    have hstart : Ready S 0 S.sensor S.wire := .inl ⟨rfl, rfl, rfl, hkeeps⟩
    refine ⟨hkeeps, fun m => ?_⟩
    induction m using Nat.strongRecOn with
    | _ m ih =>
      intro hs
      have hm : m < S.size := by
        obtain ⟨i, j, -, hmj, hj, -⟩ := hs
        omega
      obtain ⟨s', wire', hready, hcalls⟩ :=
        hstart.run packetLt (n := m) (by omega) (fun k _ hk => ih k (by omega))
      have hnext := (hcalls 1).symm.trans (hin (m + 1))
      rw [List.take_range, Nat.min_eq_left hm, List.range_succ, List.map_append,
        List.range_eq_range', List.append_cancel_left_eq] at hnext
      rw [Nat.zero_add] at hready
      unfold calls at hnext
      split at hnext
      · rename_i d s'' wire'' hret
        exact hready.not_delivered hs hret (List.cons.inj hnext).1
      · cases hnext
  · rintro ⟨hkeeps, hns⟩ n
    have hstart : Ready S 0 S.sensor S.wire := .inl ⟨rfl, rfl, rfl, hkeeps⟩
    rw [List.take_range, List.range_eq_range']
    obtain ⟨s', wire', hready, hcalls⟩ := hstart.run packetLt (n := min n S.size)
      (by omega) (fun k _ _ => hns k)
    have hend : calls packetLt (n - S.size) s' wire' = [] := by
      by_cases hn : n ≤ S.size
      · rw [Nat.sub_eq_zero_of_le hn]
        rfl
      · rw [Nat.zero_add, Nat.min_eq_right (by omega)] at hready
        exact hready.calls_end _
    have hall := hcalls (n - S.size)
    rw [hend, show min n S.size + (n - S.size) = n by omega] at hall
    rw [hall, List.map_nil, List.append_nil]

/-- Four frames numbered 65533, 65534, 65535 and 0; the second arrives last. -/
def wrappingStream : Stream where
  start := 65533
  frame i := ⟨sataFrame, beBytes 2 ((65533 + i) % 65536) ++ [0, 0]⟩
  arrivals := [0, 2, 3, 1]
  wire := [0, 2, 3, 1].map fun i =>
    ⟨sataFrame, beBytes 2 ((65533 + i) % 65536) ++ [0, 0]⟩
  enabled := true
  complete := by decide
  first := by decide
  near := by decide
  numbered := by decide
  onWire := by decide

/-- Frame 0 stays the root, and frame 65535 never leaves the heap. -/
theorem wrappingStream_not_inOrder : ¬ wrappingStream.InOrder (fun _ _ => false) := by
  intro h
  exact absurd (h 3) (by decide)

end LoPhi.Disk.Delivery
