import LoPhi.Disk.Physical

/-! # What the reorder buffer keeps

The frames read from the wire are those handed on and those in the heap, whatever
their numbers are. One turn of the loop moves one frame; the facts about turns
carry over to calls, and from calls to any number of them.

The one frame that is lost is not lost by the buffer: a sensor that is not yet
enabled sends its command first, and `_send_command` takes the next packet for
the response without looking at its operation. -/

namespace LoPhi.Disk.Conservation
open scoped List
open LoPhi.Lib.Python LoPhi.Lib.Heapq LoPhi.Sata.Frame LoPhi.Disk.Physical

section Calls
variable (packetLt : LOPHIPacket → LOPHIPacket → Bool)

/-- The states the object goes through in the turns of the loop, the one it is in
at their start included. -/
def visited (s : DiskSensorPhysical) : List LOPHIPacket → List DiskSensorPhysical
  | [] =>
    match release packetLt s with
    | some (.ok (_, s')) => [s, s']
    | _ => [s]
  | p :: wire =>
    match release packetLt s with
    | some (.ok (_, s')) => [s, s']
    | some (.error _) => [s]
    | none =>
      if p.opCode = sataFrame then
        if outOfOrder s p then
          let s' := { s with sataHeap := heappush (entryLt packetLt) s.sataHeap (p.seqnNum, p) }
          match p.seqnNum with
          | some _ => s :: visited s' wire
          | none => [s, s']
        else [s, { s with lastLophiSeqn := p.seqnNum }]
      else s :: visited s wire

/-- The states the object goes through in a call. -/
def callStates (s : DiskSensorPhysical) (wire : List LOPHIPacket) : List DiskSensorPhysical :=
  if s.sataEnabled then visited packetLt s wire
  else match wire with
    | [] => [s]
    | _ :: wire => s :: visited packetLt { s with sataEnabled := true } wire

/-- What `n` calls hand on, the state they leave and the packets still to come, if
all of them return. -/
def completed : Nat → DiskSensorPhysical → List LOPHIPacket →
    Option (List Delivered × DiskSensorPhysical × List LOPHIPacket)
  | 0, s, wire => some ([], s, wire)
  | n + 1, s, wire =>
    match getSataPacket packetLt s wire with
    | .returned d s wire =>
      (completed n s wire).map fun (returned, s, wire) => (d :: returned, s, wire)
    | _ => none

/-- The heap is in order, not larger than it may be for a moment, and empty until
a number is known. -/
structure SoundHeap (s : DiskSensorPhysical) : Prop where
  order : IsHeap entryKey s.sataHeap
  size : s.sataHeap.length ≤ maxHeapSize + 1
  known : s.sataHeap ≠ [] → s.lastLophiSeqn ≠ none

/-- After any number of completed calls, the frames read are those handed on and
those in the heap, the last number is that of the last packet handed on, and the
heap is sound now and throughout the next call. -/
def Conserves (enabled : Bool) (wire : List LOPHIPacket) : Prop :=
  ∀ n returned s rest,
    completed packetLt n { sataEnabled := enabled } wire = some (returned, s, rest) →
    (∃ read, wire = read ++ rest ∧ (read.filter isSata).Perm
      (returned.map Delivered.source ++ s.sataHeap.map Prod.snd)) ∧
    s.lastLophiSeqn = (returned.getLast?.bind fun d => d.source.seqnNum) ∧
    ∀ t ∈ callStates packetLt s rest, SoundHeap t

end Calls

/-! ## One turn -/

/-- At the head of the loop: every entry of the heap has the number of its packet,
and the heap is small unless the last turn filled it. -/
structure Held (s : DiskSensorPhysical) : Prop extends SoundHeap s where
  numbered : ∀ e ∈ s.sataHeap, e.1 = e.2.seqnNum ∧ e.1 ≠ none

section Turn
variable {packetLt : LOPHIPacket → LOPHIPacket → Bool} {s s' : DiskSensorPhysical}
  {wire : List LOPHIPacket} {d : Delivered}

theorem held_empty {enabled : Bool} {last : Option Nat} :
    Held { sataEnabled := enabled, lastLophiSeqn := last } := by
  refine ⟨⟨?_, by simp, fun h => (h rfl).elim⟩, fun e he => by cases he⟩
  intro p c _
  exact below_of_length_le (Nat.zero_le c)

/-- Whatever is released is the root: the heap never fails to give it up. -/
theorem release_cases (packetLt : LOPHIPacket → LOPHIPacket → Bool) (h : Held s) :
    (release packetLt s = none ∧ s.sataHeap.length ≤ maxHeapSize) ∨
      ∃ p s', release packetLt s = some (.ok (.packet p, s')) ∧
        (s.sataHeap.map Prod.snd).Perm (p :: s'.sataHeap.map Prod.snd) ∧
        s'.lastLophiSeqn = p.seqnNum ∧ s'.sataEnabled = s.sataEnabled ∧ Held s' ∧
        s'.sataHeap.length ≤ maxHeapSize := by
  cases hheap : s.sataHeap with
  | nil =>
    refine .inl ⟨?_, Nat.zero_le _⟩
    unfold release
    rw [hheap]
  | cons root rest =>
    obtain ⟨last, hlast⟩ : ∃ last, s.lastLophiSeqn = some last :=
      Option.ne_none_iff_exists'.mp (h.known (by rw [hheap]; exact List.cons_ne_nil _ _))
    by_cases hdue : root.1 = some ((last + 1) % 65536) ∨ maxHeapSize < s.sataHeap.length
    · right
      obtain ⟨s', hrel, hperm, horder, hlast', henabled⟩ :=
        release_root packetLt hheap h.order hlast hdue
      have hroot := h.numbered root (by rw [hheap]; exact List.mem_cons_self)
      have hlen : s'.sataHeap.length ≤ maxHeapSize := by
        have hsize := h.size
        rw [hheap, List.length_cons] at hsize
        rw [hperm.length_eq]
        omega
      refine ⟨root.2, s', hrel, ?_, hlast'.trans hroot.1, henabled, ⟨⟨horder, ?_, ?_⟩, ?_⟩, hlen⟩
      · exact ((hperm.map Prod.snd).cons root.2).symm
      · omega
      · intro _
        rw [hlast']
        exact hroot.2
      · intro e he
        exact h.numbered e (by rw [hheap]; exact List.mem_cons_of_mem _ (hperm.mem_iff.mp he))
    · left
      have hsmall : s.sataHeap.length ≤ maxHeapSize := by omega
      rw [hheap] at hsmall
      refine ⟨release_eq_none hlast (by rw [hheap]; exact hsmall) ?_, hsmall⟩
      intro e he heq
      rw [hheap] at he
      cases he
      exact hdue (.inl heq)

/-- The object once an early frame is on the heap. -/
def push (packetLt : LOPHIPacket → LOPHIPacket → Bool) (s : DiskSensorPhysical)
    (p : LOPHIPacket) : DiskSensorPhysical :=
  { s with sataHeap := heappush (entryLt packetLt) s.sataHeap (p.seqnNum, p) }

/-- A frame is out of order only once a number is known. -/
theorem Held.push (packetLt : LOPHIPacket → LOPHIPacket → Bool) (h : Held s)
    (hsmall : s.sataHeap.length ≤ maxHeapSize) {p : LOPHIPacket} (hout : outOfOrder s p = true) :
    SoundHeap (push packetLt s p) := by
  constructor
  · exact heappush_isHeap (entryLt_respects packetLt) h.order _
  · unfold Conservation.push
    simp only
    rw [(heappush_perm _ _ _).length_eq, List.length_cons]
    omega
  · intro _ hnone
    unfold outOfOrder at hout
    rw [show s.lastLophiSeqn = none from hnone] at hout
    cases hout

theorem Held.push_numbered (packetLt : LOPHIPacket → LOPHIPacket → Bool) (h : Held s)
    (hsmall : s.sataHeap.length ≤ maxHeapSize) {p : LOPHIPacket} (hout : outOfOrder s p = true)
    (hp : p.seqnNum ≠ none) : Held (Conservation.push packetLt s p) := by
  refine ⟨h.push packetLt hsmall hout, fun e he => ?_⟩
  obtain rfl | he := List.mem_cons.mp ((heappush_perm _ _ _).mem_iff.mp he)
  · exact ⟨rfl, hp⟩
  · exact h.numbered e he

/-- What a turn of the loop does when packet `p` is the next on the wire. -/
inductive Turn (packetLt : LOPHIPacket → LOPHIPacket → Bool) (s : DiskSensorPhysical)
    (p : LOPHIPacket) (wire : List LOPHIPacket) : Prop
  | released (q : LOPHIPacket) (s' : DiskSensorPhysical)
      (run : loop packetLt s (p :: wire) = .returned (.packet q) s' (p :: wire))
      (states : visited packetLt s (p :: wire) = [s, s'])
      (moved : (s.sataHeap.map Prod.snd).Perm (q :: s'.sataHeap.map Prod.snd))
      (last : s'.lastLophiSeqn = q.seqnNum) (enabled : s'.sataEnabled = s.sataEnabled)
      (held : Held s')
  | skipped (other : isSata p = false)
      (run : loop packetLt s (p :: wire) = loop packetLt s wire)
      (states : visited packetLt s (p :: wire) = s :: visited packetLt s wire)
  | pushed (s' : DiskSensorPhysical) (frame : isSata p = true)
      (run : loop packetLt s (p :: wire) = loop packetLt s' wire)
      (states : visited packetLt s (p :: wire) = s :: visited packetLt s' wire)
      (moved : (s'.sataHeap.map Prod.snd).Perm (p :: s.sataHeap.map Prod.snd))
      (enabled : s'.sataEnabled = s.sataEnabled) (held : Held s')
  | raised (s' : DiskSensorPhysical)
      (run : loop packetLt s (p :: wire) = .raised .typeError s' wire)
      (states : visited packetLt s (p :: wire) = [s, s']) (sound : SoundHeap s')
  | inOrder (s' : DiskSensorPhysical) (frame : isSata p = true)
      (run : loop packetLt s (p :: wire) = .returned (.frame p) s' wire)
      (states : visited packetLt s (p :: wire) = [s, s'])
      (same : s'.sataHeap = s.sataHeap) (last : s'.lastLophiSeqn = p.seqnNum)
      (enabled : s'.sataEnabled = s.sataEnabled) (held : Held s')

/-- A frame in order keeps the heap; it may be without a number only while the heap
is empty. -/
theorem Held.inOrder (h : Held s) {p : LOPHIPacket} (hin : outOfOrder s p = false) :
    Held { s with lastLophiSeqn := p.seqnNum } := by
  refine ⟨⟨h.order, h.size, ?_⟩, h.numbered⟩
  intro hne hnone
  obtain ⟨last, hlast⟩ := Option.ne_none_iff_exists'.mp (h.known hne)
  simp only at hnone
  unfold outOfOrder at hin
  rw [hlast] at hin
  simp [hnone] at hin

theorem turn_cases (packetLt : LOPHIPacket → LOPHIPacket → Bool) (h : Held s) (p : LOPHIPacket)
    (wire : List LOPHIPacket) : Turn packetLt s p wire := by
  cases release_cases packetLt h with
  | inr hsome =>
    obtain ⟨q, s', hrel, hmoved, hlast, henabled, held, -⟩ := hsome
    refine .released q s' (loop_release hrel) ?_ hmoved hlast henabled held
    simp only [visited, hrel]
  | inl hnone =>
    obtain ⟨hrel, hsmall⟩ := hnone
    by_cases hop : p.opCode = sataFrame
    · have hframe : isSata p = true := by simp [isSata, hop]
      cases hout : outOfOrder s p with
      | true =>
        cases hp : p.seqnNum with
        | some seqn =>
          have held := h.push_numbered packetLt hsmall hout (by simp [hp])
          refine .pushed (push packetLt s p) hframe ?_ ?_ ?_ rfl held
          · simp [loop, hrel, hop, hout, hp, push]
          · simp [visited, hrel, hop, hout, hp, push]
          · exact (heappush_perm _ _ _).map Prod.snd
        | none =>
          refine .raised (push packetLt s p) ?_ ?_ (h.push packetLt hsmall hout)
          · simp [loop, hrel, hop, hout, hp, push]
          · simp [visited, hrel, hop, hout, hp, push]
      | false =>
        refine .inOrder { s with lastLophiSeqn := p.seqnNum } hframe ?_ ?_ rfl rfl rfl
          (h.inOrder hout)
        · simp [loop, hrel, hop, hout]
        · simp [visited, hrel, hop, hout]
    · refine .skipped (by simp [isSata, hop]) ?_ ?_
      · simp [loop, hrel, hop]
      · simp [visited, hrel, hop]

end Turn

/-! ## Calls -/

section Run
variable {packetLt : LOPHIPacket → LOPHIPacket → Bool} {s s' : DiskSensorPhysical}
  {wire rest : List LOPHIPacket} {d : Delivered}

/-- Throughout the loop the heap is sound. -/
theorem Held.visited (h : Held s) : ∀ t ∈ visited packetLt s wire, SoundHeap t := by
  induction wire generalizing s with
  | nil =>
    unfold Conservation.visited
    cases release_cases packetLt h with
    | inl hnone =>
      rw [hnone.1, List.forall_mem_singleton]
      exact h.toSoundHeap
    | inr hsome =>
      obtain ⟨p, s', hrel, -, -, -, h', -⟩ := hsome
      rw [hrel, List.forall_mem_cons, List.forall_mem_singleton]
      exact ⟨h.toSoundHeap, h'.toSoundHeap⟩
  | cons p wire ih =>
    cases turn_cases packetLt h p wire with
    | released q s' _ states _ _ _ held =>
      rw [states, List.forall_mem_cons, List.forall_mem_singleton]
      exact ⟨h.toSoundHeap, held.toSoundHeap⟩
    | skipped _ _ states =>
      rw [states, List.forall_mem_cons]
      exact ⟨h.toSoundHeap, ih h⟩
    | pushed s' _ _ states _ _ held =>
      rw [states, List.forall_mem_cons]
      exact ⟨h.toSoundHeap, ih held⟩
    | raised s' _ states sound =>
      rw [states, List.forall_mem_cons, List.forall_mem_singleton]
      exact ⟨h.toSoundHeap, sound⟩
    | inOrder s' _ _ states _ _ _ held =>
      rw [states, List.forall_mem_cons, List.forall_mem_singleton]
      exact ⟨h.toSoundHeap, held.toSoundHeap⟩

/-- What a call of the loop that returns has done with the packets it read. -/
structure Moves (s : DiskSensorPhysical) (read : List LOPHIPacket) (d : Delivered)
    (s' : DiskSensorPhysical) : Prop where
  frames : (read.filter isSata ++ s.sataHeap.map Prod.snd).Perm
    (d.source :: s'.sataHeap.map Prod.snd)
  last : s'.lastLophiSeqn = d.source.seqnNum
  enabled : s'.sataEnabled = s.sataEnabled
  held : Held s'

/-- **The loop neither loses nor invents a frame.** -/
theorem Held.loop (h : Held s) (hret : loop packetLt s wire = .returned d s' rest) :
    ∃ read, wire = read ++ rest ∧ Moves s read d s' := by
  induction wire generalizing s with
  | nil =>
    cases release_cases packetLt h with
    | inl hnone =>
      rw [loop_blocked hnone.1 rfl] at hret
      cases hret
    | inr hsome =>
      obtain ⟨p, s'', hrel, hmoved, hlast, henabled, held, -⟩ := hsome
      rw [loop_release hrel] at hret
      cases hret
      exact ⟨[], rfl, hmoved, hlast, henabled, held⟩
  | cons p wire ih =>
    cases turn_cases packetLt h p wire with
    | released q s'' run _ moved last enabled held =>
      cases run.symm.trans hret
      exact ⟨[], rfl, moved, last, enabled, held⟩
    | skipped other run _ =>
      obtain ⟨read, rfl, hm⟩ := ih h (run.symm.trans hret)
      refine ⟨p :: read, rfl, ?_, hm.last, hm.enabled, hm.held⟩
      rw [List.filter_cons_of_neg (by simp [other])]
      exact hm.frames
    | pushed s'' frame run _ moved enabled held =>
      obtain ⟨read, rfl, hm⟩ := ih held (run.symm.trans hret)
      refine ⟨p :: read, rfl, ?_, hm.last, hm.enabled.trans enabled, hm.held⟩
      rw [List.filter_cons_of_pos frame, List.cons_append]
      exact (List.perm_middle.symm.trans (moved.symm.append_left _)).trans hm.frames
    | raised s'' run _ _ => cases run.symm.trans hret
    | inOrder s'' frame run _ same last enabled held =>
      cases run.symm.trans hret
      refine ⟨[p], rfl, ?_, last, enabled, held⟩
      rw [List.filter_cons_of_pos frame, List.filter_nil, same]
      exact List.Perm.refl _

/-- A number of completed calls of an enabled sensor. -/
theorem Held.completed {n : Nat} {returned : List Delivered} (h : Held s)
    (henabled : s.sataEnabled = true)
    (hdone : completed packetLt n s wire = some (returned, s', rest)) :
    (∃ read, wire = read ++ rest ∧ (read.filter isSata ++ s.sataHeap.map Prod.snd).Perm
      (returned.map Delivered.source ++ s'.sataHeap.map Prod.snd)) ∧
    s'.lastLophiSeqn = (returned.getLast?.elim s.lastLophiSeqn fun d => d.source.seqnNum) ∧
    s'.sataEnabled = true ∧ Held s' := by
  induction n generalizing s wire returned with
  | zero =>
    cases hdone
    exact ⟨⟨[], rfl, List.Perm.refl _⟩, rfl, henabled, h⟩
  | succ n ih =>
    unfold Conservation.completed getSataPacket at hdone
    rw [if_pos henabled] at hdone
    split at hdone
    · rename_i d t wire' hloop
      obtain ⟨read, rfl, hm⟩ := h.loop hloop
      obtain ⟨⟨more, u, w⟩, hmore, heq⟩ := Option.map_eq_some_iff.mp hdone
      cases heq
      obtain ⟨⟨read', rfl, hperm⟩, hlast, henabled', held⟩ :=
        ih hm.held (hm.enabled.trans henabled) hmore
      refine ⟨⟨read ++ read', (List.append_assoc ..).symm, ?_⟩, ?_, henabled', held⟩
      · calc (read ++ read').filter isSata ++ s.sataHeap.map Prod.snd
            = read.filter isSata ++ read'.filter isSata ++ s.sataHeap.map Prod.snd := by
              rw [List.filter_append]
          _ ~ read'.filter isSata ++ read.filter isSata ++ s.sataHeap.map Prod.snd :=
              List.perm_append_comm.append_right _
          _ ~ read'.filter isSata ++ (d.source :: t.sataHeap.map Prod.snd) := by
              rw [List.append_assoc]
              exact hm.frames.append_left _
          _ ~ d.source :: (read'.filter isSata ++ t.sataHeap.map Prod.snd) := List.perm_middle
          _ ~ d.source :: (more.map Delivered.source ++ s'.sataHeap.map Prod.snd) :=
              hperm.cons _
      · rw [hlast, hm.last, List.getLast?_cons]
        cases more.getLast? <;> rfl
    · cases hdone

/-- With no number known the next frame is handed on, whatever its number is. -/
theorem loop_first (packetLt : LOPHIPacket → LOPHIPacket → Bool) (hheap : s.sataHeap = [])
    (hlast : s.lastLophiSeqn = none)
    (hframe : ∃ q ∈ wire, isSata q = true) :
    ∃ d s' rest, loop packetLt s wire = .returned d s' rest := by
  have hrel : release packetLt s = none := by
    unfold release
    rw [hheap]
  induction wire with
  | nil =>
    obtain ⟨q, hq, -⟩ := hframe
    cases hq
  | cons p wire ih =>
    by_cases hop : p.opCode = sataFrame
    · have hin : outOfOrder s p = false := by
        unfold outOfOrder
        rw [hlast]
      exact ⟨.frame p, { s with lastLophiSeqn := p.seqnNum }, wire, by simp [loop, hrel, hop, hin]⟩
    · obtain ⟨q, hq, hsata⟩ := hframe
      have hne : q ≠ p := by
        intro heq
        rw [heq] at hsata
        exact hop (by simpa [isSata] using hsata)
      obtain ⟨d, s', rest, hloop⟩ := ih ⟨q, (List.mem_cons.mp hq).resolve_left hne, hsata⟩
      exact ⟨d, s', rest, by simp only [loop, hrel, if_neg hop, hloop]⟩

end Run

/-! ## The response to the first command -/

/-- The first packet a sensor reads that is not enabled yet, the response to its
command, is a frame, and another frame follows. -/
def TakesFrame (enabled : Bool) (wire : List LOPHIPacket) : Prop :=
  enabled = false ∧ ∃ p rest, wire = p :: rest ∧ isSata p = true ∧ ∃ q ∈ rest, isSata q = true

section Response
variable {packetLt : LOPHIPacket → LOPHIPacket → Bool} {wire : List LOPHIPacket}

theorem completed_enables {n : Nat} {p : LOPHIPacket} :
    completed packetLt (n + 1) { sataEnabled := false } (p :: wire) =
      completed packetLt (n + 1) { sataEnabled := true } wire := rfl

theorem conserves_enabled : Conserves packetLt true wire := by
  intro n returned s rest hdone
  obtain ⟨⟨read, hread, hperm⟩, hlast, henabled, held⟩ := held_empty.completed rfl hdone
  refine ⟨⟨read, hread, ?_⟩, ?_, ?_⟩
  · simpa using hperm
  · rw [hlast]
    cases returned.getLast? <;> rfl
  · unfold callStates
    rw [if_pos henabled]
    exact held.visited

theorem conserves_response {p : LOPHIPacket}
    (h : isSata p = false ∨ ∀ q ∈ wire, isSata q = false) :
    Conserves packetLt false (p :: wire) := by
  intro n returned s rest hdone
  cases n with
  | zero =>
    cases hdone
    refine ⟨⟨[], rfl, List.Perm.refl _⟩, rfl, ?_⟩
    unfold callStates
    rw [if_neg Bool.false_ne_true, List.forall_mem_cons]
    exact ⟨held_empty.toSoundHeap, held_empty.visited⟩
  | succ n =>
    rw [completed_enables] at hdone
    obtain ⟨⟨read, rfl, hperm⟩, hlast, hsound⟩ := conserves_enabled (n + 1) returned s rest hdone
    cases h with
    | inl hp =>
      refine ⟨⟨p :: read, rfl, ?_⟩, hlast, hsound⟩
      rw [List.filter_cons_of_neg (by simp [hp])]
      exact hperm
    | inr hnone =>
      -- no call returns: nothing on the wire ends the loop
      have hblocked : loop packetLt { sataEnabled := true } (read ++ rest) =
          .blocked { sataEnabled := true } := by
        refine loop_blocked rfl (List.filter_eq_nil_iff.mpr fun q hq => ?_)
        simp [hnone q hq]
      unfold completed getSataPacket at hdone
      rw [if_pos rfl, hblocked] at hdone
      cases hdone

/-- A frame taken for the response is gone after the first call. -/
theorem not_conserves_of_takesFrame {enabled : Bool} (h : TakesFrame enabled wire) :
    ¬ Conserves packetLt enabled wire := by
  obtain ⟨rfl, p, rest, rfl, hp, hq⟩ := h
  intro hcons
  obtain ⟨d, s', rest', hloop⟩ :=
    loop_first packetLt (s := { sataEnabled := true }) rfl rfl hq
  obtain ⟨read, rfl, hm⟩ := held_empty.loop hloop
  have hdone : completed packetLt 1 { sataEnabled := false } (p :: (read ++ rest')) =
      some ([d], s', rest') := by
    rw [completed_enables]
    simp only [completed, getSataPacket, if_true, hloop, Option.map_some]
  obtain ⟨⟨read', hread, hperm⟩, -⟩ := hcons 1 [d] s' rest' hdone
  obtain rfl : p :: read = read' := List.append_cancel_right hread
  rw [List.filter_cons_of_pos hp] at hperm
  have hlen := hperm.length_eq
  have hlen' := hm.frames.length_eq
  simp only [List.length_cons, List.length_append, List.length_map, List.length_nil] at hlen hlen'
  omega

/-- **Frames are conserved, and the heap stays sound, exactly when no frame is
taken for the response to the first command.** -/
theorem conserves_iff (packetLt : LOPHIPacket → LOPHIPacket → Bool) (enabled : Bool)
    (wire : List LOPHIPacket) : Conserves packetLt enabled wire ↔ ¬ TakesFrame enabled wire := by
  constructor
  · intro h htakes
    exact not_conserves_of_takesFrame htakes h
  · intro h
    cases enabled with
    | true => exact conserves_enabled
    | false =>
      cases wire with
      | nil =>
        intro n returned s rest hdone
        cases n with
        | zero =>
          cases hdone
          refine ⟨⟨[], rfl, List.Perm.refl _⟩, rfl, ?_⟩
          exact List.forall_mem_singleton.mpr held_empty.toSoundHeap
        | succ n => cases hdone
      | cons p wire =>
        refine conserves_response ?_
        by_cases hp : isSata p = true
        · refine .inr fun q hq => ?_
          cases hs : isSata q with
          | false => rfl
          | true => exact (h ⟨rfl, p, wire, rfl, hp, q, hq, hs⟩).elim
        · exact .inl (by simpa using hp)

/-- The first two packets a fresh sensor receives are frames 5 and 6: frame 5 is
taken for the response. -/
theorem firstFrame_lost : ¬ Conserves (fun _ _ => false) false
    [⟨sataFrame, [0, 5, 0, 0]⟩, ⟨sataFrame, [0, 6, 0, 0]⟩] := by
  refine not_conserves_of_takesFrame ⟨rfl, _, _, rfl, by decide, ?_⟩
  exact ⟨_, List.mem_singleton_self _, by decide⟩

end Response

end LoPhi.Disk.Conservation
