import LoPhi.Disk.Conservation

/-! # What a call hands on

`_get_sata_packet` has two kinds of returns. A frame read in order goes out as the
`SATAFrame` parsed from the packet's data. What comes from the heap goes out as it was
pushed: the whole LO-PHI packet, whose first bytes are another header. So the object a packet
becomes depends on when it arrived. -/

namespace LoPhi.Disk.Representation
open scoped List
open LoPhi.Lib.Python LoPhi.Lib.Heapq LoPhi.Sata.Frame LoPhi.Disk.Physical LoPhi.Disk.Conservation

/-- The objects `_get_sata_packet` returns. A `SATAFrame` of too little data has no field
set. -/
inductive Object where
  | sataFrame (f : Option SATAFrame)
  | lophiPacket (p : LOPHIPacket)
  deriving DecidableEq, Repr

def object : Delivered → Object
  | .frame p => .sataFrame (SATAFrame.parse p.data)
  | .packet p => .lophiPacket p

/-- The object is the frame parsed from its packet's data. -/
def IsParsed (d : Delivered) : Prop := object d = .sataFrame (SATAFrame.parse d.source.data)

instance : DecidablePred IsParsed := fun _ => inferInstanceAs (Decidable (_ = _))

/-- What `n` calls hand on. A call that raises hands on nothing, and the next one goes on from
there; a call that blocks is the last. -/
def handedOn (packetLt : LOPHIPacket → LOPHIPacket → Bool) :
    Nat → DiskSensorPhysical → List LOPHIPacket → List Delivered
  | 0, _, _ => []
  | n + 1, s, wire =>
    match getSataPacket packetLt s wire with
    | .returned d s wire => d :: handedOn packetLt n s wire
    | .raised _ s wire => handedOn packetLt n s wire
    | .blocked _ => []

/-! ## Early frames -/

/-- The frames of a stream as long as none that came early has gone out: the number of the last
one in order, and the numbers of the others. -/
structure Early where
  last : Option Nat := none
  early : List (Option Nat) := []
  deriving DecidableEq, Repr

/-- The next packet of the stream: a frame with the next number is taken, any other set aside. -/
def Early.read (w : Early) (p : LOPHIPacket) : Early :=
  if isSata p then
    if outOfOrder { lastLophiSeqn := w.last } p then { w with early := p.seqnNum :: w.early }
    else { w with last := p.seqnNum }
  else w

/-- A frame set aside has to go out: the smallest number there is the next one, or there are
more than `MAX_HEAP_SIZE`. -/
def Early.Due (w : Early) : Prop :=
  ∃ last, w.last = some last ∧ (maxHeapSize < w.early.length ∨
    some ((last + 1) % 65536) ∈ w.early ∧
      ∀ n ∈ w.early, n ≠ none ∧ ∀ m, n = some m → (last + 1) % 65536 ≤ m)

/-- At some point of the stream a frame that came early is due. -/
def ComesUp (w : Early) (wire : List LOPHIPacket) : Prop :=
  ∃ heard rest, wire = heard ++ rest ∧ (heard.foldl Early.read w).Due

/-- The packets a sensor reads its frames from: the first one after its command is taken for
the response. -/
def stream (enabled : Bool) (wire : List LOPHIPacket) : List LOPHIPacket :=
  if enabled then wire else wire.tail

theorem comesUp_nil {w : Early} : ComesUp w [] ↔ w.Due := by
  constructor
  · rintro ⟨heard, rest, heq, hdue⟩
    obtain ⟨rfl, rfl⟩ := List.append_eq_nil_iff.mp heq.symm
    exact hdue
  · exact fun h => ⟨[], [], rfl, h⟩

theorem comesUp_cons {w : Early} {p : LOPHIPacket} {wire : List LOPHIPacket} :
    ComesUp w (p :: wire) ↔ w.Due ∨ ComesUp (w.read p) wire := by
  constructor
  · rintro ⟨heard, rest, heq, hdue⟩
    cases heard with
    | nil => exact .inl hdue
    | cons q heard =>
      obtain ⟨rfl, rfl⟩ := List.cons.inj heq
      exact .inr ⟨heard, rest, rfl, hdue⟩
  · rintro (hdue | ⟨heard, rest, rfl, hdue⟩)
    · exact ⟨[], p :: wire, rfl, hdue⟩
    · exact ⟨p :: heard, rest, rfl, hdue⟩

/-! ## One turn -/

/-- The sensor has handed on no frame that came early. -/
structure Agrees (s : DiskSensorPhysical) (w : Early) : Prop where
  last : s.lastLophiSeqn = w.last
  early : (s.sataHeap.map Prod.fst).Perm w.early
  order : IsHeap entryKey s.sataHeap
  known : s.sataHeap ≠ [] → s.lastLophiSeqn ≠ none
  enabled : s.sataEnabled = true

section Turn
variable {packetLt : LOPHIPacket → LOPHIPacket → Bool} {s s' : DiskSensorPhysical} {w : Early}
  {wire rest : List LOPHIPacket} {p : LOPHIPacket} {d : Delivered}

theorem Agrees.length (h : Agrees s w) : s.sataHeap.length = w.early.length := by
  rw [← h.early.length_eq, List.length_map]

theorem entryKey_le_iff {root e : Entry} {n : Nat} (hroot : root.1 = some n) :
    entryKey root ≤ entryKey e ↔ e.1 ≠ none ∧ ∀ m, e.1 = some m → n ≤ m := by
  obtain ⟨e1, q⟩ := e
  cases e1 with
  | none => simp [entryKey, hroot]
  | some m => simp [entryKey, hroot]

/-- The root has the smallest number of the heap. -/
theorem Agrees.due_iff (h : Agrees s w) {root : Entry} {tail : List Entry} {last : Nat}
    (hheap : s.sataHeap = root :: tail) (hlast : s.lastLophiSeqn = some last) :
    w.Due ↔ root.1 = some ((last + 1) % 65536) ∨ maxHeapSize < s.sataHeap.length := by
  have hmem : ∀ n, n ∈ w.early ↔ ∃ e ∈ s.sataHeap, e.1 = n := by
    intro n
    rw [← h.early.mem_iff, List.mem_map]
  have hmin : ∀ e ∈ s.sataHeap, entryKey root ≤ entryKey e := by
    intro e he
    obtain ⟨i, hi, rfl⟩ := List.getElem_of_mem he
    exact h.order.root_le i root _ (by rw [hheap]; rfl) (List.getElem?_eq_getElem hi)
  have hroot : root ∈ s.sataHeap := by rw [hheap]; exact List.mem_cons_self
  constructor
  · rintro ⟨last', hlast', hdue⟩
    have heq : last' = last := by
      rw [h.last, hlast'] at hlast
      exact Option.some.inj hlast
    subst heq
    rcases hdue with hfull | ⟨hnext, hsmall⟩
    · exact .inr (by rwa [h.length])
    · left
      obtain ⟨e, he, hen⟩ := (hmem _).mp hnext
      obtain ⟨hsome, hle⟩ := hsmall root.1 ((hmem _).mpr ⟨root, hroot, rfl⟩)
      obtain ⟨m, hm⟩ := Option.ne_none_iff_exists'.mp hsome
      have hkey := ((entryKey_le_iff hm).mp (hmin e he)).2 _ hen
      have hnext := hle m hm
      rw [hm, Nat.le_antisymm hkey hnext]
  · intro hdue
    refine ⟨last, h.last.symm.trans hlast, ?_⟩
    rcases hdue with hnext | hfull
    · refine .inr ⟨(hmem _).mpr ⟨root, hroot, hnext⟩, ?_⟩
      intro n hn
      obtain ⟨e, he, rfl⟩ := (hmem n).mp hn
      exact (entryKey_le_iff hnext).mp (hmin e he)
    · exact .inl (by rwa [← h.length])

/-- What goes out from the heap is a packet, and goes out when it is due. -/
theorem Agrees.release (packetLt : LOPHIPacket → LOPHIPacket → Bool) (h : Agrees s w) :
    (¬ w.Due ∧ release packetLt s = none) ∨
      w.Due ∧ ∃ p s', release packetLt s = some (.ok (.packet p, s')) := by
  cases hheap : s.sataHeap with
  | nil =>
    refine .inl ⟨?_, by unfold Physical.release; rw [hheap]⟩
    have hempty : w.early = [] := by
      have := h.early
      rw [hheap] at this
      exact this.nil_eq.symm
    rintro ⟨last, _, hfull | ⟨hnext, _⟩⟩
    · simp [hempty] at hfull
    · simp [hempty] at hnext
  | cons root tail =>
    obtain ⟨last, hlast⟩ : ∃ last, s.lastLophiSeqn = some last :=
      Option.ne_none_iff_exists'.mp (h.known (by rw [hheap]; exact List.cons_ne_nil _ _))
    have hiff := h.due_iff hheap hlast
    by_cases hdue : w.Due
    · obtain ⟨s', hrel, _⟩ := release_root packetLt hheap h.order hlast (hiff.mp hdue)
      exact .inr ⟨hdue, root.2, s', hrel⟩
    · obtain ⟨hnext, hfull⟩ := not_or.mp (hiff.not.mp hdue)
      refine .inl ⟨hdue, release_eq_none hlast (Nat.le_of_not_lt hfull) ?_⟩
      intro e he
      rw [hheap] at he
      cases he
      exact hnext

theorem outOfOrder_congr {t : DiskSensorPhysical} (h : s.lastLophiSeqn = t.lastLophiSeqn) :
    outOfOrder s p = outOfOrder t p := by
  unfold outOfOrder
  rw [h]

theorem Agrees.push (h : Agrees s w) (hout : outOfOrder s p = true) :
    Agrees (push packetLt s p) { w with early := p.seqnNum :: w.early } := by
  refine ⟨h.last, ?_, heappush_isHeap (entryLt_respects packetLt) h.order _, ?_, h.enabled⟩
  · exact ((heappush_perm _ _ _).map Prod.fst).trans (h.early.cons _)
  · intro _ hnone
    unfold outOfOrder at hout
    rw [show s.lastLophiSeqn = none from hnone] at hout
    cases hout

theorem Agrees.inOrder (h : Agrees s w) (hin : outOfOrder s p = false) :
    Agrees { s with lastLophiSeqn := p.seqnNum } { w with last := p.seqnNum } := by
  refine ⟨rfl, h.early, h.order, ?_, h.enabled⟩
  intro hne hnone
  obtain ⟨last, hlast⟩ := Option.ne_none_iff_exists'.mp (h.known hne)
  unfold outOfOrder at hin
  rw [hlast] at hin
  simp [show p.seqnNum = none from hnone] at hin

/-- What a turn of the loop does with the next packet while nothing is due. -/
theorem Agrees.turn (packetLt : LOPHIPacket → LOPHIPacket → Bool) (h : Agrees s w)
    (hdue : ¬ w.Due) (p : LOPHIPacket) (wire : List LOPHIPacket) :
    ∃ s', Agrees s' (w.read p) ∧
      (loop packetLt s (p :: wire) = loop packetLt s' wire ∨
        loop packetLt s (p :: wire) = .raised .typeError s' wire ∨
        loop packetLt s (p :: wire) = .returned (.frame p) s' wire) := by
  have hrel : Physical.release packetLt s = none := by
    rcases h.release packetLt with h | h
    · exact h.2
    · exact absurd h.1 hdue
  by_cases hop : p.opCode = sataFrame
  · have hsata : isSata p = true := by simp [isSata, hop]
    have hsame : outOfOrder { lastLophiSeqn := w.last } p = outOfOrder s p :=
      outOfOrder_congr h.last.symm
    unfold Early.read
    rw [if_pos hsata, hsame]
    cases hout : outOfOrder s p with
    | true =>
      refine ⟨Conservation.push packetLt s p, h.push hout, ?_⟩
      cases hp : p.seqnNum with
      | some seqn => exact .inl (by simp [loop, hrel, hop, hout, hp, Conservation.push])
      | none => exact .inr (.inl (by simp [loop, hrel, hop, hout, hp, Conservation.push]))
    | false =>
      refine ⟨{ s with lastLophiSeqn := p.seqnNum }, h.inOrder hout, .inr (.inr ?_)⟩
      simp [loop, hrel, hop, hout]
  · have hsata : ¬ isSata p = true := by simp [isSata, hop]
    unfold Early.read
    rw [if_neg hsata]
    exact ⟨s, h, .inl (by simp [loop, hrel, hop])⟩

/-! ## Calls -/

theorem handedOn_succ (henabled : s.sataEnabled = true) (n : Nat) :
    handedOn packetLt (n + 1) s wire =
      match loop packetLt s wire with
      | .returned d s wire => d :: handedOn packetLt n s wire
      | .raised _ s wire => handedOn packetLt n s wire
      | .blocked _ => [] := by
  simp only [handedOn, getSataPacket, if_pos henabled]

/-- While nothing is due a call hands on a parsed frame or nothing. -/
theorem Agrees.loop_parsed (packetLt : LOPHIPacket → LOPHIPacket → Bool) (h : Agrees s w)
    (hno : ¬ ComesUp w wire) :
    (∃ t, loop packetLt s wire = .blocked t) ∨
      ∃ s' w' rest, Agrees s' w' ∧ ¬ ComesUp w' rest ∧
        (loop packetLt s wire = .raised .typeError s' rest ∨
          ∃ p, loop packetLt s wire = .returned (.frame p) s' rest) := by
  induction wire generalizing s w with
  | nil =>
    rcases h.release packetLt with ⟨_, hrel⟩ | ⟨hdue, _⟩
    · exact .inl ⟨s, loop_blocked hrel rfl⟩
    · exact absurd (comesUp_nil.mpr hdue) hno
  | cons p wire ih =>
    rw [comesUp_cons, not_or] at hno
    obtain ⟨s', h', hturn⟩ := h.turn packetLt hno.1 p wire
    rcases hturn with hnext | hraised | hreturned
    · rw [hnext]
      exact ih h' hno.2
    · exact .inr ⟨s', _, wire, h', hno.2, .inl hraised⟩
    · exact .inr ⟨s', _, wire, h', hno.2, .inr ⟨p, hreturned⟩⟩

theorem Agrees.handedOn_parsed (packetLt : LOPHIPacket → LOPHIPacket → Bool) (h : Agrees s w)
    (hno : ¬ ComesUp w wire) (n : Nat) :
    ∀ d ∈ handedOn packetLt n s wire, IsParsed d := by
  induction n generalizing s w wire with
  | zero => exact fun d hd => absurd hd List.not_mem_nil
  | succ n ih =>
    rw [handedOn_succ h.enabled]
    rcases h.loop_parsed packetLt hno with ⟨t, hblocked⟩ | ⟨s', w', rest, h', hno', hcall⟩
    · rw [hblocked]
      exact fun d hd => absurd hd List.not_mem_nil
    · rcases hcall with hraised | ⟨p, hreturned⟩
      · rw [hraised]
        exact ih h' hno'
      · rw [hreturned]
        exact List.forall_mem_cons.mpr ⟨rfl, ih h' hno'⟩

/-- Once a frame that came early is due, some call hands it on as a packet. -/
theorem Agrees.handedOn_packet (packetLt : LOPHIPacket → LOPHIPacket → Bool) (h : Agrees s w)
    (hup : ComesUp w wire) :
    ∃ n, ∃ d ∈ handedOn packetLt (n + 1) s wire, ¬ IsParsed d := by
  induction wire generalizing s w with
  | nil =>
    rcases h.release packetLt with ⟨hdue, _⟩ | ⟨_, p, s', hrel⟩
    · exact absurd (comesUp_nil.mp hup) hdue
    · refine ⟨0, .packet p, ?_, nofun⟩
      rw [handedOn_succ h.enabled, loop_release hrel]
      exact List.mem_cons_self
  | cons p wire ih =>
    rcases h.release packetLt with ⟨hdue, _⟩ | ⟨_, q, s', hrel⟩
    · obtain ⟨s', h', hturn⟩ := h.turn packetLt hdue p wire
      obtain ⟨n, d, hd, hbad⟩ := ih h' ((comesUp_cons.mp hup).resolve_left hdue)
      rcases hturn with hnext | hraised | hreturned
      · refine ⟨n, d, ?_, hbad⟩
        rw [handedOn_succ h.enabled, hnext, ← handedOn_succ h'.enabled]
        exact hd
      · refine ⟨n + 1, d, ?_, hbad⟩
        rw [handedOn_succ h.enabled, hraised]
        exact hd
      · refine ⟨n + 1, d, ?_, hbad⟩
        rw [handedOn_succ h.enabled, hreturned]
        exact List.mem_cons_of_mem _ hd
    · refine ⟨0, .packet q, ?_, nofun⟩
      rw [handedOn_succ h.enabled, loop_release hrel]
      exact List.mem_cons_self

end Turn

/-- A sensor that is not enabled yet drops one packet and goes on as an enabled one. -/
theorem handedOn_stream (packetLt : LOPHIPacket → LOPHIPacket → Bool) (enabled : Bool)
    (wire : List LOPHIPacket) (n : Nat) :
    handedOn packetLt n { sataEnabled := enabled } wire = [] ∧ stream enabled wire = [] ∨
      handedOn packetLt n { sataEnabled := enabled } wire =
        handedOn packetLt n { sataEnabled := true } (stream enabled wire) := by
  cases enabled with
  | true => exact .inr rfl
  | false =>
    cases wire with
    | nil => cases n <;> exact .inl ⟨rfl, rfl⟩
    | cons p wire => cases n <;> exact .inr rfl

/-- **Every object handed on is the frame parsed from its packet's data, over all calls on a
stream, exactly when no frame of the stream that came early is ever due.** -/
theorem handedOn_parsed_iff (packetLt : LOPHIPacket → LOPHIPacket → Bool) (enabled : Bool)
    (wire : List LOPHIPacket) :
    (∀ n, ∀ d ∈ handedOn packetLt n { sataEnabled := enabled } wire,
        object d = .sataFrame (SATAFrame.parse d.source.data)) ↔
      ¬ ComesUp {} (stream enabled wire) := by
  have hstart : Agrees { sataEnabled := true } {} :=
    ⟨rfl, List.Perm.refl _, held_empty.order, fun h => (h rfl).elim, rfl⟩
  constructor
  · intro hall hup
    obtain ⟨n, d, hd, hbad⟩ := hstart.handedOn_packet packetLt hup
    rcases handedOn_stream packetLt enabled wire (n + 1) with ⟨_, hempty⟩ | heq
    · rw [hempty, comesUp_nil] at hup
      obtain ⟨last, hnone, _⟩ := hup
      cases hnone
    · rw [← heq] at hd
      exact hbad (hall _ d hd)
  · intro hno n d hd
    rcases handedOn_stream packetLt enabled wire n with ⟨hempty, _⟩ | heq
    · rw [hempty] at hd
      cases hd
    · rw [heq] at hd
      exact hstart.handedOn_parsed packetLt hno n d hd

/-- A SATA frame of four bytes after the LO-PHI word. -/
def numbered (n : UInt8) : LOPHIPacket where
  opCode := sataFrame
  data := [0, n, 0, 1, 1, 2, 3, 4]

/-- Frames 1, 3 and 2: the frame that came early comes out as a LO-PHI packet. -/
theorem early_frame_unparsed :
    (handedOn (fun _ _ => false) 3 { sataEnabled := true }
        [numbered 1, numbered 3, numbered 2]).map object =
      [.sataFrame (SATAFrame.parse (numbered 1).data),
        .sataFrame (SATAFrame.parse (numbered 2).data), .lophiPacket (numbered 3)] ∧
    ¬ ∀ d ∈ handedOn (fun _ _ => false) 3 { sataEnabled := true }
        [numbered 1, numbered 3, numbered 2],
      object d = .sataFrame (SATAFrame.parse d.source.data) := by
  decide

end LoPhi.Disk.Representation
