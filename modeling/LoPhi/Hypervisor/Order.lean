import Mathlib.Data.List.Perm.Basic
import LoPhi.Hypervisor.Hooks

/-! # The order of the packets

Accesses are made one after another, but each is written by a thread of its own. While the
socket is open and the writes succeed, every access is on the stream once, whole, and where
its thread got the mutex. Nothing ties that order to the order of the calls. -/

namespace LoPhi.Hypervisor.Order
open LoPhi.Lib.Machine LoPhi.Hypervisor

/-- The calls of `lophi_disk_access`. -/
def calls (events : List Event) : List Access :=
  events.filterMap fun e => match e with
    | .access a _ _ => some a
    | _ => none

/-- The accesses in the order in which their threads get the mutex. -/
def order (drive : Drive) (s : State) (events : List Event) : List Access :=
  (outputs (step drive) s events).filterMap id

/-- An access to the watched device, or a `write` that takes something, the meta struct
whole. -/
def Succeeds (drive : Drive) (s : State) : Event → Prop
  | .access _ bs _ => bs = drive.device
  | .write result _ => ∃ n, result = some n ∧ 0 < n ∧
    ∀ a, s.holder = some (.announcing a) → (metaStruct drive.filename).length ≤ n
  | _ => True

/-- All accesses are to the watched device, and all writes succeed. -/
def Succeed (drive : Drive) (s : State) (events : List Event) : Prop :=
  ∀ k e, events[k]? = some e → Succeeds drive (stateAt (step drive) s events k) e

/-- The socket is open and there are no threads. -/
structure Opened (s : State) (stream : List UInt8) : Prop where
  sockOpen : s.sockOpen = true
  fd : s.fd = .connected stream
  spawned : s.spawned = []
  waiting : s.waiting = []
  holder : s.holder = none

/-- Every thread is done. -/
structure Finished (s : State) : Prop where
  spawned : s.spawned = []
  waiting : s.waiting = []
  holder : s.holder = none

/-- What precedes the first packet: the meta struct, unless it was sent before. -/
def greeting (filename : List UInt8) (commInit : Bool) : List UInt8 :=
  if commInit then [] else metaStruct filename

/-- The meta struct, if it is due, and the packets. -/
def reported (filename : List UInt8) (commInit : Bool) (accesses : List Access) : List UInt8 :=
  if accesses = [] then [] else greeting filename commInit ++ accesses.flatMap packet

/-! ## The invariant -/

/-- How far the threads have got that had the mutex, from an open socket with `stream` on it:
none of them yet, the first before the meta struct, all of them done, or all but the last. -/
inductive Stage (filename : List UInt8) (commInit : Bool) (stream : List UInt8) :
    Bool → Option Holder → List Access → List UInt8 → Prop
  | quiet : Stage filename commInit stream commInit none [] stream
  | announcing (a : Access) : commInit = false →
    Stage filename commInit stream false (some (.announcing a)) [a] stream
  | idle (ordered : List Access) (a : Access) :
    Stage filename commInit stream true none (ordered ++ [a])
      (stream ++ greeting filename commInit ++ (ordered ++ [a]).flatMap packet)
  | writing (ordered : List Access) (a : Access) {sent left : List UInt8} :
    packet a = sent ++ left → left ≠ [] →
    Stage filename commInit stream true (some (.writing a sent.length)) (ordered ++ [a])
      (stream ++ greeting filename commInit ++ ordered.flatMap packet ++ sent)

/-- The threads that had the mutex are `ordered`, and no call is lost. -/
structure Reports (filename : List UInt8) (commInit : Bool) (stream : List UInt8)
    (ordered called : List Access) (s : State) : Prop where
  sockOpen : s.sockOpen = true
  perm : (s.spawned ++ s.waiting ++ ordered).Perm called
  stage : ∃ out, s.fd = .connected out ∧
    Stage filename commInit stream s.commInit s.holder ordered out

theorem count_eraseIdx {l : List Access} {i : Nat} {a : Access} (h : l[i]? = some a)
    (b : Access) : (l.eraseIdx i).count b + [a].count b = l.count b := by
  obtain ⟨hi, rfl⟩ := List.getElem?_eq_some_iff.mp h
  have hcount := (List.getElem_cons_eraseIdx_perm hi).count_eq b
  rw [← List.singleton_append, List.count_append] at hcount
  omega

section Stage
variable {filename stream out got left : List UInt8} {commInit c : Bool} {ordered : List Access}
  {a : Access} {written : Nat}

/-- The first `write` of a packet is still to come. -/
theorem stage_unwritten (filename : List UInt8) (commInit : Bool) (stream : List UInt8)
    (ordered : List Access) (a : Access) :
    Stage filename commInit stream true (some (.writing a 0)) (ordered ++ [a])
      (stream ++ greeting filename commInit ++ ordered.flatMap packet) := by
  have hstage := @Stage.writing filename commInit stream ordered a [] (packet a)
    (List.nil_append _).symm (packet_ne_nil a)
  rw [List.append_nil] at hstage
  exact hstage

theorem Stage.lock (h : Stage filename commInit stream c none ordered out) (a : Access) :
    Stage filename commInit stream c (some (if c then .writing a 0 else .announcing a))
      (ordered ++ [a]) out := by
  cases h with
  | quiet =>
    cases hcomm : commInit with
    | false => exact .announcing a rfl
    | true =>
      have hstage := stage_unwritten filename true stream [] a
      rw [List.flatMap_nil, List.append_nil, greeting, if_pos rfl, List.append_nil] at hstage
      exact hstage
  | idle ordered b => exact stage_unwritten filename commInit stream (ordered ++ [b]) a

/-- The meta struct is written whole. -/
theorem Stage.announced
    (h : Stage filename commInit stream c (some (.announcing a)) ordered out) :
    Stage filename commInit stream true (some (.writing a 0)) ordered
      (out ++ metaStruct filename) := by
  cases h with
  | announcing _ hcomm =>
    have hstage := stage_unwritten filename commInit stream [] a
    rw [List.flatMap_nil, List.append_nil, greeting, if_neg (by simp [hcomm])] at hstage
    exact hstage

/-- More of a packet is written. -/
theorem Stage.advance
    (h : Stage filename commInit stream c (some (.writing a written)) ordered out)
    (hbytes : (packet a).drop written = got ++ left) :
    Stage filename commInit stream c
      (if left = [] then none else some (.writing a (written + got.length))) ordered
      (out ++ got) := by
  cases h with
  | writing ordered _ hsent _ =>
    have hmore := packet_advance hsent hbytes
    rw [← List.length_append, List.append_assoc (stream ++ _ ++ _)]
    by_cases hleft : left = []
    · rw [if_pos hleft]
      have hstage := @Stage.idle filename commInit stream ordered a
      rw [List.flatMap_append, List.flatMap_singleton, hmore, hleft, List.append_nil,
        ← List.append_assoc] at hstage
      exact hstage
    · rw [if_neg hleft]
      exact .writing ordered a hmore hleft

theorem reported_append (ordered : List Access) (a : Access) :
    reported filename commInit (ordered ++ [a]) =
      greeting filename commInit ++ (ordered ++ [a]).flatMap packet :=
  if_neg (List.append_ne_nil_of_right_ne_nil _ (List.cons_ne_nil _ _))

/-- A packet that is being written is not complete. -/
theorem Stage.unfinished
    (h : Stage filename commInit stream c (some (.writing a written)) ordered out) :
    written < (packet a).length := by
  cases h with
  | writing ordered _ hsent hleft =>
    have hpos := List.length_pos_of_ne_nil hleft
    rw [hsent, List.length_append]
    omega

theorem not_stage_gone : ¬ Stage filename commInit stream c (some .gone) ordered out := by
  intro h
  cases h

/-- Where no thread has the mutex, the packets are complete. -/
theorem Stage.complete (h : Stage filename commInit stream c none ordered out) :
    out = stream ++ reported filename commInit ordered := by
  cases h with
  | quiet => exact (List.append_nil stream).symm
  | idle ordered a => rw [reported_append, List.append_assoc]

end Stage

/-! ## Events -/

section Step
variable {drive : Drive} {commInit : Bool} {stream : List UInt8} {ordered called : List Access}
  {s : State} (h : Reports drive.filename commInit stream ordered called s)
include h

theorem Reports.access (a : Access) (connect : Connect) :
    Reports drive.filename commInit stream ordered (called ++ [a])
      (lophiDiskAccess drive a drive.device connect s) := by
  have hopen : ¬ (s.sockOpen = false ∧ s.counter % reconnectCount = 0) := fun hclosed =>
    absurd (h.sockOpen.symm.trans hclosed.1) (by decide)
  unfold lophiDiskAccess
  rw [if_neg hopen, if_neg (not_not.mpr rfl)]
  refine ⟨h.sockOpen, List.perm_iff_count.mpr fun b => ?_, h.stage⟩
  have hcount := h.perm.count_eq b
  simp only [List.count_append] at hcount ⊢
  omega

theorem Reports.start (i : Nat) :
    Reports drive.filename commInit stream ordered called (step drive s (.start i)).1 ∧
      (step drive s (.start i)).2 = none := by
  obtain ⟨a, hspawned, hstep⟩ | hstep := step_start drive s i
  · rw [hstep]
    refine ⟨⟨h.sockOpen, List.perm_iff_count.mpr fun b => ?_, h.stage⟩, rfl⟩
    have hcount := h.perm.count_eq b
    have herase := count_eraseIdx hspawned b
    simp only [List.count_append] at hcount ⊢
    omega
  · rw [hstep]
    exact ⟨h, rfl⟩

theorem Reports.lock (i : Nat) :
    Reports drive.filename commInit stream (ordered ++ (step drive s (.lock i)).2.toList) called
      (step drive s (.lock i)).1 := by
  obtain ⟨a, hholder, hwaiting, hstep⟩ | hstep := step_lock drive s i
  · rw [hstep]
    obtain ⟨out, hfd, hstage⟩ := h.stage
    rw [hholder] at hstage
    refine ⟨h.sockOpen, List.perm_iff_count.mpr fun b => ?_, out, hfd, hstage.lock a⟩
    have hcount := h.perm.count_eq b
    have herase := count_eraseIdx hwaiting b
    simp only [List.count_append, Option.toList_some] at hcount ⊢
    omega
  · rw [hstep]
    simp only [Option.toList_none, List.append_nil]
    exact h

theorem Reports.write {n : Nat} (hn : 0 < n)
    (hmeta : ∀ a, s.holder = some (.announcing a) → (metaStruct drive.filename).length ≤ n)
    (connect : Connect) :
    Reports drive.filename commInit stream ordered called
      (step drive s (.write (some n) connect)).1 := by
  obtain ⟨out, hfd, hstage⟩ := h.stage
  cases hholder : s.holder with
  | none =>
    rw [step_write_idle drive (Or.inl hholder)]
    exact h
  | some holder =>
    rw [hholder] at hstage
    cases holder with
    | gone => exact absurd hstage not_stage_gone
    | announcing a =>
      have hwhole : returned drive s (.write (some n) connect) =
          some ((metaStruct drive.filename).length : Int) := by
        unfold returned
        simp only [hholder, hfd, Fd.write, List.take_of_length_le (hmeta a hholder)]
      obtain ⟨out', got, left, hfd', hbytes, hreturned, hstep⟩ | ⟨hreturned, -⟩ :=
        step_announcing drive (some n) connect hholder
      · obtain rfl := Fd.connected.inj (hfd.symm.trans hfd')
        have hlength := Option.some.inj (hwhole.symm.trans hreturned)
        have hgot : got = metaStruct drive.filename := by
          rw [hbytes, List.length_append] at hlength
          rw [hbytes, List.eq_nil_of_length_eq_zero (by omega : left.length = 0), List.append_nil]
        rw [hstep, hgot]
        exact ⟨h.sockOpen, h.perm, _, rfl, hstage.announced⟩
      · have hlength := Option.some.inj (hwhole.symm.trans hreturned)
        omega
    | writing a written =>
      obtain ⟨out', got, left, hfd', hbytes, -, -, hstep⟩ | ⟨w, hreturned, hw, -⟩ :=
        step_writing drive (some n) connect hholder
      · obtain rfl := Fd.connected.inj (hfd.symm.trans hfd')
        rw [hstep]
        exact ⟨h.sockOpen, h.perm, _, rfl, hstage.advance hbytes⟩
      · -- something of the packet is left, and a `write` takes some of it
        have hsome : returned drive s (.write (some n) connect) =
            some ((((packet a).drop written).take n).length : Int) := by
          unfold returned
          simp only [hholder, hfd, Fd.write]
        have hlength := Option.some.inj (hsome.symm.trans hreturned)
        have hmore := hstage.unfinished
        rw [List.length_take, List.length_drop] at hlength
        omega

/-- One event. -/
theorem Reports.event {e : Event} (he : Succeeds drive s e) :
    Reports drive.filename commInit stream (ordered ++ (step drive s e).2.toList)
      (called ++ calls [e]) (step drive s e).1 := by
  cases e with
  | access a bs connect =>
    obtain rfl : bs = drive.device := he
    have hreports := h.access a connect
    rw [← List.append_nil ordered] at hreports
    exact hreports
  | start i =>
    obtain ⟨hreports, hnone⟩ := h.start i
    rw [hnone, calls]
    simpa using hreports
  | lock i =>
    have hreports := h.lock i
    rw [← List.append_nil called] at hreports
    exact hreports
  | write result connect =>
    obtain ⟨n, rfl, hn, hmeta⟩ := he
    have hreports := h.write hn hmeta connect
    rw [step_write_none, calls]
    simpa using hreports

end Step

/-! ## Runs -/

theorem calls_cons (e : Event) (events : List Event) :
    calls (e :: events) = calls [e] ++ calls events :=
  @List.filterMap_append _ _ [e] events _

theorem order_cons (drive : Drive) (s : State) (e : Event) (events : List Event) :
    order drive s (e :: events) =
      (step drive s e).2.toList ++ order drive (step drive s e).1 events := by
  unfold order
  rw [outputs_cons]
  cases (step drive s e).2 with
  | _ => rfl

theorem Reports.run {drive : Drive} {commInit : Bool} {stream : List UInt8}
    {ordered called : List Access} {events : List Event} {s : State}
    (h : Reports drive.filename commInit stream ordered called s) (hs : Succeed drive s events) :
    Reports drive.filename commInit stream (ordered ++ order drive s events)
      (called ++ calls events) (run (step drive) s events) := by
  induction events generalizing s ordered called with
  | nil =>
    rw [order, outputs_nil, calls, List.filterMap_nil, List.filterMap_nil, List.append_nil,
      List.append_nil]
    exact h
  | cons e events ih =>
    have hreports := ih (h.event (hs 0 e rfl)) fun k e' he' => hs (k + 1) e' he'
    rw [List.append_assoc, List.append_assoc, ← order_cons, ← calls_cons] at hreports
    exact hreports

/-- **Accesses are reported in the order in which their threads get the mutex**: while the
socket is open and the writes succeed, the stream has at any time the packets of the threads
that have had the mutex on it, in that order, all of them whole but for the last one where its
thread still has the mutex; and when all threads are done these are the packets of all calls,
each of them once. -/
theorem reported_in_lock_order (drive : Drive) (s : State) (stream : List UInt8)
    (events : List Event) (hopen : Opened s stream) (h : Succeed drive s events) :
    (∃ out, (run (step drive) s events).fd = .connected out ∧
      Stage drive.filename s.commInit stream (run (step drive) s events).commInit
        (run (step drive) s events).holder (order drive s events) out) ∧
    (Finished (run (step drive) s events) →
      (run (step drive) s events).fd =
        .connected (stream ++ reported drive.filename s.commInit (order drive s events)) ∧
      (order drive s events).Perm (calls events)) := by
  have hstart : Reports drive.filename s.commInit stream [] [] s := by
    refine ⟨hopen.sockOpen, ?_, stream, hopen.fd, ?_⟩
    · rw [hopen.spawned, hopen.waiting]
      exact List.Perm.refl _
    · rw [hopen.holder]
      exact .quiet
  have hreports : Reports drive.filename s.commInit stream (order drive s events) (calls events)
      (run (step drive) s events) := hstart.run h
  obtain ⟨out, hfd, hstage⟩ := hreports.stage
  refine ⟨⟨out, hfd, hstage⟩, fun hdone => ?_⟩
  have hperm := hreports.perm
  rw [hdone.holder] at hstage
  rw [hdone.spawned, hdone.waiting] at hperm
  exact ⟨hstage.complete ▸ hfd, hperm⟩

/-- Two accesses, one after the other. The thread of the second gets the mutex first. -/
def swapped : List Event :=
  [.access (zeroed 0) 0 .refused, .access (zeroed 1) 0 .refused, .start 0, .start 0, .lock 1,
    .write (some 2000) .refused, .write (some 2000) .refused, .lock 0,
    .write (some 2000) .refused]

theorem opened_initial : Opened (lophiInitialize .accepted .initial) [] := ⟨rfl, rfl, rfl, rfl, rfl⟩

theorem succeed_swapped : Succeed driveD (lophiInitialize .accepted .initial) swapped := by
  intro k e he
  have hlength : (metaStruct driveD.filename).length ≤ 2000 := by decide +kernel
  have hmem := List.mem_of_getElem? he
  simp only [swapped, List.mem_cons, List.not_mem_nil, or_false] at hmem
  obtain rfl | rfl | rfl | rfl | rfl | rfl | rfl | rfl | rfl := hmem
  · rfl
  · rfl
  · trivial
  · trivial
  · trivial
  · exact ⟨2000, rfl, by decide, fun _ _ => hlength⟩
  · exact ⟨2000, rfl, by decide, fun _ _ => hlength⟩
  · trivial
  · exact ⟨2000, rfl, by decide, fun _ _ => hlength⟩

theorem finished_swapped :
    Finished (run (step driveD) (lophiInitialize .accepted .initial) swapped) :=
  ⟨by decide +kernel, by decide +kernel, by decide +kernel⟩

/-- Both packets are there. -/
theorem reported_swapped :
    (order driveD (lophiInitialize .accepted .initial) swapped).Perm [zeroed 0, zeroed 1] :=
  ((reported_in_lock_order driveD (lophiInitialize .accepted .initial) [] swapped opened_initial
    succeed_swapped).2 finished_swapped).2

/-- They are not in the order of the calls. -/
theorem not_in_call_order :
    Opened (lophiInitialize .accepted .initial) [] ∧
    Succeed driveD (lophiInitialize .accepted .initial) swapped ∧
    Finished (run (step driveD) (lophiInitialize .accepted .initial) swapped) ∧
    (run (step driveD) (lophiInitialize .accepted .initial) swapped).fd ≠
      .connected ([] ++ reported driveD.filename false (calls swapped)) :=
  ⟨opened_initial, succeed_swapped, finished_swapped, by decide +kernel⟩

end LoPhi.Hypervisor.Order
