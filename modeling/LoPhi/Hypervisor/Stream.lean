import LoPhi.Hypervisor.Hooks

/-! # What the introspection server reads

On each connection: the meta struct, then packets, and at most the last of all these cut. A
thread does not always notice that its `write` fell short. Then the stream stays right only
if nothing more gets through on that connection. -/

namespace LoPhi.Hypervisor.Stream
open LoPhi.Lib.Machine LoPhi.Lib.Struct LoPhi.Hypervisor

/-- The meta struct and complete packets, the last of it possibly cut. -/
def WellFormed (filename stream : List UInt8) : Prop :=
  ∃ accesses : List Access, stream <+: metaStruct filename ++ accesses.flatMap packet

/-- The event puts bytes on the connection. -/
def Puts (drive : Drive) (s : State) (e : Event) : Prop :=
  ∃ w, returned drive s e = some w ∧ 0 < w

/-- The event is a `write` that leaves the meta struct incomplete, or one that ends a packet
of which a part is written. A `write` of the meta struct that fails is not one. -/
def FallsShort (drive : Drive) (s : State) (e : Event) : Prop :=
  ∃ w, returned drive s e = some w ∧
    ((∃ a, s.holder = some (.announcing a)) ∧ 0 ≤ w ∧ w < (metaStruct drive.filename).length ∨
      (∃ a written, s.holder = some (.writing a written) ∧ 0 < written) ∧ w ≤ 0)

/-- Once a `write` has fallen short nothing more gets through on its connection, and no packet
gets through right after a failed `write` of the meta struct. -/
structure Steady (drive : Drive) (s : State) (events : List Event) : Prop where
  after_short : ∀ i j e e', i < j → events[i]? = some e → events[j]? = some e' →
    FallsShort drive (stateAt (step drive) s events i) e →
    (stateAt (step drive) s events i).abandoned.length =
      (stateAt (step drive) s events j).abandoned.length →
    ¬ Puts drive (stateAt (step drive) s events j) e'
  after_meta : ∀ j e a, events[j]? = some e →
    (stateAt (step drive) s events j).holder = some (.writing a 0) →
    (stateAt (step drive) s events j).commInit = false →
    ¬ Puts drive (stateAt (step drive) s events j) e

/-! ## The invariant -/

/-- The thread that has the mutex has written nothing of its packet. -/
def Unwritten (holder : Option Holder) : Prop :=
  ∀ a written, holder = some (.writing a written) → written = 0

/-- An open connection: nothing was written on it; all of it is complete; a packet is being
written; or a `write` fell short. -/
inductive Current (filename : List UInt8) (short : Prop) :
    Bool → Option Holder → List UInt8 → Prop
  | fresh {holder : Option Holder} : Unwritten holder → Current filename short false holder []
  | idle {holder : Option Holder} (accesses : List Access) :
    holder = none ∨ holder = some .gone →
    Current filename short true holder (metaStruct filename ++ accesses.flatMap packet)
  | writing (accesses : List Access) (a : Access) {sent left : List UInt8} :
    packet a = sent ++ left → left ≠ [] →
    Current filename short true (some (.writing a sent.length))
      (metaStruct filename ++ accesses.flatMap packet ++ sent)
  | cut {holder : Option Holder} {stream : List UInt8} : short → WellFormed filename stream →
    (holder = none ∨ holder = some .gone ∨ ∃ a, holder = some (.writing a 0)) →
    Current filename short true holder stream

/-- Every connection is well formed, and the globals tell how the open one is. -/
structure Good (filename : List UInt8) (short : Prop) (s : State) : Prop where
  past : ∀ stream ∈ s.abandoned, WellFormed filename stream
  current : ∀ stream, s.fd = .connected stream →
    s.sockOpen = true ∧ Current filename short s.commInit s.holder stream
  unconnected : (∀ stream, s.fd ≠ .connected stream) →
    s.sockOpen = false ∧ s.commInit = false ∧ Unwritten s.holder

section Invariant
variable {filename stream : List UInt8} {short short' : Prop} {s : State}

theorem Current.wellFormed {commInit : Bool} {holder : Option Holder}
    (h : Current filename short commInit holder stream) : WellFormed filename stream := by
  cases h with
  | fresh _ => exact ⟨[], List.nil_prefix⟩
  | idle accesses _ => exact ⟨accesses, List.prefix_refl _⟩
  | writing accesses a hsent _ =>
    refine ⟨accesses ++ [a], ?_⟩
    rw [List.flatMap_append, List.flatMap_singleton, ← List.append_assoc,
      List.prefix_append_right_inj, hsent]
    exact List.prefix_append _ _
  | cut _ hstream _ => exact hstream

theorem Current.mono {commInit : Bool} {holder : Option Holder}
    (h : Current filename short commInit holder stream) (hshort : short → short') :
    Current filename short' commInit holder stream := by
  cases h with
  | fresh hholder => exact .fresh hholder
  | idle accesses hholder => exact .idle accesses hholder
  | writing accesses a hsent hleft => exact .writing accesses a hsent hleft
  | cut h hstream hholder => exact .cut (hshort h) hstream hholder

theorem Good.mono (h : Good filename short s) (hshort : short → short') :
    Good filename short' s where
  past := h.past
  current stream hfd := ⟨(h.current stream hfd).1, (h.current stream hfd).2.mono hshort⟩
  unconnected := h.unconnected

theorem Good.streams (h : Good filename short s) :
    ∀ stream ∈ s.streams, WellFormed filename stream := by
  intro stream hstream
  unfold State.streams at hstream
  split at hstream
  · rename_i last hfd
    obtain hpast | hlast := List.mem_append.mp hstream
    · exact h.past stream hpast
    · rw [List.mem_singleton.mp hlast]
      exact (h.current last hfd).2.wellFormed
  · exact h.past stream hstream

/-- After `lophi_initialize`, called while `LOPHI_SOCK_OPEN` is not set. -/
theorem good_lophiInitialize (hstreams : ∀ stream ∈ s.streams, WellFormed filename stream)
    (hopen : s.sockOpen = false) (hinit : s.commInit = false) {holder : Option Holder}
    (hholder : Unwritten holder) (connect : Connect) :
    Good filename short { lophiInitialize connect s with holder := holder } := by
  obtain ⟨habandoned, hcomm, hfd⟩ := lophiInitialize_spec connect s
  rw [hinit] at hcomm
  rw [hopen] at hfd
  refine ⟨fun stream hstream => hstreams stream (habandoned ▸ hstream), fun stream hstream => ?_,
    fun hnone => ?_⟩
  · obtain ⟨hempty, hsock⟩ | ⟨hnone, -⟩ := hfd
    · obtain rfl := Fd.connected.inj (hempty.symm.trans hstream)
      refine ⟨hsock, ?_⟩
      simp only [hcomm]
      exact .fresh hholder
    · exact absurd hstream (hnone stream)
  · obtain ⟨hempty, -⟩ | ⟨-, hsock⟩ := hfd
    · exact absurd hempty (hnone [])
    · exact ⟨hsock, hcomm, hholder⟩

/-- After the error branches. -/
theorem Good.reconnect (h : Good filename short s) {holder : Option Holder}
    (hholder : Unwritten holder) (connect : Connect) :
    Good filename short' { reconnect connect s with holder := holder } :=
  good_lophiInitialize (s := { s with sockOpen := false, commInit := false }) h.streams rfl rfl
    hholder connect

theorem unwritten_none : Unwritten none := fun _ _ h => (by cases h)

theorem unwritten_gone : Unwritten (some .gone) := fun _ _ h => (by cases h)

theorem unwritten_announcing (a : Access) : Unwritten (some (.announcing a)) :=
  fun _ _ h => (by cases h)

theorem unwritten_zero (a : Access) : Unwritten (some (.writing a 0)) := by
  intro b written h
  cases h
  rfl

end Invariant

/-! ## What an event does to the open connection -/

section Connection
variable {filename stream got left : List UInt8} {short short' : Prop} {commInit : Bool}
  {a : Access} {written : Nat}

/-- The first `write` of a packet is still to come. -/
theorem current_unwritten (filename : List UInt8) (short : Prop) (accesses : List Access)
    (a : Access) :
    Current filename short true (some (.writing a 0))
      (metaStruct filename ++ accesses.flatMap packet) := by
  have hcurrent := @Current.writing filename short accesses a [] (packet a)
    (List.nil_append _).symm (packet_ne_nil a)
  rw [List.append_nil] at hcurrent
  exact hcurrent

/-- A thread gets the mutex. -/
theorem Current.lock (h : Current filename short commInit none stream) (a : Access) :
    Current filename short commInit
      (some (if commInit then .writing a 0 else .announcing a)) stream := by
  cases h with
  | fresh _ => exact .fresh (unwritten_announcing a)
  | idle accesses _ => exact current_unwritten filename short accesses a
  | cut hshort hstream _ => exact .cut hshort hstream (Or.inr (Or.inr ⟨a, rfl⟩))

/-- A `write` of the meta struct takes some of it. -/
theorem Current.announce (h : Current filename short commInit (some (.announcing a)) stream)
    (hbytes : metaStruct filename = got ++ left)
    (hshort : got.length < (metaStruct filename).length → short') :
    Current filename short' true (some (.writing a 0)) (stream ++ got) := by
  cases h with
  | fresh _ =>
    by_cases hleft : left = []
    · rw [hleft, List.append_nil] at hbytes
      rw [← hbytes]
      have hcurrent := current_unwritten filename short' [] a
      rw [List.flatMap_nil, List.append_nil] at hcurrent
      exact hcurrent
    · have hpos := List.length_pos_of_ne_nil hleft
      refine .cut (hshort ?_) ⟨[], ?_⟩ (Or.inr (Or.inr ⟨a, rfl⟩))
      · rw [hbytes, List.length_append]
        omega
      · rw [hbytes, List.append_assoc]
        exact List.prefix_append _ _
  | idle _ hholder => simp at hholder
  | cut _ _ hholder => simp at hholder

/-- It fails, and the thread goes on with its packet. -/
theorem Current.announce_fails
    (h : Current filename short commInit (some (.announcing a)) stream) :
    Current filename short' commInit (some (.writing a 0)) stream := by
  cases h with
  | fresh _ => exact .fresh (unwritten_zero a)
  | idle _ hholder => simp at hholder
  | cut _ _ hholder => simp at hholder

/-- A `write` takes some of the packet. -/
theorem Current.advance (h : Current filename short commInit (some (.writing a written)) stream)
    (hcut : ¬ short) (hbare : written = 0 → commInit = true)
    (hbytes : (packet a).drop written = got ++ left) :
    Current filename short' commInit
      (if left = [] then none else some (.writing a (written + got.length))) (stream ++ got) := by
  cases h with
  | fresh hholder => exact absurd (hbare (hholder a written rfl)) (by decide)
  | idle _ hholder => simp at hholder
  | cut hshort _ _ => exact absurd hshort hcut
  | writing accesses _ hsent _ =>
    have hmore := packet_advance hsent hbytes
    rw [← List.length_append, List.append_assoc (metaStruct filename ++ _)]
    by_cases hleft : left = []
    · rw [if_pos hleft]
      have hcurrent : Current filename short' true none
          (metaStruct filename ++ (accesses ++ [a]).flatMap packet) := .idle _ (Or.inl rfl)
      rw [List.flatMap_append, List.flatMap_singleton, hmore, hleft, List.append_nil,
        ← List.append_assoc] at hcurrent
      exact hcurrent
    · rw [if_neg hleft]
      exact .writing accesses a hmore hleft

/-- It takes nothing, and the thread gives up. -/
theorem Current.give_up (h : Current filename short commInit (some (.writing a written)) stream)
    (hshort : short ∨ 0 < written → short') :
    Current filename short' commInit none stream := by
  cases h with
  | fresh _ => exact .fresh unwritten_none
  | idle _ hholder => simp at hholder
  | cut h hstream _ => exact .cut (hshort (Or.inl h)) hstream (Or.inl rfl)
  | writing accesses _ hsent hleft =>
    rename_i sent rest
    by_cases hnil : sent = []
    · rw [hnil, List.append_nil]
      exact .idle accesses (Or.inl rfl)
    · refine .cut (hshort (Or.inr (List.length_pos_of_ne_nil hnil))) ?_ (Or.inl rfl)
      exact (@Current.writing _ True accesses a _ _ hsent hleft).wellFormed

end Connection

/-! ## Events -/

section Step
variable {drive : Drive} {s : State} {short short' : Prop} (h : Good drive.filename short s)
include h

/-- `lophi_disk_access` opens a connection only where none is open. -/
theorem Good.access (a : Access) (bs : Nat) (connect : Connect)
    (hnext : (lophiDiskAccess drive a bs connect s).abandoned.length = s.abandoned.length →
      short → short') :
    Good drive.filename short' (lophiDiskAccess drive a bs connect s) := by
  unfold lophiDiskAccess at hnext ⊢
  split
  · rename_i hclosed
    have hnone : ∀ stream, s.fd ≠ .connected stream := fun stream hfd =>
      absurd ((h.current stream hfd).1.symm.trans hclosed.1) (by decide)
    obtain ⟨-, hinit, hholder⟩ := h.unconnected hnone
    rw [lophiInitialize_holder]
    exact good_lophiInitialize h.streams hclosed.1 hinit hholder connect
  · rename_i hopen
    rw [if_neg hopen] at hnext
    split
    · rename_i hbs
      rw [if_pos hbs] at hnext
      exact h.mono (hnext rfl)
    · rename_i hbs
      rw [if_neg hbs] at hnext
      have hgood := h.mono (hnext rfl)
      exact ⟨hgood.past, hgood.current, hgood.unconnected⟩

theorem Good.lock (hnone : s.holder = none) (a : Access) (waiting : List Access) :
    Good drive.filename short
      { s with
          waiting := waiting
          holder := some (if s.commInit then .writing a 0 else .announcing a) } where
  past := h.past
  current stream hfd := by
    obtain ⟨hopen, hcurrent⟩ := h.current stream hfd
    rw [hnone] at hcurrent
    exact ⟨hopen, hcurrent.lock a⟩
  unconnected hfd := by
    obtain ⟨hopen, hinit, -⟩ := h.unconnected hfd
    refine ⟨hopen, hinit, ?_⟩
    simp only [hinit]
    exact unwritten_announcing a

variable {result : Option Nat} {connect : Connect}

theorem Good.write_announcing {a : Access} (hholder : s.holder = some (.announcing a))
    (hnext : (step drive s (.write result connect)).1.abandoned.length = s.abandoned.length →
      FallsShort drive s (.write result connect) → short') :
    Good drive.filename short' (step drive s (.write result connect)).1 := by
  obtain ⟨stream, got, left, hfd, hbytes, hreturned, hstep⟩ |
      ⟨hreturned, ⟨-, hstep⟩ | ⟨-, hstep⟩⟩ :=
    step_announcing drive result connect hholder
  · obtain ⟨hopen, hcurrent⟩ := h.current stream hfd
    rw [hholder] at hcurrent
    rw [hstep] at hnext ⊢
    refine ⟨h.past, fun stream' hfd' => ⟨hopen, ?_⟩, fun hnone => absurd rfl (hnone _)⟩
    obtain rfl := Fd.connected.inj hfd'
    refine hcurrent.announce hbytes fun hlength => hnext rfl ?_
    exact ⟨got.length, hreturned, Or.inl ⟨⟨a, hholder⟩, by omega, by omega⟩⟩
  · rw [hstep]
    exact h.reconnect unwritten_gone connect
  · rw [hstep]
    refine ⟨h.past, fun stream hfd => ?_, fun hfd => ?_⟩
    · obtain ⟨hopen, hcurrent⟩ := h.current stream hfd
      rw [hholder] at hcurrent
      exact ⟨hopen, hcurrent.announce_fails⟩
    · obtain ⟨hopen, hinit, -⟩ := h.unconnected hfd
      exact ⟨hopen, hinit, unwritten_zero a⟩

theorem Good.write_writing {a : Access} {written : Nat}
    (hholder : s.holder = some (.writing a written))
    (hcut : short → ¬ Puts drive s (.write result connect))
    (hbare : written = 0 → s.commInit = false → ¬ Puts drive s (.write result connect))
    (hnext : (step drive s (.write result connect)).1.abandoned.length = s.abandoned.length →
      short ∨ FallsShort drive s (.write result connect) → short') :
    Good drive.filename short' (step drive s (.write result connect)).1 := by
  obtain ⟨stream, got, left, hfd, hbytes, hgot, hreturned, hstep⟩ |
      ⟨w, hreturned, hw, ⟨-, hstep⟩ | hstep⟩ :=
    step_writing drive result connect hholder
  · have hpos := List.length_pos_of_ne_nil hgot
    have hputs : Puts drive s (.write result connect) := ⟨got.length, hreturned, by omega⟩
    obtain ⟨hopen, hcurrent⟩ := h.current stream hfd
    rw [hholder] at hcurrent
    rw [hstep]
    refine ⟨h.past, fun stream' hfd' => ⟨hopen, ?_⟩, fun hnone => absurd rfl (hnone _)⟩
    obtain rfl := Fd.connected.inj hfd'
    refine hcurrent.advance (fun hshort => hcut hshort hputs) (fun hzero => ?_) hbytes
    by_contra hinit
    exact hbare hzero (Bool.eq_false_of_not_eq_true hinit) hputs
  · rw [hstep]
    exact h.reconnect unwritten_none connect
  · rw [hstep] at hnext ⊢
    refine ⟨h.past, fun stream hfd => ?_, fun hfd => ?_⟩
    · obtain ⟨hopen, hcurrent⟩ := h.current stream hfd
      rw [hholder] at hcurrent
      refine ⟨hopen, hcurrent.give_up fun hshort => hnext rfl (hshort.imp_right fun hpos => ?_)⟩
      exact ⟨w, hreturned, Or.inr ⟨⟨a, written, hholder, hpos⟩, hw⟩⟩
    · obtain ⟨hopen, hinit, -⟩ := h.unconnected hfd
      exact ⟨hopen, hinit, unwritten_none⟩

/-- An event that changes nothing. -/
theorem Good.unchanged {e : Event} (hstep : step drive s e = (s, none))
    (hnext : (step drive s e).1.abandoned.length = s.abandoned.length →
      short ∨ FallsShort drive s e → short') :
    Good drive.filename short' (step drive s e).1 := by
  rw [hstep] at hnext ⊢
  exact h.mono fun hshort => hnext rfl (Or.inl hshort)

/-- One event. -/
theorem Good.event {e : Event} (hcut : short → ¬ Puts drive s e)
    (hbare : ∀ a, s.holder = some (.writing a 0) → s.commInit = false → ¬ Puts drive s e)
    (hnext : (step drive s e).1.abandoned.length = s.abandoned.length →
      short ∨ FallsShort drive s e → short') :
    Good drive.filename short' (step drive s e).1 := by
  cases e with
  | access a bs connect =>
    exact h.access a bs connect fun hsame hshort => hnext hsame (Or.inl hshort)
  | start i =>
    obtain ⟨a, -, hstep⟩ | hstep := step_start drive s i
    · rw [hstep] at hnext ⊢
      have hgood := h.mono fun hshort => hnext rfl (Or.inl hshort)
      exact ⟨hgood.past, hgood.current, hgood.unconnected⟩
    · exact h.unchanged hstep hnext
  | lock i =>
    obtain ⟨a, hholder, -, hstep⟩ | hstep := step_lock drive s i
    · rw [hstep] at hnext ⊢
      exact (h.lock hholder a _).mono fun hshort => hnext rfl (Or.inl hshort)
    · exact h.unchanged hstep hnext
  | write result connect =>
    cases hholder : s.holder with
    | none => exact h.unchanged (step_write_idle drive (Or.inl hholder) result connect) hnext
    | some holder =>
      cases holder with
      | announcing a =>
        exact h.write_announcing hholder fun hsame hshort => hnext hsame (Or.inr hshort)
      | writing a written =>
        refine h.write_writing hholder hcut (fun hzero => ?_) hnext
        exact hbare a (hzero ▸ hholder)
      | gone => exact h.unchanged (step_write_idle drive (Or.inr hholder) result connect) hnext

end Step

/-! ## Runs -/

section Run
variable {drive : Drive} {s : State} {events : List Event}

/-- A `write` before event `k` fell short, on the connection that is open. -/
def ShortBefore (drive : Drive) (s : State) (events : List Event) (k : Nat) : Prop :=
  ∃ i e, i < k ∧ events[i]? = some e ∧ FallsShort drive (stateAt (step drive) s events i) e ∧
    (stateAt (step drive) s events i).abandoned.length =
      (stateAt (step drive) s events k).abandoned.length

theorem good_stateAt (h : Good drive.filename False s) (hsteady : Steady drive s events)
    {k : Nat} (hk : k ≤ events.length) :
    Good drive.filename (ShortBefore drive s events k) (stateAt (step drive) s events k) := by
  induction k with
  | zero => exact h.mono False.elim
  | succ k ih =>
    have hevent : events[k]? = some events[k] := List.getElem?_eq_getElem (by omega)
    have hafter : stateAt (step drive) s events (k + 1) = _ := stateAt_succ hevent
    rw [hafter]
    refine (ih (by omega)).event (fun hshort => ?_) (fun a => hsteady.after_meta k _ a hevent)
      fun hsame hshort => ?_
    · obtain ⟨i, e, hi, he, hfalls, hconnection⟩ := hshort
      exact hsteady.after_short i k e _ hi he hevent hfalls hconnection
    · obtain ⟨i, e, hi, he, hfalls, hconnection⟩ | hfalls := hshort
      · refine ⟨i, e, by omega, he, hfalls, ?_⟩
        rw [hafter, hsame, hconnection]
      · refine ⟨k, _, by omega, hevent, hfalls, ?_⟩
        rw [hafter, hsame]

end Run

/-- **The stream is well formed where failures last**: if nothing gets through on a connection
after a `write` that fell short, and no packet right after a meta struct that failed, then at
any time every connection has on it the meta struct and complete packets, the last of it
possibly cut. -/
theorem wellFormed_steady (drive : Drive) (connect : Connect) (events : List Event)
    (h : Steady drive (lophiInitialize connect .initial) events) (k : Nat)
    (hk : k ≤ events.length) :
    ∀ stream ∈ (stateAt (step drive) (lophiInitialize connect .initial) events k).streams,
      WellFormed drive.filename stream := by
  have hgood : Good drive.filename False (lophiInitialize connect .initial) := by
    rw [lophiInitialize_holder]
    exact good_lophiInitialize (fun _ h => (by cases h)) rfl rfl unwritten_none connect
  exact (good_stateAt hgood h hk).streams

/-- The packet of the first access is cut. -/
def cutRun : List Event :=
  [.access (zeroed 0) 0 .refused, .start 0, .lock 0, .write (some 2000) .refused,
    .write (some 5) .refused, .write none .refused]

/-- The state before an event of `cutRun`. -/
def cutState (k : Nat) : State :=
  stateAt (step driveD) (lophiInitialize .accepted .initial) cutRun k

/-- Only the last `write` falls short. -/
theorem steady_cutRun : Steady driveD (lophiInitialize .accepted .initial) cutRun where
  after_short i j e e' hij he he' hfalls := by
    have hj : j < 6 := (List.getElem?_eq_some_iff.mp he').1
    obtain ⟨w, hreturned, hshort⟩ := hfalls
    obtain _ | _ | _ | _ | _ | i := i
    · cases he
      cases hreturned
    · cases he
      cases hreturned
    · cases he
      cases hreturned
    · cases he
      have hmeta : returned driveD (cutState 3) (.write (some 2000) .refused) = some 1028 := by
        decide +kernel
      have hholder : (cutState 3).holder = some (.announcing (zeroed 0)) := by decide +kernel
      have hlength : (metaStruct driveD.filename).length = 1028 := by decide +kernel
      obtain rfl := Option.some.inj (hmeta.symm.trans hreturned)
      obtain ⟨-, -, hless⟩ | ⟨⟨a, written, hwriting, -⟩, -⟩ := hshort
      · rw [hlength] at hless
        exact absurd hless (by decide)
      · cases hholder.symm.trans hwriting
    · have hholder : (cutState 4).holder = some (.writing (zeroed 0) 0) := by decide +kernel
      obtain ⟨⟨a, hannouncing⟩, -⟩ | ⟨⟨a, written, hwriting, hpos⟩, -⟩ := hshort
      · cases hholder.symm.trans hannouncing
      · cases hholder.symm.trans hwriting
        exact absurd hpos (by decide)
    · omega
  after_meta j e a he hholder hinit := by
    have hj : j < 6 := (List.getElem?_eq_some_iff.mp he).1
    have hsent : ∀ j < 6, (cutState j).commInit = true ∨ (cutState j).holder = none ∨
        (cutState j).holder = some (.announcing (zeroed 0)) := by decide +kernel
    obtain hcomm | hnone | hannouncing := hsent j hj
    · cases hcomm.symm.trans hinit
    · cases hnone.symm.trans hholder
    · cases hannouncing.symm.trans hholder

/-- The connection with a cut packet at its end. -/
theorem wellFormed_cut : WellFormed [100] (metaStruct [100] ++ (packet (zeroed 0)).take 5) :=
  wellFormed_steady driveD .accepted cutRun steady_cutRun 6 (by decide) _ (by decide +kernel)

/-- The second byte of an operation. -/
theorem packet_op (a : Access) (rest : List UInt8) : (packet a ++ rest)[13]? = some 0 := by
  have hop : (leBytes 4 a.op.code)[1]? = some 0 := by
    cases a.op with
    | _ => decide
  unfold packet header
  rw [List.append_assoc, List.getElem?_append_left (by simp), List.getElem?_append_left (by simp),
    List.getElem?_append_right (by simp)]
  simpa using hop

/-- The meta struct fails and the packet after it does not: it is first on the connection. Or
a packet is cut and the next one follows it. -/
theorem not_wellFormed :
    (¬ ∀ stream ∈ (stateAt (step driveD) (lophiInitialize .accepted .initial)
      [.access (zeroed 0) 0 .refused, .start 0, .lock 0, .write none .refused,
        .write (some 1000) .refused] 5).streams, WellFormed [100] stream) ∧
    ¬ ∀ stream ∈ (stateAt (step driveD) (lophiInitialize .accepted .initial)
      (cutRun ++ [.access (zeroed 0) 0 .refused, .start 0, .lock 0,
        .write (some 1000) .refused]) 10).streams, WellFormed [100] stream := by
  constructor
  · intro h
    obtain ⟨accesses, rest, hbytes⟩ := h (packet (zeroed 0)) (by decide +kernel)
    have hfirst : some (0 : UInt8) = some 100 := congrArg List.head? hbytes
    exact absurd hfirst (by decide)
  · intro h
    obtain ⟨accesses, hbytes⟩ := h (metaStruct [100] ++
      ((packet (zeroed 0)).take 5 ++ packet (zeroed 0))) (by decide +kernel)
    obtain ⟨rest, hbytes⟩ := (List.prefix_append_right_inj _).mp hbytes
    cases accesses with
    | nil => cases hbytes
    | cons a accesses =>
      -- where the operation is, there is the number of sectors
      have hsectors : ((packet (zeroed 0)).take 5 ++ packet (zeroed 0) ++ rest)[13]? = some 1 := by
        rw [List.getElem?_append_left (by decide +kernel)]
        decide +kernel
      rw [hbytes] at hsectors
      exact absurd (hsectors.symm.trans (packet_op a (accesses.flatMap packet))) (by decide)

end LoPhi.Hypervisor.Stream
