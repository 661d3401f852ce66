import Mathlib.Algebra.Order.Ring.Nat
import LoPhi.Control.Virtual

/-! # Operations and the libvirt mutex

An operation gives the mutex back in `_disconnect`, which is not in a `finally`
clause. So it keeps the mutex when any libvirt call outside a `try` raises:
opening and closing the connection, and the calls on the machine in most
operations. `power_off` has a `try` around everything, and keeps the mutex
without even raising. `machine_snapshot` keeps it on every KVM machine that
exists, since it reads attributes that its class does not have. The next
operation then waits for ever. -/

namespace LoPhi.Control.Release
open LoPhi.Lib.Effect LoPhi.Lib.Machine LoPhi.Control.Virtual

variable {s : ControlSensorVirtual} {v : Libvirt} {n : Nat} {α : Type}

/-! ## The calls outside a try -/

/-- The connection is opened and closed, and the calls in between return. -/
def SessionReturns (v : Libvirt) (n : Nat) (calls : List Call) : Prop :=
  v.raises (.openConnection n) = false ∧ (∀ c ∈ calls, v.raises c = false) ∧
    v.raises (.close n) = false

/-- The call that is made on a machine that is found. -/
def ifFound (v : Libvirt) (n : Nat) (c : Call) : List Call := if found v n then [c] else []

/-- The description of the machine can be read: it parses, and passes the test. -/
def Reads (v : Libvirt) (test : DomainXml → Bool) : Prop := found v 0 → v.xml.any test

/-- Every libvirt call that the operation makes outside a `try` returns, what it reads of the
description of the machine is there, and no snapshot is taken of a KVM machine that exists. -/
def CallsReturn (s : ControlSensorVirtual) (v : Libvirt) : Operation → Prop
  | .keypressSend lines => SessionReturns v 0
      (if found v 0 then (List.range (lines.map KeyLine.count).sum).map Call.sendKey else [])
  | .powerOn => SessionReturns v 0 []
  | .powerOff => SessionReturns v 0 (ifFound v 0 .destroy)
  | .powerShutdown => SessionReturns v 0 (ifFound v 0 .shutdown)
  | .powerReset => SessionReturns v 0 (ifFound v 0 .reset)
  | .powerReboot => SessionReturns v 0 (ifFound v 0 .reboot)
  | .getState => SessionReturns v 0 (ifFound v 0 .state)
  | .powerStatus => SessionReturns v 0 (ifFound v 0 .state)
  | .machineCreate paused => SessionReturns v 0
      (if found v 0 then [] else
        if paused ∧ s.machineType ≠ .kvm then [.createXML, .suspend] else [.createXML])
  | .machinePause => SessionReturns v 0 (ifFound v 0 .suspend)
  | .machineResume => SessionReturns v 0 (ifFound v 0 .resume)
  | .machineSnapshot => s.machineType ≠ .xen →
      ¬ (s.machineType = .kvm ∧ found v 0) ∧ SessionReturns v 0 []
  | .machineSnapshotRestore => True
  | .machineSave => (s.machineType = .xen → SessionReturns v 0 (ifFound v 0 .resume)) ∧
      SessionReturns v 1 (ifFound v 1 .save)
  | .machineRestore paused => SessionReturns v 0
      (if s.machineType = .kvm ∧ paused then [.restoreFlags] else
        if paused then [] else [.restore])
  | .screenshot => SessionReturns v 0 []
  | .memoryGetSize => SessionReturns v 0 (ifFound v 0 .xmlDesc) ∧ Reads v fun xml =>
      xml.currentMemory.all fun m => !(m.unit = "KiB") || (m.number.map (· * 1024)).isSome
  | .diskGetFilename => SessionReturns v 0 (ifFound v 0 .xmlDesc) ∧ Reads v fun xml =>
      xml.disks.all fun d => !(d.device = "disk") || d.sources.head?.isSome
  | .getVncPort => SessionReturns v 0 (ifFound v 0 .xmlDesc) ∧ Reads v fun xml =>
      xml.graphics.all fun g => !(g.type = "vnc") || g.port.isSome
  | .networkGetInterface => SessionReturns v 0 []
  | .hasLophiSnapshot => SessionReturns v 0 []

/-! ## Sessions -/

@[simp] theorem isSome_call {c : Call} : (call v c).isSome = !v.raises c := by
  unfold call
  cases v.raises c <;> rfl

@[simp] theorem isSome_call_bind {c : Call} {f : Unit → Result α} :
    ((call v c).bind f).isSome = (!v.raises c && (f ()).isSome) := by
  unfold call
  cases v.raises c <;> rfl

@[simp] theorem isSome_tryExcept {body handler : Result α} :
    (tryExcept body handler).isSome = (body.isSome || handler.isSome) := by
  cases body <;> rfl

/-- The program ends with the mutex free, or raises with the mutex held. -/
def Ends (m : Locking α) (ok : Prop) : Prop :=
  (ok ∧ ∃ a, m false = (.ok a, false)) ∨ (¬ ok ∧ m false = (.error .raised, true))

theorem Ends.of_iff {m : Locking α} {ok ok' : Prop} (h : Ends m ok) (hiff : ok ↔ ok') :
    Ends m ok' := by rwa [← hiff]

theorem connect_eq (hm : s.requireMutex = true) :
    connect s v n false =
      if v.raises (.openConnection n) then (.error .raised, true) else (.ok (found v n), true) := by
  unfold connect found call tryExcept
  rw [hm]
  cases v.raises (.openConnection n) <;> cases v.raises (.lookupByName n) <;> rfl

theorem disconnect_eq (hm : s.requireMutex = true) :
    disconnect s v n true =
      if v.raises (.close n) then (.error .raised, true) else (.ok (), false) := by
  unfold disconnect call
  rw [hm]
  cases v.raises (.close n) <;> rfl

/-- A session returns where connecting, its work and disconnecting do. -/
theorem ends_withDomain (hm : s.requireMutex = true) (body : Bool → Result α) :
    Ends (withDomain s v n body) (v.raises (.openConnection n) = false ∧
      (body (found v n)).isSome ∧ v.raises (.close n) = false) := by
  have hconnect := connect_eq (v := v) (n := n) hm
  have hdisconnect := disconnect_eq (v := v) (n := n) hm
  cases hopen : v.raises (.openConnection n) with
  | true =>
    rw [hopen, if_pos rfl] at hconnect
    exact .inr ⟨(fun h => nomatch h.1), bind_error hconnect⟩
  | false =>
    rw [hopen, if_neg Bool.false_ne_true] at hconnect
    have hwork := bind_ok (f := fun dom => do
      let rtn ← orRaise .raised (body dom)
      disconnect s v n
      return rtn) hconnect
    cases hbody : body (found v n) with
    | none =>
      rw [hbody] at hwork
      exact .inr ⟨(fun h => nomatch h.2.1), hwork⟩
    | some a =>
      rw [hbody] at hwork
      have hwork := hwork.trans (bind_ok (m := orRaise .raised (some a)) rfl)
      cases hclose : v.raises (.close n) with
      | true =>
        rw [hclose, if_pos rfl] at hdisconnect
        exact .inr ⟨(fun h => nomatch h.2.2), hwork.trans (bind_error hdisconnect)⟩
      | false =>
        rw [hclose, if_neg Bool.false_ne_true] at hdisconnect
        exact .inl ⟨⟨rfl, rfl, rfl⟩, a, hwork.trans (bind_ok hdisconnect)⟩

theorem Ends.bind_pure {m : Locking α} {ok : Prop} {β : Type} (h : Ends m ok) (f : α → β) :
    Ends (m >>= fun a => pure (f a)) ok := by
  rcases h with ⟨hok, a, ha⟩ | ⟨hok, he⟩
  · exact .inl ⟨hok, f a, bind_ok ha⟩
  · exact .inr ⟨hok, bind_error he⟩

theorem Ends.discard {m : Locking α} {ok : Prop} (h : Ends m ok) : Ends (discard m) ok :=
  h.bind_pure _

/-- Two sessions in a row. -/
theorem Ends.then {m : Locking Unit} {m' : Locking α} {ok ok' : Prop} (h : Ends m ok)
    (h' : Ends m' ok') : Ends (m >>= fun _ => m') (ok ∧ ok') := by
  rcases h with ⟨hok, a, ha⟩ | ⟨hok, he⟩
  · rcases h' with ⟨hok', b, hb⟩ | ⟨hok', he'⟩
    · exact .inl ⟨⟨hok, hok'⟩, b, (bind_ok ha).trans hb⟩
    · exact .inr ⟨fun h => hok' h.2, (bind_ok ha).trans he'⟩
  · exact .inr ⟨fun h => hok h.1, bind_error he⟩

/-- A session is over when the calls in it return. -/
theorem ends_session (hm : s.requireMutex = true) {body : Bool → Result α} {calls : List Call}
    (hbody : (body (found v n)).isSome ↔ ∀ c ∈ calls, v.raises c = false) :
    Ends (withDomain s v n body) (SessionReturns v n calls) :=
  (ends_withDomain hm body).of_iff (and_congr_right fun _ => and_congr_left fun _ => hbody)

/-! ## What is done in a session -/

theorem isSome_onDomain {c : Call} : (onDomain v c (found v n)).isSome ↔
    ∀ c' ∈ ifFound v n c, v.raises c' = false := by
  unfold onDomain ifFound
  cases found v n <;> simp

theorem isSome_sendKeys (count i : Nat) : (sendKeys v count i).isSome ↔
    ∀ j, i ≤ j → j < i + count → v.raises (.sendKey j) = false := by
  induction count generalizing i with
  | zero => exact iff_of_true rfl fun j h₁ h₂ => by omega
  | succ count ih =>
    simp only [sendKeys, Option.bind_eq_bind, isSome_call_bind, Bool.and_eq_true,
      Bool.not_eq_true', ih]
    constructor
    · rintro ⟨hfirst, hrest⟩ j h₁ h₂
      rcases Nat.eq_or_lt_of_le h₁ with rfl | hlt
      · exact hfirst
      · exact hrest j hlt (by omega)
    · intro h
      exact ⟨h i (Nat.le_refl i) (by omega), fun j h₁ h₂ => h j (by omega) (by omega)⟩

theorem isSome_sendLines (lines : List KeyLine) (i : Nat) : (sendLines v lines i).isSome ↔
    ∀ j, i ≤ j → j < i + (lines.map KeyLine.count).sum → v.raises (.sendKey j) = false := by
  induction lines generalizing i with
  | nil => exact iff_of_true rfl fun j h₁ h₂ => by simp at h₂; omega
  | cons line lines ih =>
    have hbind : (sendLines v (line :: lines) i).isSome ↔
        (sendKeys v line.count i).isSome ∧ (sendLines v lines (i + line.count)).isSome := by
      rw [sendLines]
      cases sendKeys v line.count i <;> simp
    rw [hbind, isSome_sendKeys, ih, List.map_cons, List.sum_cons]
    constructor
    · rintro ⟨hfirst, hrest⟩ j h₁ h₂
      by_cases hj : j < i + line.count
      · exact hfirst j h₁ hj
      · exact hrest j (by omega) (by omega)
    · intro h
      exact ⟨fun j h₁ h₂ => h j h₁ (by omega), fun j h₁ h₂ => h j (by omega) (by omega)⟩

theorem isSome_lastSelected {ε : Type} (selected : ε → Bool) (value : ε → Option α)
    (es : List ε) (rtn : Option α) : (lastSelected selected value es rtn).isSome =
      es.all fun e => !selected e || (value e).isSome := by
  induction es generalizing rtn with
  | nil => rfl
  | cons e es ih =>
    rw [lastSelected, List.all_cons]
    split
    · rename_i hselected
      cases value e with
      | none => simp [hselected]
      | some a => simpa [hselected] using ih (some a)
    · rename_i hselected
      simp [hselected, ih]

/-- An operation that looks for elements in the description of the machine. -/
theorem isSome_lookFor {ε : Type} (elements : DomainXml → List ε) (selected : ε → Bool)
    (value : ε → Option α) :
    (if found v 0 then (do
      let xml ← readXml v
      lastSelected selected value (elements xml) none)
      else return none : Result (Option α)).isSome ↔
    (∀ c ∈ ifFound v 0 .xmlDesc, v.raises c = false) ∧
      Reads v fun xml => (elements xml).all fun e => !selected e || (value e).isSome := by
  unfold ifFound Reads readXml call
  cases found v 0 with
  | false => simp
  | true =>
    cases hraises : v.raises .xmlDesc with
    | true => simp [hraises]
    | false =>
      cases v.xml with
      | none => simp
      | some xml =>
        have hlast := isSome_lastSelected selected value (elements xml) none
        simp [hraises, hlast]

/-! ## Operations -/

/-- Started with the mutex free, the program does not wait for it, and leaves it free exactly
under the condition. -/
def Leaves (m : Locking Unit) (ok : Prop) : Prop :=
  (m false).1 ≠ .error .blocked ∧ ((m false).2 = false ↔ ok)

theorem Ends.leaves {m : Locking Unit} {ok : Prop} (h : Ends m ok) : Leaves m ok := by
  rcases h with ⟨hok, a, ha⟩ | ⟨hok, he⟩
  · unfold Leaves
    rw [ha]
    exact ⟨nofun, iff_of_true rfl hok⟩
  · unfold Leaves
    rw [he]
    exact ⟨nofun, iff_of_false nofun hok⟩

section Mutex
variable (hm : s.requireMutex = true)
include hm

theorem leaves_onDomain {c : Call} :
    Leaves (withDomain s v 0 (onDomain v c)) (SessionReturns v 0 (ifFound v 0 c)) :=
  (ends_session hm isSome_onDomain).leaves

/-- The handler of `power_off` swallows the exception and keeps the mutex. -/
theorem leaves_powerOff :
    Leaves (powerOff s v) (SessionReturns v 0 (ifFound v 0 .destroy)) := by
  unfold Leaves powerOff
  rcases ends_session (v := v) (n := 0) hm (isSome_onDomain (c := .destroy)) with
    ⟨hok, a, ha⟩ | ⟨hok, he⟩
  · rw [ha]
    exact ⟨nofun, iff_of_true rfl hok⟩
  · rw [he]
    exact ⟨nofun, iff_of_false nofun hok⟩

theorem ends_getState :
    Ends (getState s v) (SessionReturns v 0 (ifFound v 0 .state)) := by
  refine ends_session hm ?_
  unfold ifFound
  cases found v 0 <;> simp

theorem ends_machineSave : Ends (machineSave s v)
    ((s.machineType = .xen → SessionReturns v 0 (ifFound v 0 .resume)) ∧
      SessionReturns v 1 (ifFound v 1 .save)) := by
  have hsave := ends_session (v := v) (n := 1) hm (isSome_onDomain (c := .save))
  unfold machineSave
  by_cases hxen : s.machineType = .xen
  · have hresume := ends_session (v := v) (n := 0) hm (isSome_onDomain (c := .resume))
    rw [if_pos hxen]
    exact (hresume.then hsave).of_iff (by simp [hxen])
  · rw [if_neg hxen]
    exact hsave.of_iff (by simp [hxen])

/-- Work that never raises. -/
theorem ends_unraised {body : Bool → Result α} (hbody : (body (found v 0)).isSome) :
    Ends (withDomain s v 0 body) (SessionReturns v 0 []) :=
  ends_session hm (iff_of_true hbody nofun)

theorem ends_lookFor {ε : Type} (elements : DomainXml → List ε) (selected : ε → Bool)
    (value : ε → Option α) :
    Ends (withDomain s v 0 fun dom => if dom then (do
      let xml ← readXml v
      lastSelected selected value (elements xml) none) else return none)
      (SessionReturns v 0 (ifFound v 0 .xmlDesc) ∧
        Reads v fun xml => (elements xml).all fun e => !selected e || (value e).isSome) := by
  refine (ends_withDomain hm _).of_iff ?_
  rw [isSome_lookFor elements selected value]
  unfold SessionReturns
  constructor
  · rintro ⟨h₁, ⟨h₂, h₃⟩, h₄⟩; exact ⟨⟨h₁, h₂, h₄⟩, h₃⟩
  · rintro ⟨⟨h₁, h₂, h₄⟩, h₃⟩; exact ⟨h₁, ⟨h₂, h₃⟩, h₄⟩

/-- A snapshot of a KVM machine that exists raises in the session. -/
theorem leaves_machineSnapshot :
    Leaves (discard (machineSnapshot s v)) (CallsReturn s v .machineSnapshot) := by
  unfold machineSnapshot
  by_cases hxen : s.machineType = .xen
  · rw [if_pos hxen]
    exact ⟨nofun, iff_of_true rfl fun h => absurd hxen h⟩
  · rw [if_neg hxen]
    have hcalls : CallsReturn s v .machineSnapshot ↔
        ¬ (s.machineType = .kvm ∧ found v 0) ∧ SessionReturns v 0 [] := forall_prop_of_true hxen
    rw [hcalls]
    refine (((ends_withDomain hm _).of_iff ?_).bind_pure _).discard.leaves
    unfold SessionReturns
    cases found v 0 <;> by_cases hkvm : s.machineType = .kvm <;>
      simp [hkvm, snapshotName, snapshotXml]

/-- What an operation leaves behind. -/
theorem leaves_program (op : Operation) : Leaves (op.program s v) (CallsReturn s v op) := by
  cases op with
  | keypressSend lines =>
    refine (ends_session hm ?_).leaves
    cases found v 0 with
    | false => simp
    | true =>
      rw [if_pos rfl, if_pos rfl, isSome_sendLines]
      simp
  | powerOn =>
    refine (ends_unraised hm ?_).discard.leaves
    cases found v 0 <;> simp [tryExcept, call]
  | powerOff => exact leaves_powerOff hm
  | powerShutdown => exact leaves_onDomain hm
  | powerReset => exact leaves_onDomain hm
  | powerReboot => exact leaves_onDomain hm
  | getState => exact (ends_getState hm).discard.leaves
  | powerStatus => exact ((ends_getState hm).bind_pure statusOf).discard.leaves
  | machineCreate paused =>
    refine (ends_session hm ?_).leaves
    cases found v 0 <;> cases paused <;> by_cases hkvm : s.machineType = .kvm <;> simp [hkvm]
  | machinePause => exact leaves_onDomain hm
  | machineResume => exact leaves_onDomain hm
  | machineSnapshot => exact leaves_machineSnapshot hm
  | machineSnapshotRestore => exact ⟨nofun, iff_of_true rfl trivial⟩
  | machineSave => exact (ends_machineSave hm).leaves
  | machineRestore paused =>
    refine (ends_session hm ?_).leaves
    cases paused <;> by_cases hkvm : s.machineType = .kvm <;> simp [hkvm]
  | screenshot =>
    refine (ends_unraised hm ?_).discard.leaves
    cases found v 0 <;> simp
  | memoryGetSize => exact (ends_lookFor hm _ _ _).discard.leaves
  | diskGetFilename => exact (ends_lookFor hm _ _ _).discard.leaves
  | getVncPort => exact (ends_lookFor hm _ _ _).discard.leaves
  | networkGetInterface =>
    refine (ends_unraised hm ?_).discard.leaves
    cases found v 0 <;> simp
  | hasLophiSnapshot =>
    refine (ends_unraised hm ?_).discard.leaves
    cases found v 0 <;> simp

end Mutex

/-! ## Sequences of operations -/

/-- After every operation the mutex is free, and no operation waits for it for ever. -/
def MutexReleased (us : List Use) : Prop :=
  ∀ k u, us[k]? = some u → (step (stateAt step false us k) u).1 = false ∧
    (step (stateAt step false us k) u).2 ≠ .error .blocked

theorem step_of_free {u : Use} (hm : u.sensor.requireMutex = true) :
    (step false u).2 ≠ .error .blocked ∧
      ((step false u).1 = false ↔ CallsReturn u.sensor u.libvirt u.operation) :=
  leaves_program hm u.operation

/-- A KVM machine that is found, with the given calls raising. -/
def kvmUse (op : Operation) (raises : Call → Bool) : Use where
  sensor := ⟨true, .kvm⟩
  operation := op
  libvirt := ⟨raises, 1, none⟩

end LoPhi.Control.Release
