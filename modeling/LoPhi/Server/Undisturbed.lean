import Mathlib.Data.List.Nodup
import LoPhi.Server.Departure

/-! # The clients that stay

A client's cleanup resets the VM that `get_vm_id` finds under its last filename, without a look
at the client that this VM forwards to. So it leaves the others alone if nobody gets a VM that
another client may still reset. -/

namespace LoPhi.Server.Undisturbed
open LoPhi.Lib.Machine LoPhi.Server.Connections LoPhi.Server.Departure
open LoPhi.Server.ThreadItems (Item setForwardFd setDiskData vmId)
open LoPhi.Server.WaitingClients (Entry)

/-- The calls of a client's cleanup. -/
def IsCleanup : ClientAction → Prop
  | .leave => True
  | .cleanUp _ => True
  | _ => False

/-- A step leaves the items and waiting clients of other connected clients as they are. -/
def LeavesOthers (s : State) (fd : Int) (after : Option State) : Prop :=
  ∃ s', after = some s' ∧
    (∀ i ∈ s.items, i.forwardSocketFd ≠ fd → s.clients i.forwardSocketFd ≠ none → i ∈ s'.items) ∧
    ∀ e ∈ s.waiting, e.forwardSocketFd ≠ fd → s.clients e.forwardSocketFd ≠ none →
      e ∈ s'.waiting

/-! ## Contested VMs -/

/-- The client may reset the VM when it leaves: it has waited and its last `n` command named the
file, or that command is not through, or its cleanup has found the VM. -/
def Claims (c : Client) (i : Item) : Prop :=
  match c.phase with
  | .reading => c.waitingClient ≠ none ∧ i.diskData = some c.filename
  | .named => i.diskData = some c.filename
  | .unforwarding => i.threadId = c.vmId
  | _ => False

/-- No other client may reset the VM. -/
def Uncontested (s : State) (threadId fd : Int) : Prop :=
  ∀ i ∈ s.items, i.threadId = threadId → ∀ other c, s.clients other = some c → Claims c i →
    other = fd

/-- A client gets a VM, by a command or a hand-over, only if no other client may reset it; a VM
that has a client before its meta data does not announce the file of another one; and an `n`
command names a file of which no VM but the one found has another client. The cleanup itself
finds its own node and an unchanged head, and no neighbours are removed. -/
def Apart (s : State) : Event → Prop
  | .vm a (.announce filename) => s.vms a = some .connected → ∀ i ∈ s.items, i.address = a →
      i.forwardSocketFd = -1 ∨ ∀ fd c, s.clients fd = some c →
        Claims c { i with diskData := some filename } → i.forwardSocketFd = fd
  | .vm a (.advance _) => ∀ p fd, s.vms a = some (.handing p fd) → ∀ i ∈ s.items,
      i.address = a → Uncontested s i.threadId fd
  | .client fd (.subscribeId parsed) => ∀ c, s.clients fd = some c → c.phase = .reading →
      Uncontested s (parsed.getD c.vmId) fd
  | .client fd (.lookUp filename) => ∀ i ∈ s.items, i.diskData = some filename →
      i.threadId ≠ vmId filename s.items → i.forwardSocketFd = fd ∨ i.forwardSocketFd = -1
  | .client fd (.subscribeName _) => ∀ c, s.clients fd = some c → c.phase = .named →
      Uncontested s c.vmId fd
  | .client fd (.cleanUp _) => ∀ c, s.clients fd = some c → ClientFinds s fd c c.phase
  | _ => True

/-- The VM has the client, or none, or the client's command is about to get it. -/
def Given (fd : Int) (c : Client) (i : Item) : Prop :=
  i.forwardSocketFd = fd ∨ i.forwardSocketFd = -1 ∨ c.phase = .named ∧ i.threadId = c.vmId

/-- `remove_waiting_client` is called with the client's own descriptor. -/
def Removes (fd : Int) : ClientPhase → Prop
  | .dequeueing removeSocketFd => removeSocketFd = fd
  | .removing removeSocketFd _ => removeSocketFd = fd
  | _ => True

/-- What a client may reset is its own. -/
structure Exclusive (s : State) : Prop where
  numbered : Numbered s.items s.curThreadId
  connected : ∀ fd c, s.clients fd = some c → 0 ≤ fd
  claims : ∀ fd c, s.clients fd = some c → ∀ i ∈ s.items, Claims c i → Given fd c i
  removes : ∀ fd c, s.clients fd = some c → Removes fd c.phase

theorem Exclusive.initial : Exclusive .initial where
  numbered := .initial
  connected fd c h := by cases h
  claims fd c h := by cases h
  removes fd c h := by cases h

section Step
variable {s : State} {fd : Int} {c : Client}

theorem Exclusive.setVm (h : Exclusive s) (a : Nat) (phase : VmPhase) :
    Exclusive (s.setVm a phase) := ⟨h.numbered, h.connected, h.claims, h.removes⟩

theorem Exclusive.withWaiting (h : Exclusive s) (waiting : List Entry) :
    Exclusive { s with waiting := waiting } := ⟨h.numbered, h.connected, h.claims, h.removes⟩

theorem Exclusive.withCleanup (h : Exclusive s) (cleanup : Option Holder) :
    Exclusive { s with cleanup := cleanup } := ⟨h.numbered, h.connected, h.claims, h.removes⟩

/-- A client's variables change. -/
theorem Exclusive.setClient (h : Exclusive s) (hfd : 0 ≤ fd)
    (hclaims : ∀ i ∈ s.items, Claims c i → Given fd c i) (hremoves : Removes fd c.phase) :
    Exclusive (s.setClient fd c) := by
  have hcases : ∀ other c', (s.setClient fd c).clients other = some c' →
      other = fd ∧ c' = c ∨ s.clients other = some c' := by
    intro other c' hother
    change Function.update s.clients fd (some c) other = _ at hother
    by_cases hsame : other = fd
    · rw [hsame, Function.update_self] at hother
      cases hother
      exact Or.inl ⟨hsame, rfl⟩
    · rw [Function.update_of_ne hsame] at hother
      exact Or.inr hother
  constructor
  · exact h.numbered
  · intro other c' hother
    rcases hcases other c' hother with ⟨rfl, -⟩ | hother
    · exact hfd
    · exact h.connected other c' hother
  · intro other c' hother i hi hclaim
    rcases hcases other c' hother with ⟨rfl, rfl⟩ | hother
    · exact hclaims i hi hclaim
    · exact h.claims other c' hother i hi hclaim
  · intro other c' hother
    rcases hcases other c' hother with ⟨rfl, rfl⟩ | hother
    · exact hremoves
    · exact h.removes other c' hother

/-- A VM gets a client that nobody else may reset, or none. -/
theorem Exclusive.updateForwardFd (h : Exclusive s) {threadId forwardFd : Int}
    (hfree : forwardFd = -1 ∨ Uncontested s threadId forwardFd) :
    Exclusive (s.updateForwardFd threadId forwardFd) where
  numbered := h.numbered.setForwardFd threadId forwardFd
  connected := h.connected
  claims other c' hother j hj hclaim := by
    obtain ⟨i, hi, heq, ⟨hid, hforward⟩ | ⟨-, rfl⟩⟩ := h.numbered.mem_setForwardFd hj
    · rcases hfree with hnone | hfree
      · exact Or.inr (Or.inl (hforward.trans hnone))
      · rw [heq] at hclaim
        exact Or.inl (hforward.trans (hfree i hi hid other c' hother hclaim).symm)
    · exact h.claims other c' hother j hi hclaim
  removes := h.removes

/-! ## VMs -/

theorem Exclusive.announce (h : Exclusive s) {a : Nat} {filename : List UInt8}
    (hfree : ∀ i ∈ s.items, i.address = a → i.forwardSocketFd = -1 ∨
      ∀ fd c, s.clients fd = some c → Claims c { i with diskData := some filename } →
        i.forwardSocketFd = fd) :
    Exclusive { s with items := setDiskData a filename s.items } where
  numbered := h.numbered.setDiskData a filename
  connected := h.connected
  claims other c' hother j hj hclaim := by
    obtain ⟨i, hi, ⟨ha, rfl⟩ | ⟨-, rfl⟩⟩ := mem_setDiskData hj
    · rcases hfree i hi ha with hnone | hfree
      · exact Or.inr (Or.inl hnone)
      · exact Or.inl (hfree other c' hother hclaim)
    · exact h.claims other c' hother j hi hclaim
  removes := h.removes

theorem Exclusive.remove (h : Exclusive s) (a : Nat) :
    Exclusive { s with
      items := s.items.filter fun i => i.address ≠ a
      vms := Function.update s.vms a none } where
  numbered := h.numbered.filter _
  connected := h.connected
  claims other c' hother i hi := h.claims other c' hother i (List.mem_of_mem_filter hi)
  removes := h.removes

/-- `remove_waiting_client` changes the list only. -/
theorem Exclusive.removeWaitingClient (h : Exclusive s) {removeSocketFd : Int}
    {head : Option Nat} {s' : State} (hs' : s.removeWaitingClient removeSocketFd head = some s') :
    Exclusive s' := by
  unfold State.removeWaitingClient at hs'
  split at hs'
  · cases hs'
    exact h
  · split at hs'
    · split at hs'
      · cases hs'
      · cases hs'
        exact h.withWaiting _
    · cases hs'

theorem Exclusive.advance (h : Exclusive s) {a : Nat} {i : Item} {phase : VmPhase} {junk : Int}
    (hfree : ∀ p fd, phase = .handing p fd → Uncontested s i.threadId fd) {s' : State}
    (hs' : advance s a i junk phase = some s') : Exclusive s' := by
  unfold Connections.advance at hs'
  split at hs'
  · cases hs'
    exact h.setVm a _
  · split at hs'
    · cases hs'
    · cases hs'
      exact h.setVm a _
    · cases hs'
      exact h.setVm a _
  · cases hs'
    exact h.setVm a _
  · rename_i p forwardFd
    cases hs'
    exact (h.updateForwardFd (Or.inr (hfree p forwardFd rfl))).setVm a _
  · cases hs'
    exact h.setVm a _
  · cases hs'
    exact h.setVm a _
  · split at hs'
    · cases hs'
    · rename_i s₁ hremoved
      cases hs'
      exact (h.removeWaitingClient hremoved).setVm a _
  · split at hs'
    · cases hs'
    · cases hs'
      exact h.setVm a _
  · cases hs'
    exact h

theorem Exclusive.disconnect (h : Exclusive s) (a : Nat) (i : Item) :
    Exclusive (disconnect s a i) := by
  unfold Connections.disconnect
  split
  · split
    · exact (h.withCleanup _).setVm a _
    · exact h.setVm a _
  · exact h

theorem Exclusive.requeue (h : Exclusive s) (a b : Nat) (filename : List UInt8) (sockFd : Int) :
    Exclusive (requeue s a b filename sockFd) := by
  unfold Connections.requeue
  split
  · exact ((h.withWaiting _).withCleanup none).setVm a _
  · exact h

theorem Exclusive.vmAct (h : Exclusive s) {a : Nat} {i : Item} {phase : VmPhase}
    (hphase : s.vms a = some phase) (hi : i ∈ s.items) (ha : i.address = a) {action : VmAction}
    (hapart : Apart s (.vm a action)) {s' : State} (hs' : vmAct s a i phase action = some s') :
    Exclusive s' := by
  cases action with
  | announce filename =>
    simp only [Connections.vmAct] at hs'
    split at hs'
    · cases hs'
      exact (h.announce (hapart hphase)).setVm a _
    · cases hs'
      exact h
  | advance junk =>
    refine h.advance (fun p fd heq => ?_) hs'
    rw [heq] at hphase
    exact hapart p fd hphase i hi ha
  | sendFailed =>
    simp only [Connections.vmAct] at hs'
    split at hs'
    · cases hs'
      exact h.updateForwardFd (Or.inl rfl)
    · cases hs'
      exact h
  | disconnect =>
    simp only [Connections.vmAct] at hs'
    split at hs'
    · cases hs'
      exact h.disconnect a i
    · cases hs'
      exact h.disconnect a i
    · cases hs'
      exact h
  | requeue b =>
    simp only [Connections.vmAct] at hs'
    split at hs'
    · cases hs'
      exact h.requeue a b _ _
    · cases hs'
      exact h
  | remove =>
    simp only [Connections.vmAct] at hs'
    split at hs'
    · cases hs'
      exact h.remove a
    · cases hs'
      exact h

/-! ## Clients -/

/-- The item that `get_vm_id` finds. -/
theorem exists_vmId (filename : List UInt8) (items : List Item) :
    vmId filename items = -1 ∨
      ∃ i ∈ items, i.threadId = vmId filename items ∧ i.diskData = some filename := by
  induction items with
  | nil => exact Or.inl rfl
  | cons j items ih =>
    unfold vmId
    split
    · rename_i hname
      exact Or.inr ⟨j, List.mem_cons_self, rfl, hname⟩
    · refine ih.imp_right ?_
      rintro ⟨i, hi, hfound⟩
      exact ⟨i, List.mem_cons_of_mem _ hi, hfound⟩

/-- A VM's id is not that of none. -/
theorem Exclusive.id_ne (h : Exclusive s) {i : Item} (hi : i ∈ s.items) : i.threadId ≠ -1 := by
  have hrange := h.numbered.range i hi
  omega

theorem Exclusive.subscribeId (h : Exclusive s) (hc : s.clients fd = some c)
    (hphase : c.phase = .reading) {parsed : Option Int}
    (hfree : Uncontested s (parsed.getD c.vmId) fd) : Exclusive (subscribeId s fd c parsed) := by
  -- the id and whether the client has subscribed do not matter for its claims
  have hgiven : ∀ (vmId : Int) (subscribed : Bool) (i : Item), Given fd c i →
      Given fd { c with vmId := vmId, subscribed := subscribed } i := by
    intro vmId subscribed i hgiven
    refine hgiven.imp_right fun hrest => hrest.imp_right fun hnamed => ?_
    rw [hphase] at hnamed
    cases hnamed.1
  have hclaim : ∀ (vmId : Int) (subscribed : Bool) (i : Item),
      Claims { c with vmId := vmId, subscribed := subscribed } i → Claims c i := by
    intro vmId subscribed i hclaim
    unfold Claims at hclaim ⊢
    rw [hphase] at hclaim ⊢
    exact hclaim
  have hremoves : Removes fd c.phase := h.removes fd c hc
  unfold Connections.subscribeId
  simp only
  split
  · have hupdate := h.updateForwardFd (Or.inr hfree)
    exact hupdate.setClient (h.connected fd c hc)
      (fun i hi hi' => hgiven _ _ i (hupdate.claims fd c hc i hi (hclaim _ _ i hi'))) hremoves
  · exact h.setClient (h.connected fd c hc)
      (fun i hi hi' => hgiven _ c.subscribed i (h.claims fd c hc i hi (hclaim _ _ i hi'))) hremoves

/-- An `n` command finds a VM, and is about to get it. -/
theorem Exclusive.lookUp (h : Exclusive s) (hc : s.clients fd = some c) {filename : List UInt8}
    (hfree : ∀ i ∈ s.items, i.diskData = some filename → i.threadId ≠ vmId filename s.items →
      i.forwardSocketFd = fd ∨ i.forwardSocketFd = -1) :
    Exclusive (s.setClient fd
      { c with filename := filename, vmId := vmId filename s.items, phase := .named }) := by
  refine h.setClient (h.connected fd c hc) (fun i hi hclaim => ?_) trivial
  by_cases hid : i.threadId = vmId filename s.items
  · exact Or.inr (Or.inr ⟨rfl, hid⟩)
  · rcases hfree i hi hclaim hid with hown | hnone
    · exact Or.inl hown
    · exact Or.inr (Or.inl hnone)

/-- It gets the VM, or waits for one. -/
theorem Exclusive.subscribeName (h : Exclusive s) (hc : s.clients fd = some c)
    (hphase : c.phase = .named) (hfree : Uncontested s c.vmId fd) (b : Nat) :
    Exclusive (subscribeName s fd c b) := by
  have hbefore : ∀ i ∈ s.items, i.diskData = some c.filename → i.threadId ≠ c.vmId →
      i.forwardSocketFd = fd ∨ i.forwardSocketFd = -1 := by
    intro i hi hname hid
    have hclaim : Claims c i := by
      unfold Claims
      rw [hphase]
      exact hname
    rcases h.claims fd c hc i hi hclaim with hown | hnone | ⟨-, hsame⟩
    · exact Or.inl hown
    · exact Or.inr hnone
    · exact absurd hsame hid
  unfold Connections.subscribeName
  split
  · refine (h.updateForwardFd (Or.inr hfree)).setClient (h.connected fd c hc)
      (fun j hj hclaim => ?_) trivial
    obtain ⟨i, hi, -, ⟨-, hforward⟩ | ⟨hother, rfl⟩⟩ := h.numbered.mem_setForwardFd hj
    · exact Or.inl hforward
    · rcases hbefore j hi hclaim.2 hother with hown | hnone
      · exact Or.inl hown
      · exact Or.inr (Or.inl hnone)
  · rename_i hvm
    rw [not_not] at hvm
    split
    · refine (h.withWaiting _).setClient (h.connected fd c hc) (fun i hi hclaim => ?_) trivial
      rcases hbefore i hi hclaim.2 (hvm ▸ h.id_ne hi) with hown | hnone
      · exact Or.inl hown
      · exact Or.inr (Or.inl hnone)
    · exact h

/-- The VM that the cleanup finds is the client's, or nobody's. -/
theorem Exclusive.leave (h : Exclusive s) (hc : s.clients fd = some c)
    (hphase : c.phase = .reading) : Exclusive (leave s fd c) := by
  unfold Connections.leave
  split
  · split
    · exact h.setClient (h.connected fd c hc) (fun _ _ hclaim => hclaim.elim) trivial
    · rename_i p hp
      refine (h.withCleanup _).setClient (h.connected fd c hc) (fun i hi hclaim => ?_) trivial
      have hid : i.threadId = vmId c.filename s.items := hclaim
      rcases exists_vmId c.filename s.items with hnone | ⟨j, hj, hjid, hname⟩
      · exact absurd (hid.trans hnone) (h.id_ne hi)
      · obtain rfl : i = j := List.inj_on_of_nodup_map h.numbered.ids hi hj (hid.trans hjid.symm)
        have hbefore : Claims c i := by
          unfold Claims
          rw [hphase]
          exact ⟨by rw [hp]; simp, hname⟩
        rcases h.claims fd c hc i hi hbefore with hown | hnone | ⟨hnamed, -⟩
        · exact Or.inl hown
        · exact Or.inr (Or.inl hnone)
        · cases hphase.symm.trans hnamed
  · exact h

theorem Exclusive.cleanUp (h : Exclusive s) (hc : s.clients fd = some c)
    (hfinds : ClientFinds s fd c c.phase) {junk : Int} {s' : State}
    (hs' : cleanUp s fd c junk = some s') : Exclusive s' := by
  have hfd := h.connected fd c hc
  unfold Connections.cleanUp at hs'
  split at hs'
  · cases hs'
    split
    · exact (h.updateForwardFd (Or.inl rfl)).setClient hfd (fun _ _ hclaim => hclaim.elim) trivial
    · exact h.setClient hfd (fun _ _ hclaim => hclaim.elim) trivial
  · rename_i hphase
    split at hs'
    · cases hs'
      exact h
    · rename_i p hp
      cases hs'
      rw [hphase] at hfinds
      obtain ⟨e, he, hown⟩ := hfinds p hp
      exact h.setClient hfd (fun _ _ hclaim => hclaim.elim) ((readFd_eq he junk).trans hown)
  · rename_i removeSocketFd hphase
    cases hs'
    have hremoves := h.removes fd c hc
    rw [hphase] at hremoves
    exact h.setClient hfd (fun _ _ hclaim => hclaim.elim) hremoves
  · split at hs'
    · cases hs'
    · rename_i s₁ hremoved
      cases hs'
      exact ((h.removeWaitingClient hremoved).withCleanup none).setClient hfd
        (fun _ _ hclaim => hclaim.elim) trivial
  · cases hs'
    exact h

theorem Exclusive.close (h : Exclusive s) (fd : Int) :
    Exclusive { s with clients := Function.update s.clients fd none } := by
  have hcases : ∀ other c', Function.update s.clients fd none other = some c' →
      s.clients other = some c' := by
    intro other c' hother
    by_cases hsame : other = fd
    · rw [hsame, Function.update_self] at hother
      cases hother
    · rwa [Function.update_of_ne hsame] at hother
  exact ⟨h.numbered, fun other c' hother => h.connected other c' (hcases other c' hother),
    fun other c' hother => h.claims other c' (hcases other c' hother),
    fun other c' hother => h.removes other c' (hcases other c' hother)⟩

theorem Exclusive.clientAct (h : Exclusive s) (hc : s.clients fd = some c)
    {action : ClientAction} (hapart : Apart s (.client fd action)) {s' : State}
    (hs' : clientAct s fd c action = some s') : Exclusive s' := by
  cases action with
  | subscribeId parsed =>
    simp only [Connections.clientAct] at hs'
    split at hs'
    · rename_i hphase
      cases hs'
      exact h.subscribeId hc hphase (hapart c hc hphase)
    · cases hs'
      exact h
  | lookUp filename =>
    simp only [Connections.clientAct] at hs'
    split at hs'
    · cases hs'
      exact h.lookUp hc hapart
    · cases hs'
      exact h
  | subscribeName b =>
    simp only [Connections.clientAct] at hs'
    split at hs'
    · rename_i hphase
      cases hs'
      exact h.subscribeName hc hphase (hapart c hc hphase) b
    · cases hs'
      exact h
  | leave =>
    simp only [Connections.clientAct] at hs'
    split at hs'
    · rename_i hphase
      cases hs'
      exact h.leave hc hphase
    · cases hs'
      exact h
  | cleanUp junk => exact h.cleanUp hc (hapart c hc) hs'
  | close =>
    simp only [Connections.clientAct] at hs'
    split at hs'
    · cases hs'
      exact h.close fd
    · cases hs'
      exact h

theorem Exclusive.connect (h : Exclusive s) (a : Nat) :
    Exclusive { s with
      items := s.items ++ [⟨a, s.curThreadId, none, -1⟩]
      curThreadId := s.curThreadId + 1 } where
  numbered := h.numbered.connect a
  connected := h.connected
  claims other c' hother i hi hclaim := by
    rcases List.mem_append.mp hi with hi | hi
    · exact h.claims other c' hother i hi hclaim
    · rw [List.mem_singleton.mp hi]
      exact Or.inr (Or.inl rfl)
  removes := h.removes

theorem Exclusive.act (h : Exclusive s) {e : Event} (hapart : Apart s e) {s' : State}
    (hs' : act s e = some s') : Exclusive s' := by
  cases e with
  | connect a =>
    simp only [Connections.act] at hs'
    split at hs'
    · cases hs'
      exact h
    · cases hs'
      exact (h.connect a).setVm a _
  | accept fd =>
    simp only [Connections.act] at hs'
    split at hs'
    · rename_i hnew
      cases hs'
      exact h.setClient hnew.1 (fun _ _ hclaim => absurd rfl hclaim.1) trivial
    · cases hs'
      exact h
  | vm a action =>
    simp only [Connections.act] at hs'
    split at hs'
    · rename_i phase i hphase hi
      have ha : i.address = a := by simpa using List.find?_some hi
      exact h.vmAct hphase (List.mem_of_find?_eq_some hi) ha hapart hs'
    · cases hs'
      exact h
  | client fd action =>
    simp only [Connections.act] at hs'
    split at hs'
    · rename_i c hc
      exact h.clientAct hc hapart hs'
    · cases hs'
      exact h

/-! ## The cleanup -/

theorem LeavesOthers.refl (s : State) (fd : Int) : LeavesOthers s fd (some s) :=
  ⟨s, rfl, fun _ hi _ _ => hi, fun _ he _ _ => he⟩

/-- Items with other ids stay. -/
theorem mem_setForwardFd {items : List Item} {threadId forwardFd : Int} {i : Item}
    (hi : i ∈ items) (hid : i.threadId ≠ threadId) :
    i ∈ setForwardFd threadId forwardFd items := by
  induction items with
  | nil => cases hi
  | cons j items ih =>
    unfold setForwardFd
    rcases List.mem_cons.mp hi with rfl | hi
    · rw [if_neg hid]
      exact List.mem_cons_self
    · split
      · exact List.mem_cons_of_mem _ hi
      · exact List.mem_cons_of_mem _ (ih hi)

theorem leavesOthers_leave (s : State) (fd : Int) (c : Client) :
    LeavesOthers s fd (some (leave s fd c)) := by
  unfold leave
  split
  · split
    · exact ⟨_, rfl, fun _ hi _ _ => hi, fun _ he _ _ => he⟩
    · exact ⟨_, rfl, fun _ hi _ _ => hi, fun _ he _ _ => he⟩
  · exact .refl s fd

/-- The VM that is reset is the client's, or nobody's. -/
theorem Exclusive.leavesOthers_unforward (h : Exclusive s) (hc : s.clients fd = some c)
    (hphase : c.phase = .unforwarding) :
    LeavesOthers s fd (some ((if c.vmId ≠ -1 then s.updateForwardFd c.vmId (-1) else s).setClient
      fd { c with phase := .unqueueing })) := by
  split
  · refine ⟨_, rfl, fun i hi hfd hconnected => mem_setForwardFd hi fun hid => ?_,
      fun _ he _ _ => he⟩
    have hclaim : Claims c i := by
      unfold Claims
      rw [hphase]
      exact hid
    rcases h.claims fd c hc i hi hclaim with hown | hnone | ⟨hnamed, -⟩
    · exact hfd hown
    · refine hconnected (Option.eq_none_iff_forall_ne_some.mpr fun c' hc' => ?_)
      have hpos := h.connected _ c' hc'
      omega
    · cases hphase.symm.trans hnamed
  · exact ⟨_, rfl, fun _ hi _ _ => hi, fun _ he _ _ => he⟩

/-- The waiting clients that are removed are the client's. -/
theorem Exclusive.leavesOthers_unqueue (h : Exclusive s) (hc : s.clients fd = some c)
    {removeSocketFd : Int} {head : Option Nat} (hphase : c.phase = .removing removeSocketFd head)
    (hremovable : Removable s removeSocketFd head) {f : State → State}
    (hbehind : ∀ s', (f s').items = s'.items ∧ (f s').waiting = s'.waiting) :
    LeavesOthers s fd ((s.removeWaitingClient removeSocketFd head).map f) := by
  have hremoves := h.removes fd c hc
  rw [hphase] at hremoves
  obtain rfl : removeSocketFd = fd := hremoves
  rw [removeWaitingClient_eq hremovable]
  refine ⟨_, rfl, fun i hi _ _ => ?_, fun e he hfd _ => ?_⟩
  · rw [(hbehind _).1]
    exact hi
  · rw [(hbehind _).2]
    show e ∈ (if head = none then s.waiting else _)
    split
    · exact he
    · exact List.mem_filter.mpr ⟨he, decide_eq_true hfd⟩

/-- A call of the cleanup. -/
theorem Exclusive.leavesOthers_cleanUp (h : Exclusive s) (hc : s.clients fd = some c)
    (hfinds : ClientFinds s fd c c.phase) (junk : Int) :
    LeavesOthers s fd (Connections.cleanUp s fd c junk) := by
  unfold Connections.cleanUp
  split
  · rename_i hphase
    exact h.leavesOthers_unforward hc hphase
  · split
    · exact .refl s fd
    · exact ⟨_, rfl, fun _ hi _ _ => hi, fun _ he _ _ => he⟩
  · exact ⟨_, rfl, fun _ hi _ _ => hi, fun _ he _ _ => he⟩
  · rename_i removeSocketFd head hphase
    rw [hphase] at hfinds
    have hleaves := h.leavesOthers_unqueue hc hphase hfinds
      (f := fun s' => { s' with cleanup := none }.setClient fd { c with phase := .left })
      fun s' => ⟨rfl, rfl⟩
    revert hleaves
    cases s.removeWaitingClient removeSocketFd head with
    | none => exact fun hleaves => hleaves
    | some s₁ => exact fun hleaves => hleaves
  · exact .refl s fd

theorem Exclusive.leavesOthers_act (h : Exclusive s) {action : ClientAction}
    (hcleanup : IsCleanup action) (hapart : Apart s (.client fd action)) :
    LeavesOthers s fd (Connections.act s (.client fd action)) := by
  simp only [Connections.act]
  split
  · rename_i c hc
    cases action with
    | leave =>
      simp only [Connections.clientAct]
      split
      · exact leavesOthers_leave s fd c
      · exact .refl s fd
    | cleanUp junk => exact h.leavesOthers_cleanUp hc (hapart c hc) junk
    | _ => cases hcleanup
  · exact .refl s fd

end Step

/-- **A departure leaves the others alone as long as no client gets a VM that another may still
reset**: in every run whose steps all meet the condition, no call of a client's cleanup changes an
item that forwards to another connected client or removes a waiting client of one. -/
theorem departure_leaves_others (events : List Event)
    (hapart : ∀ k e s, events[k]? = some e → stateAt step (some .initial) events k = some s →
      Apart s e) (k : Nat) (fd : Int) (action : ClientAction)
    (he : events[k]? = some (.client fd action)) (hcleanup : IsCleanup action) (s : State)
    (hs : stateAt step (some .initial) events k = some s) :
    LeavesOthers s fd (stateAt step (some .initial) events (k + 1)) := by
  have hexclusive : ∀ s, stateAt step (some .initial) events k = some s → Exclusive s := by
    have hk : k ≤ events.length := Nat.le_of_lt (List.getElem?_eq_some_iff.mp he).1
    refine stateAt_invariant (fun t => ∀ s, t = some s → Exclusive s) (fun s hs => ?_)
      (fun k e he h s hs => ?_) k hk
    · cases hs
      exact .initial
    · rw [stateAt_succ he, step] at hs
      obtain ⟨before, hbefore, hact⟩ := Option.bind_eq_some_iff.mp hs
      exact (h before hbefore).act (hapart k e before he hbefore) hact
  rw [stateAt_succ he, hs]
  exact (hexclusive s hs).leavesOthers_act hcleanup (hapart k _ s he hs)

/-- Two clients wait for VMs, and the first leaves. -/
def waitingRun : List Event :=
  [.accept 5, .client 5 (.lookUp [100]), .client 5 (.subscribeName 1), .accept 6,
    .client 6 (.lookUp [101]), .client 6 (.subscribeName 2), .client 5 .leave,
    .client 5 (.cleanUp 0), .client 5 (.cleanUp 0), .client 5 (.cleanUp 0),
    .client 5 (.cleanUp 0)]

theorem departure_leaves_others_waitingRun :
    ∃ s, stateAt step (some .initial) waitingRun 10 = some s ∧
      LeavesOthers s 5 (stateAt step (some .initial) waitingRun 11) := by
  refine ⟨_, rfl, departure_leaves_others waitingRun (fun k e s he hs => ?_) 10 5 (.cleanUp 0) rfl
    trivial _ rfl⟩
  rcases k with _ | _ | _ | _ | _ | _ | _ | _ | _ | _ | _ | k
  · cases he
    trivial
  · cases he
    cases hs
    intro i hi
    cases hi
  · cases he
    cases hs
    intro c _ _ i hi
    cases hi
  · cases he
    trivial
  · cases he
    cases hs
    intro i hi
    cases hi
  · cases he
    cases hs
    intro c _ _ i hi
    cases hi
  · cases he
    trivial
  · cases he
    cases hs
    intro c hc
    cases hc
    trivial
  · cases he
    cases hs
    intro c hc
    cases hc
    intro p hp
    cases hp
    exact ⟨⟨1, [100], 5⟩, rfl, rfl⟩
  · cases he
    cases hs
    intro c hc
    cases hc
    trivial
  · cases he
    cases hs
    intro c hc
    cases hc
    refine Or.inr ⟨rfl, ?_⟩
    rintro ⟨l, x, y, r, hwaiting, hx, hy⟩
    have hlist : [⟨1, [100], 5⟩, ⟨2, [101], 6⟩] = l ++ x :: y :: r := hwaiting
    cases l with
    | nil =>
      cases hlist
      cases hy
    | cons z l =>
      have hlength := congrArg List.length hlist
      simp only [List.cons_append, List.length_append, List.length_cons, List.length_nil] at hlength
      omega
  · cases he

/-- A queued client gets its VM, another one takes it over, and the first leaves. -/
def takenRun : List Event :=
  [.accept 5, .client 5 (.lookUp [100]), .client 5 (.subscribeName 1), .connect 2,
    .vm 2 (.announce [100]), .vm 2 (.advance 0), .vm 2 (.advance 0), .vm 2 (.advance 0),
    .vm 2 (.advance 0), .vm 2 (.advance 0), .vm 2 (.advance 0), .vm 2 (.advance 0), .accept 6,
    .client 6 (.subscribeId (some 0)), .client 5 .leave, .client 5 (.cleanUp 0)]

/-- The other one loses the VM. -/
theorem takenRun_changes_other :
    ∃ s, stateAt step (some .initial) takenRun 15 = some s ∧
      ¬ LeavesOthers s 5 (stateAt step (some .initial) takenRun 16) := by
  refine ⟨_, rfl, ?_⟩
  rintro ⟨s', hs', hitems, -⟩
  cases hs'
  have hmem := hitems ⟨2, 0, some [100], 6⟩ (by decide) (by decide) fun hnone => (by cases hnone)
  exact absurd hmem (by decide)

end LoPhi.Server.Undisturbed
