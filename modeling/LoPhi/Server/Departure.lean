import LoPhi.Server.Connections

/-! # The departure of a client

What `lophi_connection` cleans up when its socket closes: if it ever queued the client, the VM
with the last filename loses its client, whoever that is, and the waiting clients with the
descriptor of the node it remembers are removed. A client that subscribed without queueing is not
cleaned up at all. -/

namespace LoPhi.Server.Departure
open LoPhi.Lib.Machine LoPhi.Server.Connections
open LoPhi.Server.ThreadItems (Item setForwardFd setDiskData vmId)
open LoPhi.Server.WaitingClients (Entry removeEntries)

/-! ## Departed clients -/

/-- The descriptor is closed, or nobody has subscribed with it since it was accepted. -/
def Departed (s : State) (fd : Int) : Prop :=
  ∀ c, s.clients fd = some c → c.subscribed = false

/-- A VM forwards to the descriptor, or it waits for one. -/
def Holds (s : State) (fd : Int) : Prop :=
  (∃ i ∈ s.items, i.forwardSocketFd = fd) ∨ ∃ e ∈ s.waiting, e.forwardSocketFd = fd

/-- Two neighbours in the list have the descriptor. -/
def Neighbours (waiting : List Entry) (fd : Int) : Prop :=
  ∃ l x y r, waiting = l ++ x :: y :: r ∧ x.forwardSocketFd = fd ∧ y.forwardSocketFd = fd

/-- The node at an address, if it is not freed. -/
def entryAt (s : State) (p : Nat) : Option Entry := s.waiting.find? fun e => e.address = p

/-- The head that was read is null or still the head, and no neighbours are removed. -/
def Removable (s : State) (removeSocketFd : Int) (head : Option Nat) : Prop :=
  head = none ∨ head = s.waitingHead ∧ ¬ Neighbours s.waiting removeSocketFd

/-- What the thread of a VM uses is there: the head that it has read, the node of the client that
it has found, and its own meta data. The client has not begun to leave when it is set. -/
def VmFinds (s : State) (i : Item) : VmPhase → Prop
  | .searching _ head => head = none ∨ head = s.waitingHead
  | .found p => ∃ e, entryAt s p = some e
  | .handing p forwardFd => ∃ e, entryAt s p = some e ∧ e.forwardSocketFd = forwardFd ∧
      ∀ c, s.clients forwardFd = some c → c.phase = .reading ∨ c.phase = .named
  | .handed p => ∃ e, entryAt s p = some e
  | .removing removeSocketFd head => Removable s removeSocketFd head
  | .ending => i.diskData ≠ none
  | _ => True

/-- What a client's cleanup uses is there: the node that it remembers, which is its own, and the
head that it has read. -/
def ClientFinds (s : State) (fd : Int) (c : Client) : ClientPhase → Prop
  | .unqueueing => ∀ p, c.waitingClient = some p →
      ∃ e, entryAt s p = some e ∧ e.forwardSocketFd = fd
  | .removing removeSocketFd head => Removable s removeSocketFd head
  | _ => True

/-- A client that leaves is found where it is: one that never waited has not subscribed, and to
one that has only the VM forwards that `get_vm_id` finds under its last filename. -/
def Found (s : State) : Event → Prop
  | .vm a (.advance _) => ∀ phase i, s.vms a = some phase → i ∈ s.items → i.address = a →
      VmFinds s i phase
  | .client fd .leave => ∀ c, s.clients fd = some c → c.phase = .reading → s.cleanup = none →
      (c.waitingClient = none → c.subscribed = false) ∧
      (c.waitingClient ≠ none → ∀ i ∈ s.items, i.forwardSocketFd = fd →
        i.threadId = vmId c.filename s.items)
  | .client fd (.cleanUp _) => ∀ c, s.clients fd = some c → ClientFinds s fd c c.phase
  | _ => True

section Lists
variable {s : State}

theorem readFd_eq {p : Nat} {e : Entry} (h : entryAt s p = some e) (junk : Int) :
    s.readFd p junk = e.forwardSocketFd := by
  unfold State.readFd
  unfold entryAt at h
  rw [h]

theorem waiting_of_head_eq_none (h : s.waitingHead = none) : s.waiting = [] :=
  List.map_eq_nil_iff.mp (List.head?_eq_none_iff.mp h)

/-- Looking for a waiting client is defined. -/
theorem getWaitingClient_isSome {head : Option Nat} (h : head = none ∨ head = s.waitingHead)
    (filename : List UInt8) : (s.getWaitingClient filename head).isSome := by
  unfold State.getWaitingClient
  rcases h with rfl | rfl
  · rfl
  · split
    · rfl
    · rw [if_pos rfl]
      rfl

/-- Without neighbours, removing is defined. -/
theorem removeEntries_eq {fd : Int} (h : ¬ Neighbours s.waiting fd) :
    removeEntries fd s.waiting = some (s.waiting.filter fun e => e.forwardSocketFd ≠ fd) := by
  have hok : WaitingClients.damages fd 1 false false s.waiting = false :=
    @WaitingClients.damages_eq_false fd 1 [] s.waiting false false
      (fun l x y r hwaiting hx hy => absurd ⟨l, x, y, r, hwaiting, hx, hy⟩ h)
      (fun hfalse => by cases hfalse) fun hfalse => by cases hfalse
  unfold removeEntries
  rw [hok]
  rfl

/-- What removing leaves: all clients where the list was empty when its head was read, and
otherwise those with another descriptor. -/
theorem removeWaitingClient_eq {fd : Int} {head : Option Nat} (h : Removable s fd head) :
    s.removeWaitingClient fd head = some { s with
      waiting := if head = none then s.waiting
        else s.waiting.filter fun e => e.forwardSocketFd ≠ fd } := by
  unfold State.removeWaitingClient
  rcases h with rfl | ⟨rfl, hapart⟩
  · rfl
  · split
    · rename_i hnone
      rw [if_pos hnone]
    · rename_i hsome
      rw [if_pos rfl, removeEntries_eq hapart, if_neg (by rw [hsome]; simp)]

end Lists

/-! ## Ids -/

/-- The ids of the VMs differ, and the next one is greater. -/
structure Numbered (items : List Item) (next : Int) : Prop where
  ids : (items.map Item.threadId).Nodup
  range : ∀ i ∈ items, 0 ≤ i.threadId ∧ i.threadId < next
  nonneg : 0 ≤ next

theorem Numbered.initial : Numbered [] 0 where
  ids := .nil
  range _ h := by cases h
  nonneg := Int.le_refl 0

section Numbered
variable {items : List Item} {next : Int}

/-- The items after `update_forward_fd`. -/
theorem Numbered.mem_setForwardFd (h : Numbered items next) {threadId forwardFd : Int} {j : Item}
    (hj : j ∈ setForwardFd threadId forwardFd items) :
    ∃ i ∈ items, j = { i with forwardSocketFd := j.forwardSocketFd } ∧
      (i.threadId = threadId ∧ j.forwardSocketFd = forwardFd ∨ i.threadId ≠ threadId ∧ j = i) := by
  rw [ThreadItems.setForwardFd_eq_map h.ids] at hj
  obtain ⟨i, hi, rfl⟩ := List.mem_map.mp hj
  refine ⟨i, hi, ?_⟩
  split
  · rename_i hid
    exact ⟨rfl, Or.inl ⟨hid, rfl⟩⟩
  · rename_i hid
    exact ⟨rfl, Or.inr ⟨hid, rfl⟩⟩

/-- The items after `update_meta_data`. -/
theorem mem_setDiskData {a : Nat} {filename : List UInt8} {j : Item}
    (hj : j ∈ setDiskData a filename items) :
    ∃ i ∈ items, i.address = a ∧ j = { i with diskData := some filename } ∨
      i.address ≠ a ∧ j = i := by
  obtain ⟨i, hi, rfl⟩ := List.mem_map.mp hj
  refine ⟨i, hi, ?_⟩
  split
  · rename_i ha
    exact Or.inl ⟨ha, rfl⟩
  · rename_i ha
    exact Or.inr ⟨ha, rfl⟩

theorem Numbered.setForwardFd (h : Numbered items next) (threadId forwardFd : Int) :
    Numbered (setForwardFd threadId forwardFd items) next where
  ids := by
    rw [ThreadItems.threadId_setForwardFd]
    exact h.ids
  range j hj := by
    obtain ⟨i, hi, heq, -⟩ := h.mem_setForwardFd hj
    rw [heq]
    exact h.range i hi
  nonneg := h.nonneg

theorem Numbered.setDiskData (h : Numbered items next) (a : Nat) (filename : List UInt8) :
    Numbered (setDiskData a filename items) next where
  ids := by
    have hids : (ThreadItems.setDiskData a filename items).map Item.threadId =
        items.map Item.threadId := by
      unfold ThreadItems.setDiskData
      rw [List.map_map]
      refine List.map_congr_left fun i _ => ?_
      simp only [Function.comp]
      split
      · rfl
      · rfl
    rw [hids]
    exact h.ids
  range j hj := by
    obtain ⟨i, hi, ⟨-, rfl⟩ | ⟨-, rfl⟩⟩ := mem_setDiskData hj
    · exact h.range i hi
    · exact h.range j hi
  nonneg := h.nonneg

theorem Numbered.filter (h : Numbered items next) (p : Item → Bool) :
    Numbered (items.filter p) next where
  ids := h.ids.sublist (List.filter_sublist.map _)
  range i hi := h.range i (List.mem_of_mem_filter hi)
  nonneg := h.nonneg

theorem Numbered.connect (h : Numbered items next) (a : Nat) :
    Numbered (items ++ [⟨a, next, none, -1⟩]) (next + 1) where
  ids := by
    rw [List.map_append]
    refine h.ids.append (List.nodup_singleton _) (List.disjoint_singleton.mpr fun hmem => ?_)
    obtain ⟨i, hi, hid⟩ := List.mem_map.mp hmem
    exact absurd hid (Int.ne_of_lt (h.range i hi).2)
  range i hi := by
    have hnext := h.nonneg
    rcases List.mem_append.mp hi with hi | hi
    · have hrange := h.range i hi
      exact ⟨hrange.1, Int.lt_add_one_of_le (Int.le_of_lt hrange.2)⟩
    · rw [List.mem_singleton.mp hi]
      exact ⟨hnext, Int.lt_succ _⟩
  nonneg := Int.le_add_one h.nonneg

end Numbered

/-! ## The invariant -/

/-- A VM may forward to the client: it has subscribed and not begun its cleanup, or that is
going to reset the VM. -/
def MayForward (c : Client) (threadId : Int) : Prop :=
  c.subscribed = true ∧
    (c.phase = .reading ∨ c.phase = .named ∨ c.phase = .unforwarding ∧ threadId = c.vmId)

/-- The client may be in the list. -/
def MayWait (c : Client) : Prop := c.subscribed = true ∧ c.phase ≠ .left

theorem MayForward.mayWait {c : Client} {threadId : Int} (h : MayForward c threadId) :
    MayWait c := by
  refine ⟨h.1, fun hleft => ?_⟩
  have hphase := h.2
  rw [hleft] at hphase
  simp at hphase

theorem MayForward.of_reading {c : Client} (h : c.phase = .reading ∨ c.phase = .named)
    (hsubscribed : c.subscribed = true) (threadId : Int) : MayForward c threadId := by
  rcases h with h | h
  · exact ⟨hsubscribed, Or.inl h⟩
  · exact ⟨hsubscribed, Or.inr (Or.inl h)⟩

/-- The descriptor is in the list, or a VM is about to put it there. -/
def Waits (s : State) (fd : Int) : Prop :=
  (∃ e ∈ s.waiting, e.forwardSocketFd = fd) ∨
    ∃ a filename, s.vms a = some (.requeueing filename fd)

/-- Somebody may put the descriptor in the list. -/
def Waiter (s : State) (fd : Int) : Prop := fd = -1 ∨ ∃ c, s.clients fd = some c ∧ MayWait c

/-- `remove_waiting_client` is called with the client's own descriptor, and finds it if it is in
the list. -/
def Ready (s : State) (fd : Int) : ClientPhase → Prop
  | .dequeueing removeSocketFd => removeSocketFd = fd
  | .removing removeSocketFd head => removeSocketFd = fd ∧
      (head = none → ∀ e ∈ s.waiting, e.forwardSocketFd ≠ fd)
  | _ => True

structure Invariant (s : State) : Prop where
  numbered : Numbered s.items s.curThreadId
  items : ∀ i ∈ s.items, i.forwardSocketFd = -1 ∨
    ∃ c, s.clients i.forwardSocketFd = some c ∧ MayForward c i.threadId
  waiting : ∀ fd, Waits s fd → Waiter s fd
  vmMutex : ∀ a phase, s.vms a = some phase → phase.holdsMutex = true →
    s.cleanup = some (.vm a)
  clientMutex : ∀ fd c, s.clients fd = some c → c.phase.holdsMutex = true →
    s.cleanup = some (.client fd)
  ready : ∀ fd c, s.clients fd = some c → Ready s fd c.phase

theorem Invariant.initial : Invariant .initial where
  numbered := .initial
  items _ h := by cases h
  waiting fd h := by
    rcases h with ⟨e, he, -⟩ | ⟨a, filename, ha⟩
    · cases he
    · cases ha
  vmMutex a phase h := by cases h
  clientMutex fd c h := by cases h
  ready fd c h := by cases h

section Step
variable {s : State}

/-- The client that a VM forwards to. -/
theorem Invariant.mayForward (h : Invariant s) {fd : Int} {c : Client}
    (hc : s.clients fd = some c) {i : Item} (hi : i ∈ s.items) (hfd : i.forwardSocketFd = fd)
    (hno : fd ≠ -1) : MayForward c i.threadId := by
  rcases h.items i hi with hnone | ⟨c', hc', hmay⟩
  · exact absurd (hfd.symm.trans hnone) hno
  · rw [hfd, hc] at hc'
    cases hc'
    exact hmay

/-- The client that waits. -/
theorem Invariant.mayWait (h : Invariant s) {fd : Int} {c : Client}
    (hc : s.clients fd = some c) (hwaits : Waits s fd) (hno : fd ≠ -1) : MayWait c := by
  rcases h.waiting fd hwaits with hnone | ⟨c', hc', hmay⟩
  · exact absurd hnone hno
  · rw [hc] at hc'
    cases hc'
    exact hmay

/-- Nobody else is in a cleanup. -/
theorem Invariant.alone (h : Invariant s) {holder : Option Holder} (hcleanup : s.cleanup = holder) :
    (∀ a phase, s.vms a = some phase → holder ≠ some (.vm a) → phase.holdsMutex = false) ∧
      ∀ fd c, s.clients fd = some c → holder ≠ some (.client fd) →
        c.phase.holdsMutex = false := by
  constructor
  · intro a phase hphase hother
    by_contra hholds
    exact hother (hcleanup ▸ h.vmMutex a phase hphase (Bool.not_eq_false _ ▸ hholds))
  · intro fd c hc hother
    by_contra hholds
    exact hother (hcleanup ▸ h.clientMutex fd c hc (Bool.not_eq_false _ ▸ hholds))

/-- A VM goes on outside its cleanup. -/
theorem Invariant.setVm (h : Invariant s) (a : Nat) {phase : VmPhase}
    (hphase : phase.holdsMutex = false) : Invariant (s.setVm a phase) where
  numbered := h.numbered
  items := h.items
  waiting fd hwaits := by
    refine h.waiting fd ?_
    rcases hwaits with hlist | ⟨b, filename, hb⟩
    · exact Or.inl hlist
    · refine Or.inr ⟨b, filename, ?_⟩
      change Function.update s.vms a (some phase) b = _ at hb
      by_cases hba : b = a
      · rw [hba, Function.update_self] at hb
        cases hb
        cases hphase
      · rwa [Function.update_of_ne hba] at hb
  vmMutex b other hb hholds := by
    change Function.update s.vms a (some phase) b = _ at hb
    by_cases hba : b = a
    · rw [hba, Function.update_self] at hb
      cases hb
      cases hphase.symm.trans hholds
    · rw [Function.update_of_ne hba] at hb
      exact h.vmMutex b other hb hholds
  clientMutex := h.clientMutex
  ready := h.ready

/-- A VM goes on within its cleanup. -/
theorem Invariant.setVm_holding (h : Invariant s) {a : Nat} {phase : VmPhase}
    (hmutex : s.cleanup = some (.vm a))
    (hwaiter : ∀ filename fd, phase = .requeueing filename fd → Waiter s fd) :
    Invariant (s.setVm a phase) where
  numbered := h.numbered
  items := h.items
  waiting fd hwaits := by
    rcases hwaits with hlist | ⟨b, filename, hb⟩
    · exact h.waiting fd (Or.inl hlist)
    · change Function.update s.vms a (some phase) b = _ at hb
      by_cases hba : b = a
      · rw [hba, Function.update_self] at hb
        cases hb
        exact hwaiter filename fd rfl
      · rw [Function.update_of_ne hba] at hb
        exact h.waiting fd (Or.inr ⟨b, filename, hb⟩)
  vmMutex b other hb hholds := by
    change Function.update s.vms a (some phase) b = _ at hb
    by_cases hba : b = a
    · rw [hba]
      exact hmutex
    · rw [Function.update_of_ne hba] at hb
      exact h.vmMutex b other hb hholds
  clientMutex := h.clientMutex
  ready := h.ready

/-- A client's variables change, and what holds its descriptor may still do so. -/
theorem Invariant.setClient (h : Invariant s) {fd : Int} {c : Client}
    (hitems : ∀ i ∈ s.items, i.forwardSocketFd = fd → fd ≠ -1 → MayForward c i.threadId)
    (hwaits : Waits s fd → fd ≠ -1 → MayWait c)
    (hmutex : c.phase.holdsMutex = true → s.cleanup = some (.client fd))
    (hready : Ready s fd c.phase) : Invariant (s.setClient fd c) where
  numbered := h.numbered
  items i hi := by
    show _ ∨ ∃ c', Function.update s.clients fd (some c) i.forwardSocketFd = some c' ∧ _
    by_cases hfd : i.forwardSocketFd = fd
    · by_cases hnone : fd = -1
      · exact Or.inl (hfd.trans hnone)
      · refine Or.inr ⟨c, ?_, hitems i hi hfd hnone⟩
        rw [hfd, Function.update_self]
    · rw [Function.update_of_ne hfd]
      exact h.items i hi
  waiting other hother := by
    show _ ∨ ∃ c', Function.update s.clients fd (some c) other = some c' ∧ _
    by_cases hfd : other = fd
    · rw [hfd] at hother ⊢
      by_cases hnone : fd = -1
      · exact Or.inl hnone
      · exact Or.inr ⟨c, Function.update_self _ _ _, hwaits hother hnone⟩
    · rw [Function.update_of_ne hfd]
      exact h.waiting other hother
  vmMutex := h.vmMutex
  clientMutex other c' hother hholds := by
    change Function.update s.clients fd (some c) other = _ at hother
    by_cases hfd : other = fd
    · rw [hfd, Function.update_self] at hother
      cases hother
      rw [hfd]
      exact hmutex hholds
    · rw [Function.update_of_ne hfd] at hother
      exact h.clientMutex other c' hother hholds
  ready other c' hother := by
    change Function.update s.clients fd (some c) other = _ at hother
    by_cases hfd : other = fd
    · rw [hfd, Function.update_self] at hother
      cases hother
      rw [hfd]
      exact hready
    · rw [Function.update_of_ne hfd] at hother
      exact h.ready other c' hother

/-- A client in its loop goes on as before. -/
theorem Invariant.keepClient (h : Invariant s) {fd : Int} {c c' : Client}
    (hc : s.clients fd = some c) (hphase : c'.phase = .reading ∨ c'.phase = .named)
    (hsubscribed : c.subscribed = true → c'.subscribed = true) :
    Invariant (s.setClient fd c') := by
  refine h.setClient (fun i hi hfd hno => ?_) (fun hwaits hno => ?_) (fun hholds => ?_) ?_
  · exact .of_reading hphase (hsubscribed (h.mayForward hc hi hfd hno).1) _
  · exact (MayForward.of_reading hphase (hsubscribed (h.mayWait hc hwaits hno).1) 0).mayWait
  · rcases hphase with hphase | hphase
    · rw [hphase] at hholds
      cases hholds
    · rw [hphase] at hholds
      cases hholds
  · rcases hphase with hphase | hphase
    · rw [hphase]
      trivial
    · rw [hphase]
      trivial

theorem Invariant.updateForwardFd (h : Invariant s) {threadId forwardFd : Int}
    (hfd : forwardFd = -1 ∨ ∀ i ∈ s.items, i.threadId = threadId →
      ∃ c, s.clients forwardFd = some c ∧ MayForward c threadId) :
    Invariant (s.updateForwardFd threadId forwardFd) where
  numbered := h.numbered.setForwardFd threadId forwardFd
  items j hj := by
    obtain ⟨i, hi, heq, ⟨hthread, hforward⟩ | ⟨-, rfl⟩⟩ := h.numbered.mem_setForwardFd hj
    · have hid : j.threadId = threadId := by
        rw [heq]
        exact hthread
      rw [hforward, hid]
      exact hfd.imp_right fun hfd => hfd i hi hthread
    · exact h.items j hi
  waiting := h.waiting
  vmMutex := h.vmMutex
  clientMutex := h.clientMutex
  ready := h.ready

/-- A client is put in the list, and is not in its cleanup. -/
theorem Invariant.createWaitingClient (h : Invariant s) (b : Nat) (filename : List UInt8)
    {fd : Int} (hwaiter : Waiter s fd)
    (hquiet : ∀ c, s.clients fd = some c → c.phase.holdsMutex = false) :
    Invariant (s.createWaitingClient b filename fd) where
  numbered := h.numbered
  items := h.items
  waiting other hother := by
    rcases hother with ⟨e, he, hfd⟩ | hvm
    · rcases List.mem_append.mp he with he | he
      · exact h.waiting other (Or.inl ⟨e, he, hfd⟩)
      · rw [List.mem_singleton.mp he] at hfd
        exact hfd ▸ hwaiter
    · exact h.waiting other (Or.inr hvm)
  vmMutex := h.vmMutex
  clientMutex := h.clientMutex
  ready other c hc := by
    have hready := h.ready other c hc
    cases hphase : c.phase with
    | removing removeSocketFd head =>
      rw [hphase] at hready
      refine ⟨hready.1, fun hhead e he hfd => ?_⟩
      rcases List.mem_append.mp he with he | he
      · exact hready.2 hhead e he hfd
      · rw [List.mem_singleton.mp he] at hfd
        have hholds := hquiet c ((show fd = other from hfd) ▸ hc)
        rw [hphase] at hholds
        cases hholds
    | _ => rwa [hphase] at hready

theorem Invariant.subset (h : Invariant s) {waiting : List Entry} (hsub : waiting ⊆ s.waiting) :
    Invariant { s with waiting := waiting } where
  numbered := h.numbered
  items := h.items
  waiting other hother := by
    rcases hother with ⟨e, he, hfd⟩ | hvm
    · exact h.waiting other (Or.inl ⟨e, hsub he, hfd⟩)
    · exact h.waiting other (Or.inr hvm)
  vmMutex := h.vmMutex
  clientMutex := h.clientMutex
  ready other c hc := by
    have hready := h.ready other c hc
    cases hphase : c.phase with
    | removing removeSocketFd head =>
      rw [hphase] at hready
      exact ⟨hready.1, fun hhead e he => hready.2 hhead e (hsub he)⟩
    | _ => rwa [hphase] at hready

/-- `remove_waiting_client`, where it is defined. -/
theorem Invariant.removeWaitingClient (h : Invariant s) {fd : Int} {head : Option Nat}
    (hremovable : Removable s fd head) :
    ∃ s', s.removeWaitingClient fd head = some s' ∧ Invariant s' := by
  refine ⟨_, removeWaitingClient_eq hremovable, h.subset ?_⟩
  split
  · exact List.Subset.refl _
  · exact List.filter_sublist.subset

/-- A thread takes `lophi_cleanup_mutex`. -/
theorem Invariant.acquire (h : Invariant s) (hnone : s.cleanup = none) (holder : Holder) :
    Invariant { s with cleanup := some holder } where
  numbered := h.numbered
  items := h.items
  waiting := h.waiting
  vmMutex a phase hphase hholds := by
    cases hholds.symm.trans ((h.alone hnone).1 a phase hphase (by simp))
  clientMutex fd c hc hholds := by
    cases hholds.symm.trans ((h.alone hnone).2 fd c hc (by simp))
  ready := h.ready

/-- A thread that has gone on leaves the mutex. -/
theorem Invariant.release (h : Invariant s)
    (hvms : ∀ a phase, s.vms a = some phase → phase.holdsMutex = false)
    (hclients : ∀ fd c, s.clients fd = some c → c.phase.holdsMutex = false) :
    Invariant { s with cleanup := none } where
  numbered := h.numbered
  items := h.items
  waiting := h.waiting
  vmMutex a phase hphase hholds := by cases hholds.symm.trans (hvms a phase hphase)
  clientMutex fd c hc hholds := by cases hholds.symm.trans (hclients fd c hc)
  ready := h.ready

/-! ## VMs -/

theorem Invariant.announce (h : Invariant s) (a : Nat) (filename : List UInt8) :
    Invariant { s with items := setDiskData a filename s.items } where
  numbered := h.numbered.setDiskData a filename
  items j hj := by
    obtain ⟨i, hi, ⟨-, rfl⟩ | ⟨-, rfl⟩⟩ := mem_setDiskData hj
    · exact h.items i hi
    · exact h.items j hi
  waiting := h.waiting
  vmMutex := h.vmMutex
  clientMutex := h.clientMutex
  ready := h.ready

/-- A VM with a client takes the mutex. -/
theorem Invariant.disconnect (h : Invariant s) (a : Nat) (i : Item) :
    Invariant (disconnect s a i) := by
  unfold Connections.disconnect
  split
  · rename_i hnone
    split
    · exact (h.acquire hnone (.vm a)).setVm_holding rfl fun filename fd hfalse => (by cases hfalse)
    · exact h.setVm a rfl
  · exact h

/-- The client waits again, and the mutex is free. -/
theorem Invariant.requeue (h : Invariant s) {a : Nat} (b : Nat) {filename : List UInt8} {fd : Int}
    (hphase : s.vms a = some (.requeueing filename fd)) :
    Invariant (requeue s a b filename fd) := by
  have hmutex := h.vmMutex a _ hphase rfl
  obtain ⟨hvms, hclients⟩ := h.alone hmutex
  unfold Connections.requeue
  split
  · have hcreate := h.createWaitingClient b filename (h.waiting fd (Or.inr ⟨a, filename, hphase⟩))
      fun c hc => hclients fd c hc (by simp)
    have hset := hcreate.setVm a (show VmPhase.ended.holdsMutex = false from rfl)
    refine hset.release (fun b' phase hb' => ?_) fun fd' c hc => hclients fd' c hc (by simp)
    change Function.update s.vms a (some .ended) b' = _ at hb'
    by_cases hba : b' = a
    · rw [hba, Function.update_self] at hb'
      cases hb'
      rfl
    · rw [Function.update_of_ne hba] at hb'
      refine hvms b' phase hb' fun hsame => hba ?_
      cases hsame
      rfl
  · exact h

theorem Invariant.remove (h : Invariant s) (a : Nat) :
    Invariant { s with
      items := s.items.filter fun i => i.address ≠ a
      vms := Function.update s.vms a none } where
  numbered := h.numbered.filter _
  items i hi := h.items i (List.mem_of_mem_filter hi)
  waiting fd hwaits := by
    refine h.waiting fd (hwaits.imp_right ?_)
    rintro ⟨b, filename, hb⟩
    refine ⟨b, filename, ?_⟩
    change Function.update s.vms a none b = _ at hb
    by_cases hba : b = a
    · rw [hba, Function.update_self] at hb
      cases hb
    · rwa [Function.update_of_ne hba] at hb
  vmMutex b phase hb hholds := by
    change Function.update s.vms a none b = _ at hb
    by_cases hba : b = a
    · rw [hba, Function.update_self] at hb
      cases hb
    · rw [Function.update_of_ne hba] at hb
      exact h.vmMutex b phase hb hholds
  clientMutex := h.clientMutex
  ready := h.ready

/-- The client that is handed over has subscribed and not begun to leave. -/
theorem Invariant.handOver (h : Invariant s) {p : Nat} {fd : Int} (threadId : Int)
    (hfinds : ∃ e, entryAt s p = some e ∧ e.forwardSocketFd = fd ∧
      ∀ c, s.clients fd = some c → c.phase = .reading ∨ c.phase = .named) :
    Invariant (s.updateForwardFd threadId fd) := by
  obtain ⟨e, he, hfd, hreading⟩ := hfinds
  have hwaits : Waits s fd := Or.inl ⟨e, List.mem_of_find?_eq_some he, hfd⟩
  refine h.updateForwardFd ?_
  rcases h.waiting fd hwaits with hnone | ⟨c, hc, hmay⟩
  · exact Or.inl hnone
  · exact Or.inr fun _ _ _ => ⟨c, hc, .of_reading (hreading c hc) hmay.1 threadId⟩

theorem Invariant.advance (h : Invariant s) {a : Nat} {i : Item} {phase : VmPhase}
    (hphase : s.vms a = some phase) (hi : i ∈ s.items) (hfinds : VmFinds s i phase) (junk : Int) :
    ∃ s', advance s a i junk phase = some s' ∧ Invariant s' := by
  unfold Connections.advance
  split
  · exact ⟨_, rfl, h.setVm a rfl⟩
  · rename_i filename head
    obtain ⟨rtn, hrtn⟩ := Option.isSome_iff_exists.mp (getWaitingClient_isSome hfinds filename)
    rw [hrtn]
    cases rtn with
    | none => exact ⟨_, rfl, h.setVm a rfl⟩
    | some p => exact ⟨_, rfl, h.setVm a rfl⟩
  · exact ⟨_, rfl, h.setVm a rfl⟩
  · exact ⟨_, rfl, (h.handOver i.threadId hfinds).setVm a rfl⟩
  · exact ⟨_, rfl, h.setVm a rfl⟩
  · exact ⟨_, rfl, h.setVm a rfl⟩
  · obtain ⟨s', hs', hinv⟩ := h.removeWaitingClient hfinds
    rw [hs']
    exact ⟨_, rfl, hinv.setVm a rfl⟩
  · split
    · rename_i hnone
      exact absurd hnone hfinds
    · refine ⟨_, rfl, h.setVm_holding (h.vmMutex a _ hphase rfl) fun filename fd heq => ?_⟩
      cases heq
      rcases h.items i hi with hnone | ⟨c, hc, hmay⟩
      · exact Or.inl hnone
      · exact Or.inr ⟨c, hc, hmay.mayWait⟩
  · exact ⟨s, rfl, h⟩

theorem Invariant.vmAct (h : Invariant s) {a : Nat} {i : Item} {phase : VmPhase}
    (hphase : s.vms a = some phase) (hi : i ∈ s.items) (ha : i.address = a) {action : VmAction}
    (hfound : Found s (.vm a action)) :
    ∃ s', vmAct s a i phase action = some s' ∧ Invariant s' := by
  cases action with
  | announce filename =>
    simp only [Connections.vmAct]
    split
    · exact ⟨_, rfl, (h.announce a filename).setVm a rfl⟩
    · exact ⟨s, rfl, h⟩
  | advance junk => exact h.advance hphase hi (hfound phase i hphase hi ha) junk
  | sendFailed =>
    simp only [Connections.vmAct]
    split
    · exact ⟨_, rfl, h.updateForwardFd (Or.inl rfl)⟩
    · exact ⟨s, rfl, h⟩
  | disconnect =>
    simp only [Connections.vmAct]
    split
    · exact ⟨_, rfl, h.disconnect a i⟩
    · exact ⟨_, rfl, h.disconnect a i⟩
    · exact ⟨s, rfl, h⟩
  | requeue b =>
    simp only [Connections.vmAct]
    split
    · exact ⟨_, rfl, h.requeue b hphase⟩
    · exact ⟨s, rfl, h⟩
  | remove =>
    simp only [Connections.vmAct]
    split
    · exact ⟨_, rfl, h.remove a⟩
    · exact ⟨s, rfl, h⟩

/-! ## Clients -/

section Client
variable {fd : Int} {c : Client}

theorem clients_setClient (s : State) (fd : Int) (c : Client) :
    (s.setClient fd c).clients fd = some c := Function.update_self _ _ _

theorem hasVm_of_mem {i : Item} (hi : i ∈ s.items) : s.hasVm i.threadId = true :=
  List.any_eq_true.mpr ⟨i, hi, decide_eq_true rfl⟩

/-- A client subscribes to a VM, if it is there. -/
theorem Invariant.subscribe (h : Invariant s) (hc : s.clients fd = some c) {threadId : Int}
    {c' : Client} (hphase : c'.phase = .reading)
    (hsubscribed : c'.subscribed = (c.subscribed || s.hasVm threadId)) :
    Invariant ((s.updateForwardFd threadId fd).setClient fd c') := by
  have hset : Invariant (s.setClient fd c') := by
    refine h.keepClient hc (Or.inl hphase) fun hbefore => ?_
    rw [hsubscribed, hbefore, Bool.true_or]
  refine hset.updateForwardFd (Or.inr fun i hi hid => ⟨c', clients_setClient s fd c', ?_⟩)
  refine .of_reading (Or.inl hphase) ?_ threadId
  rw [hsubscribed, ← hid, @hasVm_of_mem s i hi, Bool.or_true]

theorem Invariant.subscribeId (h : Invariant s) (hc : s.clients fd = some c)
    (hphase : c.phase = .reading) (parsed : Option Int) :
    Invariant (subscribeId s fd c parsed) := by
  unfold Connections.subscribeId
  simp only
  split
  · exact h.subscribe hc hphase rfl
  · exact h.keepClient hc (Or.inl hphase) fun hsubscribed => hsubscribed

theorem Invariant.subscribeName (h : Invariant s) (hc : s.clients fd = some c) (b : Nat) :
    Invariant (subscribeName s fd c b) := by
  unfold Connections.subscribeName
  split
  · exact h.subscribe hc rfl rfl
  · split
    · have hset : Invariant (s.setClient fd
          { c with waitingClient := some b, phase := .reading, subscribed := true }) :=
        h.keepClient hc (Or.inl rfl) fun _ => rfl
      refine hset.createWaitingClient b c.filename ?_ fun c' hc' => ?_
      · exact Or.inr ⟨_, clients_setClient s fd _, rfl, by simp⟩
      · rw [clients_setClient] at hc'
        cases hc'
        rfl
    · exact h

/-- A client that never waited holds nothing, and any other takes the mutex. -/
theorem Invariant.leave (h : Invariant s) (hc : s.clients fd = some c)
    (hphase : c.phase = .reading) (hfound : Found s (.client fd .leave)) :
    Invariant (leave s fd c) := by
  unfold Connections.leave
  split
  · rename_i hmutex
    obtain ⟨hnothing, honly⟩ := hfound c hc hphase hmutex
    split
    · rename_i hnone
      refine h.setClient (fun i hi hfd hno => ?_) (fun hwaits hno => ?_)
        (fun hholds => by cases hholds) trivial
      · cases (hnothing hnone).symm.trans (h.mayForward hc hi hfd hno).1
      · cases (hnothing hnone).symm.trans (h.mayWait hc hwaits hno).1
    · rename_i p hp
      refine (h.acquire hmutex (.client fd)).setClient (fun i hi hfd hno => ?_)
        (fun hwaits hno => ⟨(h.mayWait hc hwaits hno).1, by simp⟩) (fun _ => rfl) trivial
      refine ⟨(h.mayForward hc hi hfd hno).1, Or.inr (Or.inr ⟨rfl, honly ?_ i hi hfd⟩)⟩
      rw [hp]
      simp
  · exact h

/-- After `update_forward_fd` no VM forwards to the client. -/
theorem Invariant.unforward (h : Invariant s) (hc : s.clients fd = some c)
    (hphase : c.phase = .unforwarding) :
    Invariant ((if c.vmId ≠ -1 then s.updateForwardFd c.vmId (-1) else s).setClient fd
      { c with phase := .unqueueing }) := by
  have honly : ∀ i ∈ s.items, i.forwardSocketFd = fd → fd ≠ -1 → i.threadId = c.vmId := by
    intro i hi hfd hno
    have hmay := (h.mayForward hc hi hfd hno).2
    rw [hphase] at hmay
    rcases hmay with hmay | hmay | ⟨-, hid⟩
    · cases hmay
    · cases hmay
    · exact hid
  have hmutex : s.cleanup = some (.client fd) := h.clientMutex fd c hc (by rw [hphase]; rfl)
  have hwaiting : Waits s fd → fd ≠ -1 → MayWait { c with phase := .unqueueing } :=
    fun hwaits hno => ⟨(h.mayWait hc hwaits hno).1, by simp⟩
  split
  · refine (h.updateForwardFd (Or.inl rfl)).setClient (fun j hj hfd hno => ?_) hwaiting
      (fun _ => hmutex) trivial
    obtain ⟨i, hi, -, ⟨-, hreset⟩ | ⟨hother, rfl⟩⟩ := h.numbered.mem_setForwardFd hj
    · exact absurd (hfd.symm.trans hreset) hno
    · exact absurd (honly j hi hfd hno) hother
  · rename_i hvm
    refine h.setClient (fun i hi hfd hno => ?_) hwaiting (fun _ => hmutex) trivial
    have hid := honly i hi hfd hno
    have hrange := h.numbered.range i hi
    omega

/-- Behind it, the client goes on with its cleanup. -/
theorem Invariant.goOn (h : Invariant s) (hc : s.clients fd = some c)
    (hholds : c.phase.holdsMutex = true) (hbehind : c.phase ≠ .unforwarding) {phase : ClientPhase}
    (hnext : phase.holdsMutex = true) (hready : Ready s fd phase) :
    Invariant (s.setClient fd { c with phase := phase }) := by
  have hmutex := h.clientMutex fd c hc hholds
  refine h.setClient (fun i hi hfd hno => ?_) (fun hwaits hno => ?_) (fun _ => hmutex) hready
  · have hmay := (h.mayForward hc hi hfd hno).2
    rcases hmay with hmay | hmay | ⟨hmay, -⟩
    · rw [hmay] at hholds
      cases hholds
    · rw [hmay] at hholds
      cases hholds
    · exact absurd hmay hbehind
  · refine ⟨(h.mayWait hc hwaits hno).1, fun hleft => ?_⟩
    cases hleft
    cases hnext

/-- After `remove_waiting_client` nothing holds the descriptor, and the mutex is free. -/
theorem Invariant.unqueue (h : Invariant s) (hc : s.clients fd = some c) {removeSocketFd : Int}
    {head : Option Nat} (hphase : c.phase = .removing removeSocketFd head)
    (hremovable : Removable s removeSocketFd head) :
    ∃ s', s.removeWaitingClient removeSocketFd head = some s' ∧
      Invariant ({ s' with cleanup := none }.setClient fd { c with phase := .left }) := by
  have hholds : c.phase.holdsMutex = true := by rw [hphase]; rfl
  have hmutex := h.clientMutex fd c hc hholds
  obtain ⟨hvms, hclients⟩ := h.alone hmutex
  have hready := h.ready fd c hc
  rw [hphase] at hready
  obtain ⟨rfl, hnone⟩ := hready
  obtain ⟨s', hs', hinv⟩ := h.removeWaitingClient hremovable
  have hs := hs'
  rw [removeWaitingClient_eq hremovable] at hs
  cases hs
  refine ⟨_, hs', ?_⟩
  have hwaits : ¬ Waits { s with
      waiting := if head = none then s.waiting
        else s.waiting.filter fun e => e.forwardSocketFd ≠ removeSocketFd } removeSocketFd := by
    rintro (⟨e, he, hfd⟩ | ⟨a, filename, ha⟩)
    · change e ∈ (if head = none then s.waiting else _) at he
      split at he
      · rename_i hhead
        exact hnone hhead e he hfd
      · exact of_decide_eq_true (List.mem_filter.mp he).2 hfd
    · have hquiet := hvms a _ ha (by simp)
      cases hquiet
  have hset : Invariant (State.setClient _ removeSocketFd { c with phase := .left }) :=
    hinv.setClient (fun i hi hfd hno => ?_) (fun hyes _ => absurd hyes hwaits)
      (fun hfalse => by cases hfalse) trivial
  · refine hset.release (fun a phase ha => hvms a phase ha (by simp)) fun other c' hother => ?_
    change Function.update s.clients removeSocketFd _ other = _ at hother
    by_cases hfd : other = removeSocketFd
    · rw [hfd, Function.update_self] at hother
      cases hother
      rfl
    · rw [Function.update_of_ne hfd] at hother
      refine hclients other c' hother fun hsame => hfd ?_
      cases hsame
      rfl
  · have hmay := (h.mayForward hc hi hfd hno).2
    rw [hphase] at hmay
    simp at hmay

theorem Invariant.cleanUp (h : Invariant s) (hc : s.clients fd = some c)
    (hfinds : ClientFinds s fd c c.phase) (junk : Int) :
    ∃ s', cleanUp s fd c junk = some s' ∧ Invariant s' := by
  unfold Connections.cleanUp
  split
  · rename_i hphase
    exact ⟨_, rfl, h.unforward hc hphase⟩
  · rename_i hphase
    split
    · exact ⟨s, rfl, h⟩
    · rename_i p hp
      rw [hphase] at hfinds
      obtain ⟨e, he, hown⟩ := hfinds p hp
      refine ⟨_, rfl, h.goOn hc (by rw [hphase]; rfl) (by simp [hphase]) rfl ?_⟩
      exact (readFd_eq he junk).trans hown
  · rename_i removeSocketFd hphase
    have hready := h.ready fd c hc
    rw [hphase] at hready
    refine ⟨_, rfl, h.goOn hc (by rw [hphase]; rfl) (by simp [hphase]) rfl ⟨hready, ?_⟩⟩
    intro hhead e he
    rw [waiting_of_head_eq_none hhead] at he
    cases he
  · rename_i removeSocketFd head hphase
    rw [hphase] at hfinds
    obtain ⟨s', hs', hinv⟩ := h.unqueue hc hphase hfinds
    rw [hs']
    exact ⟨_, rfl, hinv⟩
  · exact ⟨s, rfl, h⟩

theorem Invariant.close (h : Invariant s) (hc : s.clients fd = some c) (hphase : c.phase = .left) :
    Invariant { s with clients := Function.update s.clients fd none } where
  numbered := h.numbered
  items i hi := by
    rcases h.items i hi with hnone | ⟨c', hc', hmay⟩
    · exact Or.inl hnone
    · refine Or.inr ⟨c', ?_, hmay⟩
      show Function.update s.clients fd none i.forwardSocketFd = some c'
      rw [Function.update_of_ne]
      · exact hc'
      · intro hfd
        rw [hfd, hc] at hc'
        cases hc'
        exact hmay.mayWait.2 hphase
  waiting other hother := by
    rcases h.waiting other hother with hnone | ⟨c', hc', hmay⟩
    · exact Or.inl hnone
    · refine Or.inr ⟨c', ?_, hmay⟩
      show Function.update s.clients fd none other = some c'
      rw [Function.update_of_ne]
      · exact hc'
      · intro hfd
        rw [hfd, hc] at hc'
        cases hc'
        exact hmay.2 hphase
  vmMutex := h.vmMutex
  clientMutex other c' hother hholds := by
    change Function.update s.clients fd none other = _ at hother
    by_cases hfd : other = fd
    · rw [hfd, Function.update_self] at hother
      cases hother
    · rw [Function.update_of_ne hfd] at hother
      exact h.clientMutex other c' hother hholds
  ready other c' hother := by
    change Function.update s.clients fd none other = _ at hother
    by_cases hfd : other = fd
    · rw [hfd, Function.update_self] at hother
      cases hother
    · rw [Function.update_of_ne hfd] at hother
      exact h.ready other c' hother

theorem Invariant.clientAct (h : Invariant s) (hc : s.clients fd = some c) {action : ClientAction}
    (hfound : Found s (.client fd action)) :
    ∃ s', clientAct s fd c action = some s' ∧ Invariant s' := by
  cases action with
  | subscribeId parsed =>
    simp only [Connections.clientAct]
    split
    · rename_i hphase
      exact ⟨_, rfl, h.subscribeId hc hphase parsed⟩
    · exact ⟨s, rfl, h⟩
  | lookUp filename =>
    simp only [Connections.clientAct]
    split
    · exact ⟨_, rfl, h.keepClient hc (Or.inr rfl) fun hsubscribed => hsubscribed⟩
    · exact ⟨s, rfl, h⟩
  | subscribeName b =>
    simp only [Connections.clientAct]
    split
    · exact ⟨_, rfl, h.subscribeName hc b⟩
    · exact ⟨s, rfl, h⟩
  | leave =>
    simp only [Connections.clientAct]
    split
    · rename_i hphase
      exact ⟨_, rfl, h.leave hc hphase hfound⟩
    · exact ⟨s, rfl, h⟩
  | cleanUp junk => exact h.cleanUp hc (hfound c hc) junk
  | close =>
    simp only [Connections.clientAct]
    split
    · rename_i hphase
      exact ⟨_, rfl, h.close hc hphase⟩
    · exact ⟨s, rfl, h⟩

end Client

theorem Invariant.connect (h : Invariant s) (a : Nat) :
    Invariant { s with
      items := s.items ++ [⟨a, s.curThreadId, none, -1⟩]
      curThreadId := s.curThreadId + 1 } where
  numbered := h.numbered.connect a
  items i hi := by
    rcases List.mem_append.mp hi with hi | hi
    · exact h.items i hi
    · rw [List.mem_singleton.mp hi]
      exact Or.inl rfl
  waiting := h.waiting
  vmMutex := h.vmMutex
  clientMutex := h.clientMutex
  ready := h.ready

theorem Invariant.act (h : Invariant s) {e : Event} (hfound : Found s e) :
    ∃ s', act s e = some s' ∧ Invariant s' := by
  cases e with
  | connect a =>
    simp only [Connections.act]
    split
    · exact ⟨s, rfl, h⟩
    · exact ⟨_, rfl, (h.connect a).setVm a rfl⟩
  | accept fd =>
    simp only [Connections.act]
    split
    · rename_i hnew
      refine ⟨_, rfl, h.setClient (fun i hi hfd hno => ?_) (fun hwaits hno => ?_)
        (fun hfalse => by cases hfalse) trivial⟩
      · rcases h.items i hi with hnone | ⟨c, hc, -⟩
        · exact absurd (hfd.symm.trans hnone) hno
        · rw [hfd, hnew.2] at hc
          cases hc
      · rcases h.waiting fd hwaits with hnone | ⟨c, hc, -⟩
        · exact absurd hnone hno
        · rw [hnew.2] at hc
          cases hc
    · exact ⟨s, rfl, h⟩
  | vm a action =>
    simp only [Connections.act]
    split
    · rename_i phase i hphase hi
      have ha : i.address = a := by simpa using List.find?_some hi
      exact h.vmAct hphase (List.mem_of_find?_eq_some hi) ha hfound
    · exact ⟨s, rfl, h⟩
  | client fd action =>
    simp only [Connections.act]
    split
    · rename_i c hc
      exact h.clientAct hc hfound
    · exact ⟨s, rfl, h⟩

end Step

/-- **Nothing holds a departed client's descriptor as long as clients that leave are found**: in
every run whose steps all meet the condition, no VM forwards to a descriptor that is closed, or
with which nobody has subscribed since, and no waiting client has it. -/
theorem departed_holds_nothing (events : List Event)
    (hfound : ∀ k e s, events[k]? = some e → stateAt step (some .initial) events k = some s →
      Found s e) (k : Nat) (hk : k ≤ events.length) :
    ∃ s, stateAt step (some .initial) events k = some s ∧
      ∀ fd, 0 ≤ fd → Departed s fd → ¬ Holds s fd := by
  have hinv : ∃ s, stateAt step (some .initial) events k = some s ∧ Invariant s := by
    refine stateAt_invariant (fun t => ∃ s, t = some s ∧ Invariant s) ⟨_, rfl, .initial⟩
      (fun k e he h => ?_) k hk
    obtain ⟨s, hs, hinv⟩ := h
    obtain ⟨s', hact, hinv'⟩ := hinv.act (hfound k e s he hs)
    refine ⟨s', ?_, hinv'⟩
    rw [stateAt_succ he, hs, step, Option.bind_some, hact]
  obtain ⟨s, hs, hinv⟩ := hinv
  refine ⟨s, hs, fun fd hfd hdeparted hholds => ?_⟩
  rcases hholds with ⟨i, hi, rfl⟩ | ⟨e, he, rfl⟩
  · rcases hinv.items i hi with hnone | ⟨c, hc, hmay⟩
    · omega
    · cases (hdeparted c hc).symm.trans hmay.1
  · rcases hinv.waiting _ (Or.inl ⟨e, he, rfl⟩) with hnone | ⟨c, hc, hmay⟩
    · omega
    · cases (hdeparted c hc).symm.trans hmay.1

/-- A client that waits for a VM and leaves. -/
def patientRun : List Event :=
  [.accept 5, .client 5 (.lookUp [100]), .client 5 (.subscribeName 1), .client 5 .leave,
    .client 5 (.cleanUp 0), .client 5 (.cleanUp 0), .client 5 (.cleanUp 0),
    .client 5 (.cleanUp 0), .client 5 .close]

/-- One client is not two neighbours. -/
theorem not_neighbours_single (e : Entry) (fd : Int) : ¬ Neighbours [e] fd := by
  rintro ⟨l, x, y, r, hwaiting, -⟩
  have hlength := congrArg List.length hwaiting
  simp only [List.length_append, List.length_cons, List.length_nil] at hlength
  omega

theorem departed_holds_nothing_patientRun :
    ∃ s, stateAt step (some .initial) patientRun 9 = some s ∧
      ∀ fd, 0 ≤ fd → Departed s fd → ¬ Holds s fd := by
  refine departed_holds_nothing patientRun (fun k e s he hs => ?_) 9 (by decide)
  rcases k with _ | _ | _ | _ | _ | _ | _ | _ | _ | k
  · cases he
    trivial
  · cases he
    trivial
  · cases he
    trivial
  · cases he
    cases hs
    intro c hc hphase hmutex
    cases hc
    exact ⟨fun hnone => (by cases hnone), fun _ i hi => (by cases hi)⟩
  · cases he
    cases hs
    intro c hc
    cases hc
    trivial
  · cases he
    cases hs
    intro c hc
    cases hc
    intro p hp
    cases hp
    exact ⟨⟨1, [100], 5⟩, rfl, rfl⟩
  · cases he
    cases hs
    intro c hc
    cases hc
    trivial
  · cases he
    cases hs
    intro c hc
    cases hc
    exact Or.inr ⟨rfl, not_neighbours_single ⟨1, [100], 5⟩ 5⟩
  · cases he
    trivial
  · cases he

/-- A client subscribes to a VM by its id and leaves. -/
def hastyRun : List Event :=
  [.connect 1, .vm 1 (.announce [100]), .vm 1 (.advance 0), .vm 1 (.advance 0), .accept 5,
    .client 5 (.subscribeId (some 0)), .client 5 .leave, .client 5 .close]

/-- The VM goes on forwarding to it. -/
theorem hastyRun_holds :
    ¬ ∃ s, stateAt step (some .initial) hastyRun 8 = some s ∧
      ∀ fd, 0 ≤ fd → Departed s fd → ¬ Holds s fd := by
  rintro ⟨s, hs, hnone⟩
  cases hs
  refine hnone 5 (by decide) (fun c hc => by cases hc) (Or.inl ⟨⟨1, 0, some [100], 5⟩, ?_, rfl⟩)
  decide

end LoPhi.Server.Departure
