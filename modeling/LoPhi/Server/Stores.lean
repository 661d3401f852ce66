import Mathlib.Algebra.Order.Ring.Int
import LoPhi.Server.Connections

/-! # The lists of the server in memory

`Connections` has the two lists of the server as lists. Here they are in memory, where each step
of a thread is one call of a function of `dis_threads.c` or `dis_client.c` (from where it has the
mutex), or none. -/

namespace LoPhi.Server.Stores
open LoPhi.Server.Connections
open LoPhi.Server.ThreadItems (Item)

structure Memory where
  threads : ThreadItems.Store
  queue : WaitingClients.Store

def Memory.initial : Memory := ⟨.initial, .initial⟩

/-- The lists of a state are in memory. -/
structure InMemory (m : Memory) (s : State) : Prop where
  items : ThreadItems.Represents m.threads s.items
  waiting : WaitingClients.Represents m.queue s.waiting
  next : m.threads.curThreadId = s.curThreadId
  nonneg : 0 ≤ s.curThreadId

theorem InMemory.initial : InMemory .initial .initial :=
  ⟨.initial, .initial, rfl, Int.le_refl 0⟩

/-- The rest of `get_waiting_client`, which has read `head`. A node that was the head and is not
any more is freed. -/
def getWaitingClient (filename : List UInt8) (head : Option Nat) (queue : WaitingClients.Store) :
    Option (Option Nat) :=
  match head with
  | none => some none
  | some _ =>
    if head = queue.waitingHead then WaitingClients.getWaitingClient filename queue else none

/-- The rest of `remove_waiting_client`, which has read `head`. -/
def removeWaitingClient (removeSocketFd : Int) (head : Option Nat)
    (queue : WaitingClients.Store) : Option WaitingClients.Store :=
  match head with
  | none => some queue
  | some _ =>
    if head = queue.waitingHead then WaitingClients.removeWaitingClient removeSocketFd 1 queue
    else none

/-- What a step does in memory: nothing, or one call. -/
inductive Made : Memory → Memory → Prop where
  | nothing (m : Memory) : Made m m
  | createThreadItem {m : Memory} {a : Nat} {threads : ThreadItems.Store}
    (h : ThreadItems.createThreadItem a m.threads = some threads) : Made m ⟨threads, m.queue⟩
  | removeThreadItem {m : Memory} {a : Nat} {threads : ThreadItems.Store}
    (h : ThreadItems.removeThreadItem a m.threads = some threads) : Made m ⟨threads, m.queue⟩
  | updateMetaData {m : Memory} {a : Nat} {filename : List UInt8} {threads : ThreadItems.Store}
    (h : ThreadItems.updateMetaData a filename m.threads = some threads) :
    Made m ⟨threads, m.queue⟩
  | updateForwardFd {m : Memory} {threadId forwardFd : Int} {threads : ThreadItems.Store}
    (h : ThreadItems.updateForwardFd threadId forwardFd m.threads = some threads) :
    Made m ⟨threads, m.queue⟩
  | createWaitingClient {m : Memory} {filename : List UInt8} {fd : Int} {b : Nat}
    {queue : WaitingClients.Store}
    (h : WaitingClients.createWaitingClient filename fd b m.queue = some queue) :
    Made m ⟨m.threads, queue⟩
  | removeWaitingClient {m : Memory} {fd : Int} {head : Option Nat} {queue : WaitingClients.Store}
    (h : removeWaitingClient fd head m.queue = some queue) : Made m ⟨m.threads, queue⟩

/-- What a step may do that is not defined: following a list from a freed head or behind a freed
node, and reading the filename of a VM without meta data. -/
inductive Undefined (m : Memory) : Prop where
  | getWaitingClient {filename : List UInt8} {head : Option Nat}
    (h : getWaitingClient filename head m.queue = none)
  | removeWaitingClient {fd : Int} {head : Option Nat}
    (h : removeWaitingClient fd head m.queue = none)
  | filename {a : Nat} (h : ThreadItems.read ThreadItems.Node.diskData m.threads.heap a = none)

/-- `malloc` returns an address that is not in use, and `cur_thread_id` does not overflow. -/
def Allocates (m : Memory) (s : State) : Event → Prop
  | .connect a => m.threads.heap a = none ∧ s.curThreadId + 1 < 2 ^ 31
  | .vm _ (.requeue b) => m.queue.heap b = none
  | .client _ (.subscribeName b) => m.queue.heap b = none
  | _ => True

/-- A state is reached in memory by a step. -/
def Reaches (m : Memory) (s : State) : Prop := ∃ m', Made m m' ∧ InMemory m' s

section Calls
variable {m : Memory} {s : State}

theorem InMemory.reaches (h : InMemory m s) : Reaches m s := ⟨m, .nothing m, h⟩

theorem Reaches.setVm (h : Reaches m s) (a : Nat) (phase : VmPhase) :
    Reaches m (s.setVm a phase) := by
  obtain ⟨m', hmade, hin⟩ := h
  exact ⟨m', hmade, hin.items, hin.waiting, hin.next, hin.nonneg⟩

theorem Reaches.setClient (h : Reaches m s) (fd : Int) (c : Client) :
    Reaches m (s.setClient fd c) := by
  obtain ⟨m', hmade, hin⟩ := h
  exact ⟨m', hmade, hin.items, hin.waiting, hin.next, hin.nonneg⟩

theorem Reaches.setCleanup (h : Reaches m s) (cleanup : Option Holder) :
    Reaches m { s with cleanup := cleanup } := by
  obtain ⟨m', hmade, hin⟩ := h
  exact ⟨m', hmade, hin.items, hin.waiting, hin.next, hin.nonneg⟩

theorem InMemory.updateForwardFd (h : InMemory m s) (threadId forwardFd : Int) :
    Reaches m (s.updateForwardFd threadId forwardFd) := by
  obtain ⟨threads, hcall, hrep, hnext⟩ := h.items.updateForwardFd threadId forwardFd
  exact ⟨_, .updateForwardFd hcall, hrep, h.waiting, hnext.trans h.next, h.nonneg⟩

theorem InMemory.createWaitingClient (h : InMemory m s) {b : Nat} (hb : m.queue.heap b = none)
    (filename : List UInt8) (fd : Int) : Reaches m (s.createWaitingClient b filename fd) := by
  obtain ⟨queue, hcall, hrep⟩ := h.waiting.create filename fd hb
  exact ⟨_, .createWaitingClient hcall, h.items, hrep, h.next, h.nonneg⟩

theorem InMemory.waitingHead_eq (h : InMemory m s) : m.queue.waitingHead = s.waitingHead :=
  h.waiting.path.head

theorem InMemory.getWaitingClient_eq (h : InMemory m s) (filename : List UInt8)
    (head : Option Nat) :
    getWaitingClient filename head m.queue = s.getWaitingClient filename head := by
  unfold getWaitingClient State.getWaitingClient
  have hhead := h.waitingHead_eq
  have hlast := h.waiting.getWaitingClient filename
  cases head with
  | none => rfl
  | some p => simp only [hhead, hlast]

/-- What is not defined on the list is not defined in memory. -/
theorem InMemory.removeWaitingClient (h : InMemory m s) (fd : Int) (head : Option Nat) :
    (s.removeWaitingClient fd head = none → Stores.removeWaitingClient fd head m.queue = none) ∧
      ∀ s', s.removeWaitingClient fd head = some s' → Reaches m s' := by
  have hcall := h.waiting.removeEntries fd
  have hmem : ∀ queue, Stores.removeWaitingClient fd head m.queue = some queue →
      ∀ s' : State, InMemory ⟨m.threads, queue⟩ s' → Reaches m s' :=
    fun queue hqueue s' hin => ⟨_, .removeWaitingClient hqueue, hin⟩
  unfold State.removeWaitingClient
  unfold Stores.removeWaitingClient at hmem ⊢
  rw [h.waitingHead_eq] at hmem ⊢
  split
  · refine ⟨fun hnone => (by cases hnone), fun s' hs' => ?_⟩
    cases hs'
    exact h.reaches
  · rename_i p
    simp only at hmem ⊢
    by_cases hhead : some p = s.waitingHead
    · rw [if_pos hhead] at hmem ⊢
      rw [if_pos hhead]
      cases hremoved : WaitingClients.removeEntries fd s.waiting with
      | none =>
        rw [hremoved] at hcall
        exact ⟨fun _ => hcall, fun s' hs' => by cases hs'⟩
      | some waiting =>
        rw [hremoved] at hcall
        obtain ⟨queue, hqueue, hrep⟩ := hcall
        refine ⟨fun hnone => (by cases hnone), fun s' hs' => ?_⟩
        cases hs'
        exact hmem queue hqueue _ ⟨h.items, hrep, h.next, h.nonneg⟩
    · rw [if_neg hhead] at hmem ⊢
      rw [if_neg hhead]
      exact ⟨fun _ => rfl, fun s' hs' => by cases hs'⟩

theorem InMemory.connect (h : InMemory m s) {a : Nat} (ha : m.threads.heap a = none)
    (hfew : s.curThreadId + 1 < 2 ^ 31) :
    Reaches m { s with
      items := s.items ++ [Item.mk a s.curThreadId none (-1)]
      curThreadId := s.curThreadId + 1 } := by
  obtain ⟨threads, hcall, hrep, hnext⟩ := h.items.create ha
  have hpos := h.nonneg
  have hint : ThreadItems.int (s.curThreadId + 1) = s.curThreadId + 1 := by
    obtain ⟨n, hn⟩ := Int.eq_ofNat_of_zero_le (show 0 ≤ s.curThreadId + 1 by omega)
    rw [hn] at hfew ⊢
    exact ThreadItems.int_of_lt (by omega)
  rw [h.next] at hrep hnext
  exact ⟨_, .createThreadItem hcall, hrep, h.waiting, hnext.trans hint, by simp only; omega⟩

/-- The item of a VM, with those before and behind it. -/
theorem exists_split_find {items : List Item} {a : Nat} {i : Item}
    (hi : (items.find? fun i => i.address = a) = some i) :
    ∃ l r, items = l ++ i :: r ∧ i.address = a := by
  obtain ⟨l, r, hitems⟩ := List.append_of_mem (List.mem_of_find?_eq_some hi)
  exact ⟨l, r, hitems, by simpa using List.find?_some hi⟩

theorem InMemory.announce (h : InMemory m s) {a : Nat} {i : Item}
    (hi : (s.items.find? fun i => i.address = a) = some i) (filename : List UInt8) :
    Reaches m { s with items := ThreadItems.setDiskData a filename s.items } := by
  obtain ⟨l, r, hitems, rfl⟩ := exists_split_find hi
  have hrep := h.items
  rw [hitems] at hrep
  obtain ⟨threads, hcall, hrep', hnext⟩ := hrep.updateMetaData filename
  rw [hitems, ThreadItems.setDiskData_eq hrep.nodup]
  exact ⟨_, .updateMetaData hcall, hrep', h.waiting, hnext.trans h.next, h.nonneg⟩

theorem InMemory.remove (h : InMemory m s) {a : Nat} {i : Item}
    (hi : (s.items.find? fun i => i.address = a) = some i)
    (vms : Nat → Option VmPhase) :
    Reaches m { s with items := s.items.filter (fun i => i.address ≠ a), vms := vms } := by
  obtain ⟨l, r, hitems, rfl⟩ := exists_split_find hi
  have hrep := h.items
  rw [hitems] at hrep
  obtain ⟨threads, hcall, hrep', hnext⟩ := hrep.remove
  rw [hitems, ThreadItems.filter_address hrep.nodup]
  exact ⟨_, .removeThreadItem hcall, hrep', h.waiting, hnext.trans h.next, h.nonneg⟩

end Calls

/-! ## Steps -/

/-- A step that is defined is made in memory, and one that is not is not defined there. -/
def Mirrored (m : Memory) (after : Option State) : Prop :=
  (after = none → Undefined m) ∧
    ∀ s, after = some s → Reaches m s

section Steps
variable {m : Memory} {s : State}

theorem Reaches.mirrored (h : Reaches m s) : Mirrored m (some s) := by
  refine ⟨fun hnone => (by cases hnone), fun s' hs' => ?_⟩
  cases hs'
  exact h

theorem InMemory.disconnect (h : InMemory m s) (a : Nat) (i : Item) :
    Reaches m (disconnect s a i) := by
  unfold Connections.disconnect
  split
  · split
    · exact (h.reaches.setCleanup _).setVm a .ending
    · exact h.reaches.setVm a .ended
  · exact h.reaches

theorem InMemory.requeue (h : InMemory m s) (a : Nat) {b : Nat} (hb : m.queue.heap b = none)
    (filename : List UInt8) (sockFd : Int) : Reaches m (requeue s a b filename sockFd) := by
  unfold Connections.requeue
  split
  · exact ((h.createWaitingClient hb filename sockFd).setCleanup none).setVm a .ended
  · exact h.reaches

/-- A removal, and what the thread does behind it. -/
theorem InMemory.remove_mirrored (h : InMemory m s) (fd : Int) (head : Option Nat)
    {behind : State → State} (hbehind : ∀ s', Reaches m s' → Reaches m (behind s')) :
    Mirrored m ((s.removeWaitingClient fd head).map behind) := by
  obtain ⟨hnone, hsome⟩ := h.removeWaitingClient fd head
  cases hremoved : s.removeWaitingClient fd head with
  | none => exact ⟨fun _ => .removeWaitingClient (hnone hremoved), fun s' hs' => by cases hs'⟩
  | some s₁ => exact (hbehind s₁ (hsome s₁ hremoved)).mirrored

theorem InMemory.advance (h : InMemory m s) {a : Nat} {i : Item}
    (hi : (s.items.find? fun i => i.address = a) = some i) (phase : VmPhase) (junk : Int) :
    Mirrored m (advance s a i junk phase) := by
  unfold Connections.advance
  split
  · exact (h.reaches.setVm a _).mirrored
  · rename_i filename head
    split
    · rename_i hnone
      refine ⟨fun _ => ?_, fun s' hs' => by cases hs'⟩
      exact .getWaitingClient ((h.getWaitingClient_eq filename head).trans hnone)
    · exact (h.reaches.setVm a _).mirrored
    · exact (h.reaches.setVm a _).mirrored
  · exact (h.reaches.setVm a _).mirrored
  · exact ((h.updateForwardFd _ _).setVm a _).mirrored
  · exact (h.reaches.setVm a _).mirrored
  · exact (h.reaches.setVm a _).mirrored
  · rename_i removeSocketFd head
    have hremove := h.remove_mirrored removeSocketFd head fun s' hs' => hs'.setVm a .relaying
    revert hremove
    cases s.removeWaitingClient removeSocketFd head with
    | none => exact fun hremove => hremove
    | some s₁ => exact fun hremove => hremove
  · split
    · rename_i hnone
      have hread : ThreadItems.read ThreadItems.Node.diskData m.threads.heap i.address = none := by
        unfold ThreadItems.read
        rw [h.items.heap_eq (List.mem_of_find?_eq_some hi)]
        exact hnone
      exact ⟨fun _ => .filename hread, fun s' hs' => by cases hs'⟩
    · exact (h.reaches.setVm a _).mirrored
  · exact h.reaches.mirrored

theorem InMemory.vmAct (h : InMemory m s) {a : Nat} {i : Item}
    (hi : (s.items.find? fun i => i.address = a) = some i) (phase : VmPhase) {action : VmAction}
    (halloc : Allocates m s (.vm a action)) : Mirrored m (vmAct s a i phase action) := by
  cases action with
  | announce filename =>
    simp only [Connections.vmAct]
    split
    · exact ((h.announce hi filename).setVm a _).mirrored
    · exact h.reaches.mirrored
  | advance junk => exact h.advance hi phase junk
  | sendFailed =>
    simp only [Connections.vmAct]
    split
    · exact (h.updateForwardFd _ _).mirrored
    · exact h.reaches.mirrored
  | disconnect =>
    simp only [Connections.vmAct]
    split
    · exact (h.disconnect a i).mirrored
    · exact (h.disconnect a i).mirrored
    · exact h.reaches.mirrored
  | requeue b =>
    simp only [Connections.vmAct]
    split
    · exact (h.requeue a halloc _ _).mirrored
    · exact h.reaches.mirrored
  | remove =>
    simp only [Connections.vmAct]
    split
    · exact (h.remove hi _).mirrored
    · exact h.reaches.mirrored

theorem InMemory.subscribeId (h : InMemory m s) (fd : Int) (c : Client) (parsed : Option Int) :
    Reaches m (subscribeId s fd c parsed) := by
  unfold Connections.subscribeId
  simp only
  split
  · exact (h.updateForwardFd _ _).setClient fd _
  · exact h.reaches.setClient fd _

theorem InMemory.subscribeName (h : InMemory m s) (fd : Int) (c : Client) {b : Nat}
    (hb : m.queue.heap b = none) : Reaches m (subscribeName s fd c b) := by
  unfold Connections.subscribeName
  split
  · exact (h.updateForwardFd _ _).setClient fd _
  · split
    · exact (h.createWaitingClient hb _ _).setClient fd _
    · exact h.reaches

theorem InMemory.leave (h : InMemory m s) (fd : Int) (c : Client) : Reaches m (leave s fd c) := by
  unfold Connections.leave
  split
  · split
    · exact h.reaches.setClient fd _
    · exact (h.reaches.setCleanup _).setClient fd _
  · exact h.reaches

theorem InMemory.cleanUp (h : InMemory m s) (fd : Int) (c : Client) (junk : Int) :
    Mirrored m (cleanUp s fd c junk) := by
  unfold Connections.cleanUp
  split
  · split
    · exact ((h.updateForwardFd _ _).setClient fd _).mirrored
    · exact (h.reaches.setClient fd _).mirrored
  · split
    · exact h.reaches.mirrored
    · exact (h.reaches.setClient fd _).mirrored
  · exact (h.reaches.setClient fd _).mirrored
  · rename_i removeSocketFd head _
    have hremove := h.remove_mirrored removeSocketFd head fun s' hs' =>
      (hs'.setCleanup none).setClient fd { c with phase := .left }
    revert hremove
    cases s.removeWaitingClient removeSocketFd head with
    | none => exact fun hremove => hremove
    | some s₁ => exact fun hremove => hremove
  · exact h.reaches.mirrored

theorem InMemory.close (h : InMemory m s) (fd : Int) :
    Reaches m { s with clients := Function.update s.clients fd none } :=
  ⟨m, .nothing m, h.items, h.waiting, h.next, h.nonneg⟩

theorem InMemory.clientAct (h : InMemory m s) (fd : Int) (c : Client) {action : ClientAction}
    (halloc : Allocates m s (.client fd action)) : Mirrored m (clientAct s fd c action) := by
  cases action with
  | subscribeId parsed =>
    simp only [Connections.clientAct]
    split
    · exact (h.subscribeId fd c parsed).mirrored
    · exact h.reaches.mirrored
  | lookUp filename =>
    simp only [Connections.clientAct]
    split
    · exact (h.reaches.setClient fd _).mirrored
    · exact h.reaches.mirrored
  | subscribeName b =>
    simp only [Connections.clientAct]
    split
    · exact (h.subscribeName fd c halloc).mirrored
    · exact h.reaches.mirrored
  | leave =>
    simp only [Connections.clientAct]
    split
    · exact (h.leave fd c).mirrored
    · exact h.reaches.mirrored
  | cleanUp junk => exact h.cleanUp fd c junk
  | close =>
    simp only [Connections.clientAct]
    split
    · exact (h.close fd).mirrored
    · exact h.reaches.mirrored

/-- **The server on lists is the server in memory**: from a memory that has the lists, every step
is one call of the functions of the two lists, or none, and leads to a memory that has the lists
after it. -/
theorem mirrored_act (h : InMemory m s) {e : Event} (halloc : Allocates m s e) :
    Mirrored m (act s e) := by
  cases e with
  | connect a =>
    unfold act
    simp only
    split
    · exact h.reaches.mirrored
    · exact ((h.connect halloc.1 halloc.2).setVm a .connected).mirrored
  | accept fd =>
    unfold act
    simp only
    split
    · exact (h.reaches.setClient fd _).mirrored
    · exact h.reaches.mirrored
  | vm a action =>
    unfold act
    simp only
    split
    · rename_i phase i hphase hi
      exact h.vmAct hi phase halloc
    · exact h.reaches.mirrored
  | client fd action =>
    unfold act
    simp only
    split
    · rename_i c hc
      exact h.clientAct fd c halloc
    · exact h.reaches.mirrored

end Steps

end LoPhi.Server.Stores
