import Mathlib.Algebra.Order.Ring.Nat
import LoPhi.Lib.Linked
import LoPhi.Lib.Machine

/-! # The threads of the VMs

`dis_threads.c` keeps an item for every VM in a doubly linked list. -/

namespace LoPhi.Server.ThreadItems
open LoPhi.Lib.Linked LoPhi.Lib.Machine

/-- `thread_item`. Of `disk_data` only the filename is used. -/
structure Node where
  threadId : Int
  diskData : Option (List UInt8)
  forwardSocketFd : Int
  next : Option Nat
  prev : Option Nat

/-- The fields other than the pointers. -/
def Node.fields (node : Node) : Option (Int × Option (List UInt8) × Int) :=
  some (node.threadId, node.diskData, node.forwardSocketFd)

/-- The memory. An address without a node is free. -/
abbrev Heap := Nat → Option Node

/-- What a pointer field, or another one, of a node holds. -/
def read {β : Type} (field : Node → Option β) (heap : Heap) (a : Nat) : Option β :=
  (heap a).bind field

abbrev nextOf (heap : Heap) : Nat → Option Nat := read Node.next heap

abbrev prevOf (heap : Heap) : Nat → Option Nat := read Node.prev heap

/-- Writing to the node that a pointer leads to, which is undefined where there is none. -/
def write (heap : Heap) (p : Option Nat) (f : Node → Node) : Option Heap :=
  match p with
  | none => none
  | some a =>
    match heap a with
    | none => none
    | some node => some (Function.update heap a (some (f node)))

/-- The list, `cur_thread_id`, and how often `malloc` was called. -/
structure Store where
  heap : Heap
  threadHead : Option Nat
  threadTail : Option Nat
  curThreadId : Int
  mallocs : Nat

def Store.initial : Store := ⟨fun _ => none, none, none, 0, 0⟩

/-- A value as an `int`. -/
def int (n : Int) : Int := (BitVec.ofInt 32 n).toInt

/-- `create_thread_item`, where `malloc` returns `a`. -/
def createThreadItem (a : Nat) (m : Store) : Option Store :=
  let node : Node :=
    { threadId := m.curThreadId
      diskData := none
      forwardSocketFd := -1
      next := none
      prev := if m.threadHead = none then none else m.threadTail }
  match
    if m.threadHead = none then some (Function.update m.heap a (some node))
    else
      write (Function.update m.heap a (some node)) m.threadTail
        (fun tail => { tail with next := some a }) with
  | none => none
  | some heap =>
    some ⟨heap, if m.threadHead = none then some a else m.threadHead, some a,
      int (m.curThreadId + 1), m.mallocs + 1⟩

/-- `remove_thread_item`. -/
def removeThreadItem (a : Nat) (m : Store) : Option Store :=
  match m.heap a with
  | none => none
  | some node =>
    match
      if node.prev = none then some m.heap
      else write m.heap node.prev (fun other => { other with next := node.next }) with
    | none => none
    | some heap =>
      match
        if node.next = none then some heap
        else write heap node.next (fun other => { other with prev := node.prev }) with
      | none => none
      | some heap =>
        some { m with
          heap := Function.update heap a none
          threadHead := if m.threadHead = some a then node.next else m.threadHead
          threadTail := if m.threadTail = some a then node.prev else m.threadTail }

/-- `update_meta_data`. -/
def updateMetaData (a : Nat) (filename : List UInt8) (m : Store) : Option Store :=
  match write m.heap (some a) (fun node => { node with diskData := some filename }) with
  | none => none
  | some heap => some { m with heap := heap }

/-- The loop of `update_forward_fd`. It has no more turns than there were nodes, unless it goes
round. -/
def updateLoop (threadId forwardFd : Int) (m : Store) : Nat → Option Nat → Option Store
  | _, none => some m
  | 0, some _ => none
  | turns + 1, some cur =>
    match m.heap cur with
    | none => none
    | some node =>
      if node.threadId = threadId then
        some { m with
          heap := Function.update m.heap cur (some { node with forwardSocketFd := forwardFd }) }
      else updateLoop threadId forwardFd m turns node.next

def updateForwardFd (threadId forwardFd : Int) (m : Store) : Option Store :=
  updateLoop threadId forwardFd m m.mallocs m.threadHead

/-- The loop of `get_vm_id`. -/
def vmIdLoop (filename : List UInt8) (m : Store) : Nat → Option Nat → Option Int
  | _, none => some (-1)
  | 0, some _ => none
  | turns + 1, some cur =>
    match m.heap cur with
    | none => none
    | some node =>
      if node.diskData = some filename then some node.threadId
      else vmIdLoop filename m turns node.next

def getVmId (filename : List UInt8) (m : Store) : Option Int :=
  vmIdLoop filename m m.mallocs m.threadHead

/-! ## The list in memory -/

/-- An item that was created and not removed. -/
structure Item where
  address : Nat
  threadId : Int
  diskData : Option (List UInt8)
  forwardSocketFd : Int
  deriving DecidableEq

def addresses (items : List Item) : List Nat := items.map Item.address

@[simp] theorem addresses_append (l m : List Item) :
    addresses (l ++ m) = addresses l ++ addresses m := List.map_append

@[simp] theorem addresses_cons (i : Item) (l : List Item) :
    addresses (i :: l) = i.address :: addresses l := rfl

def Item.fields (i : Item) : Int × Option (List UInt8) × Int :=
  (i.threadId, i.diskData, i.forwardSocketFd)

/-- `update_forward_fd` on the items: the first with the id. -/
def setForwardFd (threadId forwardFd : Int) : List Item → List Item
  | [] => []
  | i :: items =>
    if i.threadId = threadId then { i with forwardSocketFd := forwardFd } :: items
    else i :: setForwardFd threadId forwardFd items

/-- `get_vm_id` on the items. -/
def vmId (filename : List UInt8) : List Item → Int
  | [] => -1
  | i :: items => if i.diskData = some filename then i.threadId else vmId filename items

/-- `update_meta_data` on the items. -/
def setDiskData (a : Nat) (filename : List UInt8) (items : List Item) : List Item :=
  items.map fun i => if i.address = a then { i with diskData := some filename } else i

/-- Following `next` from the head visits the items in their order and ends, following `prev`
from the tail visits them backwards, and every node is there. -/
structure Represents (m : Store) (items : List Item) : Prop where
  path : Segment (nextOf m.heap) m.threadHead (addresses items) none
  back : Segment (prevOf m.heap) m.threadTail (addresses items).reverse none
  nodes : ∀ i ∈ items, read Node.fields m.heap i.address = some i.fields
  nodup : (addresses items).Nodup
  bound : items.length ≤ m.mallocs

theorem Represents.initial : Represents .initial [] where
  path := rfl
  back := rfl
  nodes _ h := by cases h
  nodup := .nil
  bound := Nat.le_refl 0

section Heap
variable {m : Store} {items l r : List Item} {i : Item} {heap : Heap} {a : Nat}

theorem read_congr {β : Type} {field : Node → Option β} {heap' : Heap} (h : heap' a = heap a) :
    read field heap' a = read field heap a := by
  unfold read
  rw [h]

theorem read_update {β : Type} (field : Node → Option β) (node : Node) :
    read field (Function.update heap a (some node)) =
      Function.update (read field heap) a (field node) := by
  funext b
  unfold read
  by_cases hab : b = a
  · rw [hab, Function.update_self, Function.update_self]
    rfl
  · rw [Function.update_of_ne hab, Function.update_of_ne hab]

theorem Represents.heap_eq (h : Represents m items) (hi : i ∈ items) :
    m.heap i.address = some ⟨i.threadId, i.diskData, i.forwardSocketFd, nextOf m.heap i.address,
      prevOf m.heap i.address⟩ := by
  have hnode := h.nodes i hi
  unfold read at hnode
  obtain ⟨node, hheap, hfields⟩ := Option.bind_eq_some_iff.mp hnode
  unfold Node.fields Item.fields at hfields
  unfold nextOf prevOf read
  rw [hheap]
  cases node
  cases hfields
  rfl

theorem isSome_of_fields {heap' : Heap} (h : read Node.fields heap' = read Node.fields heap)
    (ha : (heap a).isSome) : (heap' a).isSome := by
  obtain ⟨node, hnode⟩ := Option.isSome_iff_exists.mp ha
  have hread := congrFun h a
  unfold read at hread
  rw [hnode, Option.bind_some, Node.fields] at hread
  obtain ⟨node', hnode', -⟩ := Option.bind_eq_some_iff.mp hread
  rw [hnode']
  rfl

/-- Nodes outside the list do not matter. -/
theorem Represents.congr (h : Represents m items)
    (hheap : ∀ a ∈ addresses items, heap a = m.heap a) :
    Represents { m with heap := heap } items where
  path := h.path.congr fun a ha => read_congr (hheap a ha)
  back := h.back.congr fun a ha => read_congr (hheap a (List.mem_reverse.mp ha))
  nodes i hi := (read_congr (hheap _ (List.mem_map_of_mem hi))).trans (h.nodes i hi)
  nodup := h.nodup
  bound := h.bound

/-- Writing a pointer field: what it holds then, and that the other fields hold what they did. -/
theorem write_eq {p : Option Nat} {f : Node → Node}
    (hp : ∀ a, p = some a → (heap a).isSome) :
    ∃ heap', (if p = none then some heap else write heap p f) = some heap' ∧
      (∀ (field : Node → Option Nat) (v : Option Nat), (∀ node, field (f node) = v) →
        read field heap' = relink (read field heap) p v) ∧
      ∀ (β : Type) (field : Node → Option β), (∀ node, field (f node) = field node) →
        read field heap' = read field heap := by
  cases p with
  | none => exact ⟨heap, rfl, fun _ _ _ => rfl, fun _ _ _ => rfl⟩
  | some b =>
    obtain ⟨node, hnode⟩ := Option.isSome_iff_exists.mp (hp b rfl)
    refine ⟨Function.update heap b (some (f node)), ?_, fun field v hv => ?_,
      fun β field hsame => ?_⟩
    · rw [if_neg (by simp)]
      unfold write
      simp only [hnode]
    · rw [read_update, hv]
      rfl
    · rw [read_update, hsame]
      refine Function.update_eq_self_iff.mpr ?_
      unfold read
      rw [hnode]
      rfl

theorem Represents.isSome (h : Represents m items) : ∀ a ∈ addresses items, (m.heap a).isSome := by
  intro a ha
  obtain ⟨i, hi, rfl⟩ := List.mem_map.mp ha
  rw [h.heap_eq hi]
  rfl

theorem Represents.tail_eq (h : Represents m items) :
    m.threadTail = (addresses items).getLast? := by
  rw [h.back.head, List.head?_reverse]

theorem Represents.head_eq_none (h : Represents m items) : m.threadHead = none ↔ items = [] := by
  rw [h.path.head, List.head?_eq_none_iff]
  exact List.map_eq_nil_iff

theorem Represents.tail_eq_none (h : Represents m items) : m.threadTail = none ↔ items = [] := by
  rw [h.tail_eq, List.getLast?_eq_none_iff]
  exact List.map_eq_nil_iff

/-- The memory with a new node, before anything points to it. -/
def allocated (a : Nat) (m : Store) : Heap :=
  Function.update m.heap a (some ⟨m.curThreadId, none, -1, none, m.threadTail⟩)

theorem Represents.allocated (h : Represents m items) (hnew : a ∉ addresses items) :
    Represents { m with heap := allocated a m } items := by
  refine h.congr fun b hb => Function.update_of_ne ?_ _ _
  rintro rfl
  exact hnew hb

/-- The last node points to the new one. -/
theorem Represents.createThreadItem_eq (h : Represents m items) (hnew : a ∉ addresses items) :
    ∃ heap, createThreadItem a m =
        some ⟨heap, if m.threadHead = none then some a else m.threadHead, some a,
          int (m.curThreadId + 1), m.mallocs + 1⟩ ∧
      nextOf heap = relink (nextOf (ThreadItems.allocated a m)) m.threadTail (some a) ∧
      prevOf heap = prevOf (ThreadItems.allocated a m) ∧
      read Node.fields heap = read Node.fields (ThreadItems.allocated a m) := by
  have hboth : m.threadHead = none ↔ m.threadTail = none := by
    rw [h.head_eq_none, h.tail_eq_none]
  have hptr : (if m.threadHead = none then none else m.threadTail) = m.threadTail := by
    split
    · rename_i hnone
      exact (hboth.mp hnone).symm
    · rfl
  obtain ⟨heap, hwrite, hlink, hsame⟩ := @write_eq (ThreadItems.allocated a m) m.threadTail
    (fun tail => { tail with next := some a })
    (fun b hb => (h.allocated hnew).isSome b (List.mem_of_getLast? (h.tail_eq.symm.trans hb)))
  refine ⟨heap, ?_, hlink Node.next (some a) fun _ => rfl, hsame _ Node.prev fun _ => rfl,
    hsame _ Node.fields fun _ => rfl⟩
  unfold ThreadItems.allocated at hwrite
  unfold createThreadItem
  simp only [hptr]
  simp only [hboth, hwrite]

/-- A new item is the last. -/
theorem Represents.create (h : Represents m items) (ha : m.heap a = none) :
    ∃ m', createThreadItem a m = some m' ∧
      Represents m' (items ++ [⟨a, m.curThreadId, none, -1⟩]) ∧
      m'.curThreadId = int (m.curThreadId + 1) := by
  have hnew : a ∉ addresses items := by
    intro hmem
    have hsome := h.isSome a hmem
    rw [ha] at hsome
    cases hsome
  have halloc := h.allocated hnew
  have hread : ∀ {β : Type} (field : Node → Option β), read field (ThreadItems.allocated a m) a =
      field ⟨m.curThreadId, none, -1, none, m.threadTail⟩ := by
    intro β field
    rw [ThreadItems.allocated, read_update, Function.update_self]
  obtain ⟨heap, hcreate, hnext, hprev, hfields⟩ := h.createThreadItem_eq hnew
  refine ⟨_, hcreate, ⟨?_, ?_, ?_, ?_, ?_⟩, rfl⟩
  · rw [addresses_append]
    show Segment (nextOf heap) _ _ none
    rw [hnext, h.tail_eq]
    exact halloc.path.push h.nodup hnew (hread Node.next)
  · rw [addresses_append, List.reverse_append]
    show Segment (prevOf heap) (some a) (a :: (addresses items).reverse) none
    rw [hprev]
    have hlast : prevOf (ThreadItems.allocated a m) a = m.threadTail := hread Node.prev
    refine ⟨rfl, ?_⟩
    rw [hlast]
    exact halloc.back
  · intro i hi
    show read Node.fields heap i.address = _
    rw [hfields]
    rcases List.mem_append.mp hi with hi | hi
    · exact halloc.nodes i hi
    · rw [List.mem_singleton.mp hi, hread]
      rfl
  · rw [addresses_append]
    exact h.nodup.append (List.nodup_singleton a) (List.disjoint_singleton.mpr hnew)
  · rw [List.length_append]
    exact Nat.succ_le_succ h.bound

/-- The neighbours of an item. -/
theorem Represents.neighbours (h : Represents m (l ++ i :: r)) :
    nextOf m.heap i.address = (addresses r).head? ∧
      prevOf m.heap i.address = (addresses l).getLast? := by
  have hpath := h.path
  have hback := h.back
  rw [addresses_append, addresses_cons] at hpath hback
  rw [List.reverse_append, List.reverse_cons, List.append_assoc, List.singleton_append] at hback
  refine ⟨hpath.next_eq, ?_⟩
  rw [hback.next_eq, List.head?_reverse]

/-- The neighbours of an item point past it, and only then it is freed. -/
theorem Represents.removeThreadItem_eq (h : Represents m (l ++ i :: r)) :
    ∃ heap, removeThreadItem i.address m =
        some { m with
          heap := Function.update heap i.address none
          threadHead := if m.threadHead = some i.address then nextOf m.heap i.address
            else m.threadHead
          threadTail := if m.threadTail = some i.address then prevOf m.heap i.address
            else m.threadTail } ∧
      nextOf heap = relink (nextOf m.heap) (addresses l).getLast? (nextOf m.heap i.address) ∧
      prevOf heap = relink (prevOf m.heap) (addresses r).head? (prevOf m.heap i.address) ∧
      read Node.fields heap = read Node.fields m.heap := by
  obtain ⟨hnext, hprev⟩ := h.neighbours
  have hin : ∀ b, b ∈ addresses l ∨ b ∈ addresses r → (m.heap b).isSome := by
    intro b hb
    refine h.isSome b ?_
    rw [addresses_append, addresses_cons, List.mem_append, List.mem_cons]
    rcases hb with hb | hb
    · exact Or.inl hb
    · exact Or.inr (Or.inr hb)
  obtain ⟨heap, hwrite, hlink, hsame⟩ := @write_eq m.heap (prevOf m.heap i.address)
    (fun other => { other with next := nextOf m.heap i.address }) (fun b hb => by
      rw [hprev] at hb
      exact hin b (Or.inl (List.mem_of_getLast? hb)))
  have hfields := hsame _ Node.fields fun _ => rfl
  obtain ⟨heap', hwrite', hlink', hsame'⟩ := @write_eq heap (nextOf m.heap i.address)
    (fun other => { other with prev := prevOf m.heap i.address }) (fun b hb => by
      rw [hnext] at hb
      exact isSome_of_fields hfields (hin b (Or.inr (List.mem_of_head? hb))))
  refine ⟨heap', ?_, ?_, ?_, (hsame' _ Node.fields fun _ => rfl).trans hfields⟩
  · unfold removeThreadItem
    rw [h.heap_eq (by simp)]
    simp only [hwrite, hwrite']
  · rw [nextOf, hsame' _ Node.next fun _ => rfl, hlink Node.next _ fun _ => rfl, hprev]
    rfl
  · rw [prevOf, hlink' Node.prev _ fun _ => rfl, hsame _ Node.prev fun _ => rfl, hnext]
    rfl

/-- An item is taken out and freed. -/
theorem Represents.remove (h : Represents m (l ++ i :: r)) :
    ∃ m', removeThreadItem i.address m = some m' ∧ Represents m' (l ++ r) ∧
      m'.curThreadId = m.curThreadId := by
  have hpath := h.path
  have hback := h.back
  have hnodup := h.nodup
  rw [addresses_append, addresses_cons] at hpath hback hnodup
  have hreverse : (addresses l ++ i.address :: addresses r).reverse.Nodup :=
    List.nodup_reverse.mpr hnodup
  rw [List.reverse_append, List.reverse_cons, List.append_assoc, List.singleton_append]
    at hback hreverse
  have hout := (List.nodup_cons.mp (List.nodup_middle.mp hnodup)).1
  obtain ⟨heap, hremove, hnext, hprev, hfields⟩ := h.removeThreadItem_eq
  -- freeing the item touches no other
  have hfree : ∀ b ∈ addresses (l ++ r), Function.update heap i.address none b = heap b := by
    intro b hb
    refine Function.update_of_ne ?_ _ _
    rintro rfl
    rw [addresses_append] at hb
    exact hout hb
  refine ⟨_, hremove, ⟨?_, ?_, ?_, ?_, ?_⟩, rfl⟩
  · refine Segment.congr ?_ fun b hb => read_congr (hfree b hb)
    rw [← nextOf, hnext, addresses_append]
    exact hpath.unlink hnodup
  · refine Segment.congr ?_ fun b hb => read_congr (hfree b (List.mem_reverse.mp hb))
    rw [← prevOf, hprev, addresses_append, List.reverse_append, ← List.getLast?_reverse]
    exact hback.unlink hreverse
  · intro j hj
    show read Node.fields (Function.update heap i.address none) j.address = _
    rw [read_congr (hfree _ (List.mem_map_of_mem hj)), hfields]
    refine h.nodes j ?_
    rw [List.mem_append, List.mem_cons]
    rcases List.mem_append.mp hj with hj | hj
    · exact Or.inl hj
    · exact Or.inr (Or.inr hj)
  · rw [addresses_append]
    exact (List.nodup_cons.mp (List.nodup_middle.mp hnodup)).2
  · have hbound := h.bound
    rw [List.length_append, List.length_cons] at hbound
    rw [List.length_append]
    show _ ≤ m.mallocs
    omega

/-- The other items are elsewhere. -/
theorem address_ne (h : (addresses (l ++ i :: r)).Nodup) {j : Item} (hj : j ∈ l ∨ j ∈ r) :
    j.address ≠ i.address := by
  rw [addresses_append, addresses_cons] at h
  have hout := (List.nodup_cons.mp (List.nodup_middle.mp h)).1
  intro heq
  rw [← heq, List.mem_append] at hout
  exact hout (hj.imp (List.mem_map_of_mem (f := Item.address))
    (List.mem_map_of_mem (f := Item.address)))

/-- New fields for an item. -/
theorem Represents.setFields (h : Represents m (l ++ i :: r)) {j : Item}
    (hj : j.address = i.address) {node : Node} (hnode : node.fields = some j.fields)
    (hnext : node.next = nextOf m.heap i.address) (hprev : node.prev = prevOf m.heap i.address) :
    Represents { m with heap := Function.update m.heap i.address (some node) } (l ++ j :: r) := by
  have haddresses : addresses (l ++ j :: r) = addresses (l ++ i :: r) := by
    rw [addresses_append, addresses_append, addresses_cons, addresses_cons, hj]
  constructor
  · rw [haddresses]
    show Segment (read Node.next _) _ _ none
    rw [read_update, hnext, Function.update_eq_self]
    exact h.path
  · rw [haddresses]
    show Segment (read Node.prev _) _ _ none
    rw [read_update, hprev, Function.update_eq_self]
    exact h.back
  · intro k hk
    show read Node.fields (Function.update m.heap i.address (some node)) k.address = _
    rw [read_update]
    rw [List.mem_append, List.mem_cons] at hk
    by_cases hkj : k = j
    · rw [hkj, hj, Function.update_self, hnode]
    · have hother : k ∈ l ∨ k ∈ r := by
        rcases hk with hk | hk | hk
        · exact Or.inl hk
        · exact absurd hk hkj
        · exact Or.inr hk
      rw [Function.update_of_ne]
      · refine h.nodes k ?_
        rw [List.mem_append, List.mem_cons]
        exact hother.imp_right Or.inr
      · exact address_ne h.nodup hother
  · rw [haddresses]
    exact h.nodup
  · have hbound := h.bound
    rw [List.length_append, List.length_cons] at hbound ⊢
    exact hbound

/-- The loop of `update_forward_fd` sets the first item with the id. -/
theorem updateLoop_eq {threadId forwardFd : Int} {turns : Nat} (h : Represents m (l ++ r))
    (hturns : r.length ≤ turns) :
    ∃ m', updateLoop threadId forwardFd m turns (addresses r).head? = some m' ∧
      Represents m' (l ++ setForwardFd threadId forwardFd r) ∧
      m'.curThreadId = m.curThreadId := by
  induction r generalizing l turns with
  | nil =>
    refine ⟨m, ?_, h, rfl⟩
    cases turns with
    | zero => rfl
    | succ turns => rfl
  | cons i r ih =>
    obtain ⟨turns, rfl⟩ : ∃ n, turns = n + 1 := by
      rw [List.length_cons] at hturns
      exact ⟨turns - 1, by omega⟩
    rw [addresses_cons, List.head?_cons, updateLoop, h.heap_eq (by simp)]
    unfold setForwardFd
    by_cases hid : i.threadId = threadId
    · simp only [if_pos hid]
      exact ⟨_, rfl, @Represents.setFields m l r i h { i with forwardSocketFd := forwardFd } rfl _
        rfl rfl rfl, rfl⟩
    · simp only [if_neg hid, h.neighbours.1]
      rw [List.append_cons] at h ⊢
      exact ih h (Nat.le_of_succ_le_succ hturns)

theorem Represents.updateForwardFd (h : Represents m items) (threadId forwardFd : Int) :
    ∃ m', updateForwardFd threadId forwardFd m = some m' ∧
      Represents m' (setForwardFd threadId forwardFd items) ∧
      m'.curThreadId = m.curThreadId := by
  unfold ThreadItems.updateForwardFd
  rw [h.path.head]
  exact @updateLoop_eq m [] items threadId forwardFd m.mallocs h h.bound

/-- The loop of `get_vm_id` finds the first item with the filename. -/
theorem vmIdLoop_eq {filename : List UInt8} {turns : Nat} (h : Represents m (l ++ r))
    (hturns : r.length ≤ turns) :
    vmIdLoop filename m turns (addresses r).head? = some (vmId filename r) := by
  induction r generalizing l turns with
  | nil =>
    cases turns with
    | zero => rfl
    | succ turns => rfl
  | cons i r ih =>
    obtain ⟨turns, rfl⟩ : ∃ n, turns = n + 1 := by
      rw [List.length_cons] at hturns
      exact ⟨turns - 1, by omega⟩
    rw [addresses_cons, List.head?_cons, vmIdLoop, h.heap_eq (by simp)]
    unfold vmId
    by_cases hname : i.diskData = some filename
    · simp only [if_pos hname]
    · simp only [if_neg hname, h.neighbours.1]
      rw [List.append_cons] at h
      exact ih h (Nat.le_of_succ_le_succ hturns)

theorem Represents.getVmId (h : Represents m items) (filename : List UInt8) :
    getVmId filename m = some (vmId filename items) := by
  unfold ThreadItems.getVmId
  rw [h.path.head]
  exact @vmIdLoop_eq m [] items filename m.mallocs h h.bound

/-- One item out of the list. -/
theorem filter_address (h : (addresses (l ++ i :: r)).Nodup) :
    (l ++ i :: r).filter (fun j => j.address ≠ i.address) = l ++ r := by
  rw [List.filter_append, List.filter_cons_of_neg (by simp),
    List.filter_eq_self.mpr fun j hj => decide_eq_true (address_ne h (Or.inl hj)),
    List.filter_eq_self.mpr fun j hj => decide_eq_true (address_ne h (Or.inr hj))]

theorem setDiskData_eq (h : (addresses (l ++ i :: r)).Nodup) (filename : List UInt8) :
    setDiskData i.address filename (l ++ i :: r) =
      l ++ { i with diskData := some filename } :: r := by
  have hid : ∀ k : List Item, (∀ j ∈ k, j.address ≠ i.address) →
      setDiskData i.address filename k = k := by
    intro k hk
    refine (List.map_congr_left fun j hj => ?_).trans (List.map_id k)
    rw [if_neg (hk j hj)]
    rfl
  have hsplit : setDiskData i.address filename (l ++ i :: r) =
      setDiskData i.address filename l ++
        { i with diskData := some filename } :: setDiskData i.address filename r := by
    unfold setDiskData
    rw [List.map_append, List.map_cons, if_pos rfl]
  rw [hsplit, hid l fun j hj => address_ne h (Or.inl hj),
    hid r fun j hj => address_ne h (Or.inr hj)]

theorem Represents.updateMetaData (h : Represents m (l ++ i :: r)) (filename : List UInt8) :
    ∃ m', updateMetaData i.address filename m = some m' ∧
      Represents m' (l ++ { i with diskData := some filename } :: r) ∧
      m'.curThreadId = m.curThreadId := by
  unfold ThreadItems.updateMetaData write
  simp only [h.heap_eq (show i ∈ l ++ i :: r by simp)]
  exact ⟨_, rfl, @Represents.setFields m l r i h { i with diskData := some filename } rfl _
    rfl rfl rfl, rfl⟩

end Heap

/-! ## Ids -/

theorem int_add_one (n : Int) : int (int n + 1) = int (n + 1) := by
  unfold int
  rw [BitVec.ofInt_add, BitVec.ofInt_toInt, ← BitVec.ofInt_add]

theorem int_of_lt {n : Nat} (h : n < 2 ^ 31) : int n = n := by
  unfold int
  exact BitVec.toInt_ofInt_eq_self (by decide) (by omega) (by omega)

/-- The ids of the first items. -/
def firstIds (n : Nat) : List Int := (List.range n).map fun k : Nat => int k

theorem nodup_firstIds {n : Nat} (h : n < 2 ^ 31) : (firstIds n).Nodup := by
  refine List.Nodup.map_on (fun x hx y hy heq => ?_) List.nodup_range
  rw [List.mem_range] at hx hy
  rw [int_of_lt (by omega), int_of_lt (by omega)] at heq
  exact Int.ofNat.inj heq

theorem firstIds_succ (n : Nat) : firstIds (n + 1) = firstIds n ++ [int n] := by
  unfold firstIds
  rw [List.range_succ, List.map_append]
  rfl

/-! ## Runs -/

/-- The list, unless what it does is undefined, the items created and not removed, and the ids
of all that were created. -/
structure State where
  store : Option Store
  items : List Item
  ids : List Int

def State.initial : State := ⟨some .initial, [], []⟩

inductive Event where
  | create (a : Nat)
  | remove (a : Nat)
  | updateMetaData (a : Nat) (filename : List UInt8)
  | updateForwardFd (threadId forwardFd : Int)

/-- One call. `malloc` returns no address that is in use, and an item that is removed or given
meta data is live. -/
def step (s : State) : Event → State × Unit
  | .create a =>
    match s.store with
    | none => (s, ())
    | some m =>
      if (m.heap a).isSome then (s, ())
      else
        (⟨createThreadItem a m, s.items ++ [⟨a, m.curThreadId, none, -1⟩],
          s.ids ++ [m.curThreadId]⟩, ())
  | .remove a =>
    if (addresses s.items).contains a then
      ({ s with
          store := s.store.bind (removeThreadItem a)
          items := s.items.filter fun i => i.address ≠ a }, ())
    else (s, ())
  | .updateMetaData a filename =>
    if (addresses s.items).contains a then
      ({ s with
          store := s.store.bind (updateMetaData a filename)
          items := setDiskData a filename s.items }, ())
    else (s, ())
  | .updateForwardFd threadId forwardFd =>
    ({ s with
        store := s.store.bind (updateForwardFd threadId forwardFd)
        items := setForwardFd threadId forwardFd s.items }, ())

/-- The list is in memory what it should be, and the ids are those of the first items. -/
structure Invariant (s : State) : Prop where
  stored : ∃ m, s.store = some m ∧ Represents m s.items ∧ m.curThreadId = int s.ids.length
  ids : s.ids = firstIds s.ids.length
  live : (s.items.map Item.threadId).Sublist s.ids

theorem Invariant.initial : Invariant .initial where
  stored := ⟨.initial, rfl, .initial, rfl⟩
  ids := rfl
  live := List.Sublist.slnil

/-- An item that is live, with those before and behind it. -/
theorem exists_split {items : List Item} {a : Nat} (h : (addresses items).contains a = true) :
    ∃ l i r, items = l ++ i :: r ∧ i.address = a := by
  obtain ⟨i, hi, rfl⟩ := List.mem_map.mp (List.contains_iff_mem.mp h)
  obtain ⟨l, r, rfl⟩ := List.append_of_mem hi
  exact ⟨l, i, r, rfl, rfl⟩

theorem threadId_setForwardFd (threadId forwardFd : Int) (items : List Item) :
    (setForwardFd threadId forwardFd items).map Item.threadId = items.map Item.threadId := by
  induction items with
  | nil => rfl
  | cons i items ih =>
    unfold setForwardFd
    split
    · rfl
    · rw [List.map_cons, List.map_cons, ih]

theorem Invariant.step {s : State} (h : Invariant s) (e : Event) : Invariant (step s e).1 := by
  have hinv := h
  obtain ⟨⟨m, hstore, hrep, hcur⟩, hids, hlive⟩ := h
  cases e with
  | create a =>
    simp only [ThreadItems.step, hstore]
    split
    · exact hinv
    · rename_i hfree
      rw [Option.not_isSome_iff_eq_none] at hfree
      obtain ⟨m', hcreate, hrep', hcur'⟩ := hrep.create hfree
      refine ⟨⟨m', hcreate, hrep', ?_⟩, ?_, ?_⟩
      · rw [hcur', hcur, int_add_one, List.length_append]
        rfl
      · simp only
        rw [List.length_append, List.length_singleton, firstIds_succ, ← hids, hcur]
      · rw [List.map_append]
        exact hlive.append (List.Sublist.refl _)
  | remove a =>
    unfold ThreadItems.step
    simp only
    split
    · rename_i hmem
      obtain ⟨l, i, r, hitems, rfl⟩ := exists_split hmem
      rw [hitems] at hrep hlive
      obtain ⟨m', hremove, hrep', hcur'⟩ := hrep.remove
      rw [hstore, hitems, filter_address hrep.nodup]
      refine ⟨⟨m', hremove, hrep', hcur'.trans hcur⟩, hids, ?_⟩
      refine List.Sublist.trans ?_ hlive
      rw [List.map_append, List.map_append, List.map_cons]
      exact (List.Sublist.refl _).append (List.sublist_cons_self _ _)
    · exact hinv
  | updateMetaData a filename =>
    unfold ThreadItems.step
    simp only
    split
    · rename_i hmem
      obtain ⟨l, i, r, hitems, rfl⟩ := exists_split hmem
      rw [hitems] at hrep hlive
      obtain ⟨m', hupdate, hrep', hcur'⟩ := hrep.updateMetaData filename
      rw [hstore, hitems, setDiskData_eq hrep.nodup]
      refine ⟨⟨m', hupdate, hrep', hcur'.trans hcur⟩, hids, ?_⟩
      rw [List.map_append, List.map_cons] at hlive ⊢
      exact hlive
    · exact hinv
  | updateForwardFd threadId forwardFd =>
    obtain ⟨m', hupdate, hrep', hcur'⟩ := hrep.updateForwardFd threadId forwardFd
    simp only [ThreadItems.step, hstore]
    refine ⟨⟨m', hupdate, hrep', hcur'.trans hcur⟩, hids, ?_⟩
    rw [threadId_setForwardFd]
    exact hlive

/-! ## Well-formedness -/

/-- Everything at once: the list both ways, neighbours that point to each other, the ends, ids
that are all different, and what `update_forward_fd` changes. -/
structure WellFormed (s : State) (m : Store) : Prop where
  stored : s.store = some m
  list : Represents m s.items
  neighbours : ∀ l i j r, s.items = l ++ i :: j :: r →
    nextOf m.heap i.address = some j.address ∧ prevOf m.heap j.address = some i.address
  head : m.threadHead = none ↔ s.items = []
  tail : m.threadTail = none ↔ s.items = []
  ids : s.ids.Nodup
  known : ∀ i ∈ s.items, i.threadId ∈ s.ids
  single : ∀ i ∈ s.items, ∀ j ∈ s.items, i.threadId = j.threadId → i = j
  update : ∀ threadId forwardFd, ∃ m', updateForwardFd threadId forwardFd m = some m' ∧
    Represents m' (s.items.map fun i =>
      if i.threadId = threadId then { i with forwardSocketFd := forwardFd } else i)

/-- Where the ids are different, the first item with an id is the only one. -/
theorem setForwardFd_eq_map {items : List Item} (h : (items.map Item.threadId).Nodup)
    (threadId forwardFd : Int) :
    setForwardFd threadId forwardFd items = items.map fun i =>
      if i.threadId = threadId then { i with forwardSocketFd := forwardFd } else i := by
  induction items with
  | nil => rfl
  | cons i items ih =>
    obtain ⟨hi, hitems⟩ := List.nodup_cons.mp h
    unfold setForwardFd
    rw [List.map_cons]
    by_cases hid : i.threadId = threadId
    · rw [if_pos hid, if_pos hid]
      congr 1
      refine ((List.map_congr_left fun j hj => ?_).trans (List.map_id items)).symm
      rw [if_neg]
      · rfl
      · intro hj'
        exact hi (hid.trans hj'.symm ▸ List.mem_map_of_mem hj)
    · rw [if_neg hid, if_neg hid, ih hitems]

/-- **The list of VM threads is well formed after any calls**, as long as fewer than 2^31 items
are created. -/
theorem well_formed (events : List Event)
    (hfew : (run step .initial events).ids.length < 2 ^ 31) :
    ∃ m, WellFormed (run step .initial events) m := by
  have hinv : Invariant (run step .initial events) := by
    have hat : Invariant (stateAt step .initial events events.length) := by
      refine stateAt_invariant Invariant .initial (fun k e he h => ?_) events.length
        (Nat.le_refl _)
      rw [stateAt_succ he]
      exact h.step e
    rwa [stateAt, List.take_length] at hat
  generalize run step .initial events = s at hfew hinv
  obtain ⟨⟨m, hstore, hrep, -⟩, hids, hlive⟩ := hinv
  have hnodup : s.ids.Nodup := by
    rw [hids]
    exact nodup_firstIds hfew
  have hlive' := hnodup.sublist hlive
  refine ⟨m, hstore, hrep, fun l i j r hitems => ?_, hrep.head_eq_none, hrep.tail_eq_none, hnodup,
    fun i hi => hlive.subset (List.mem_map_of_mem hi),
    fun i hi j hj heq => List.inj_on_of_nodup_map hlive' hi hj heq, fun threadId forwardFd => ?_⟩
  · rw [hitems] at hrep
    refine ⟨hrep.neighbours.1, ?_⟩
    rw [List.append_cons] at hrep
    rw [hrep.neighbours.2, addresses_append]
    exact List.getLast?_concat
  · obtain ⟨m', hupdate, hrep', -⟩ := hrep.updateForwardFd threadId forwardFd
    rw [setForwardFd_eq_map hlive'] at hrep'
    exact ⟨m', hupdate, hrep'⟩

/-- Three items, of which the second is removed. -/
theorem well_formed_three :
    ∃ m, WellFormed (run step .initial [.create 1, .create 2, .create 3, .remove 2]) m :=
  well_formed [.create 1, .create 2, .create 3, .remove 2] (by decide)

end LoPhi.Server.ThreadItems
