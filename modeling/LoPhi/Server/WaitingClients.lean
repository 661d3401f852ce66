import LoPhi.Lib.Linked
import LoPhi.Lib.Machine

/-! # The waiting clients

`create_waiting_client` and `remove_waiting_client` of `dis_client.c` keep the clients that wait
for a VM in a singly linked list. Removing goes through the whole list, and takes the node it
has just removed for the one before the next. -/

namespace LoPhi.Server.WaitingClients
open LoPhi.Lib.Linked LoPhi.Lib.Machine

/-- `lophi_client`. -/
structure Node where
  imgName : List UInt8
  forwardSocketFd : Int
  next : Option Nat

/-- The memory. An address without a node is free. -/
abbrev Heap := Nat → Option Node

/-- The `next` of a node. -/
def nextOf (heap : Heap) (a : Nat) : Option Nat := (heap a).bind Node.next

/-- The other fields of a node. -/
def clientOf (heap : Heap) (a : Nat) : Option (List UInt8 × Int) :=
  (heap a).map fun node => (node.imgName, node.forwardSocketFd)

/-- `if (p != NULL) p->next = v`. Nothing is defined where the node is freed. -/
def setNext (heap : Heap) (p v : Option Nat) : Option Heap :=
  match p with
  | none => some heap
  | some a =>
    match heap a with
    | none => none
    | some node => some (Function.update heap a (some { node with next := v }))

/-- The list, and how often `malloc` was called. -/
structure Store where
  heap : Heap
  waitingHead : Option Nat
  waitingTail : Option Nat
  mallocs : Nat

def Store.initial : Store := ⟨fun _ => none, none, none, 0⟩

/-- `create_waiting_client`, where `malloc` returns `a`. -/
def createWaitingClient (filename : List UInt8) (sockFd : Int) (a : Nat) (m : Store) :
    Option Store :=
  match setNext (Function.update m.heap a (some ⟨filename, sockFd, none⟩)) m.waitingTail
      (some a) with
  | none => none
  | some heap =>
    some ⟨heap, if m.waitingHead = none then some a else m.waitingHead, some a, m.mallocs + 1⟩

/-- `free_waiting_client`. -/
def freeWaitingClient (a : Nat) (m : Store) : Store :=
  { m with heap := Function.update m.heap a none }

/-- A node is taken out: `prev->next`, `waiting_head` and `waiting_tail` are set. -/
def takeOut (prev : Option Nat) (cur : Nat) (next : Option Nat) (m : Store) : Option Store :=
  match setNext m.heap prev next with
  | none => none
  | some heap =>
    some { m with
      heap := heap
      waitingHead := if m.waitingHead = some cur then next else m.waitingHead
      waitingTail := if m.waitingTail = some cur then prev else m.waitingTail }

/-- The loop of `remove_waiting_client`. It has no more turns than there were nodes, unless it
goes round. -/
def removeLoop (removeSocketFd freeMemory : Int) :
    Nat → Option Nat → Option Nat → Store → Option Store
  | _, _, none, m => some m
  | 0, _, some _, _ => none
  | turns + 1, prev, some cur, m =>
    match m.heap cur with
    | none => none
    | some node =>
      if node.forwardSocketFd = removeSocketFd then
        match takeOut prev cur node.next m with
        | none => none
        | some m =>
          removeLoop removeSocketFd freeMemory turns (some cur) node.next
            (if freeMemory = 1 then freeWaitingClient cur m else m)
      else removeLoop removeSocketFd freeMemory turns (some cur) node.next m

def removeWaitingClient (removeSocketFd freeMemory : Int) (m : Store) : Option Store :=
  removeLoop removeSocketFd freeMemory m.mallocs none m.waitingHead m

/-- The loop of `get_waiting_client`: the last node with the name. -/
def getLoop (filename : List UInt8) (m : Store) :
    Nat → Option Nat → Option Nat → Option (Option Nat)
  | _, none, rtn => some rtn
  | 0, some _, _ => none
  | turns + 1, some cur, rtn =>
    match m.heap cur with
    | none => none
    | some node =>
      getLoop filename m turns node.next (if node.imgName = filename then some cur else rtn)

def getWaitingClient (filename : List UInt8) (m : Store) : Option (Option Nat) :=
  getLoop filename m m.mallocs m.waitingHead none

/-! ## The list in memory -/

/-- A client that was created and not removed. -/
structure Entry where
  address : Nat
  imgName : List UInt8
  forwardSocketFd : Int
  deriving DecidableEq

def addresses (entries : List Entry) : List Nat := entries.map Entry.address

@[simp] theorem addresses_append (l m : List Entry) :
    addresses (l ++ m) = addresses l ++ addresses m := List.map_append

@[simp] theorem addresses_cons (e : Entry) (l : List Entry) :
    addresses (e :: l) = e.address :: addresses l := rfl

/-- `get_waiting_client` on the entries. -/
def lastNamed (filename : List UInt8) (rtn : Option Nat) : List Entry → Option Nat
  | [] => rtn
  | e :: entries =>
    lastNamed filename (if e.imgName = filename then some e.address else rtn) entries

/-- Following `next` from the head visits the entries in their order and ends, every node is
there, and the tail is the last. -/
structure Represents (m : Store) (entries : List Entry) : Prop where
  path : Segment (nextOf m.heap) m.waitingHead (addresses entries) none
  nodes : ∀ e ∈ entries, clientOf m.heap e.address = some (e.imgName, e.forwardSocketFd)
  tail : m.waitingTail = (addresses entries).getLast?
  nodup : (addresses entries).Nodup
  bound : entries.length ≤ m.mallocs

theorem Represents.initial : Represents .initial [] where
  path := rfl
  nodes _ h := by cases h
  tail := rfl
  nodup := .nil
  bound := Nat.le_refl 0

section Heap
variable {m : Store} {entries kept rest : List Entry} {e : Entry} {heap : Heap}

theorem nextOf_congr {a : Nat} (h : heap a = m.heap a) : nextOf heap a = nextOf m.heap a := by
  unfold nextOf
  rw [h]

theorem clientOf_congr {a : Nat} (h : heap a = m.heap a) :
    clientOf heap a = clientOf m.heap a := by
  unfold clientOf
  rw [h]

/-- Nodes outside the list do not matter. -/
theorem Represents.congr (h : Represents m entries)
    (hheap : ∀ a ∈ addresses entries, heap a = m.heap a) :
    Represents { m with heap := heap } entries where
  path := h.path.congr fun a ha => nextOf_congr (hheap a ha)
  nodes e he := (clientOf_congr (hheap _ (List.mem_map_of_mem he))).trans (h.nodes e he)
  tail := h.tail
  nodup := h.nodup
  bound := h.bound

theorem Represents.heap_eq (h : Represents m entries) (he : e ∈ entries) :
    m.heap e.address = some ⟨e.imgName, e.forwardSocketFd, nextOf m.heap e.address⟩ := by
  have hnode := h.nodes e he
  unfold clientOf at hnode
  obtain ⟨node, hheap, hfields⟩ := Option.map_eq_some_iff.mp hnode
  obtain ⟨hname, hfd⟩ := Prod.mk.inj hfields
  unfold nextOf
  rw [hheap, ← hname, ← hfd]
  rfl

/-- The last of the first entries is there. -/
theorem Represents.last_isSome (h : Represents m (kept ++ rest)) :
    ∀ a, (addresses kept).getLast? = some a → (m.heap a).isSome := by
  intro a ha
  obtain ⟨e, he, rfl⟩ := List.mem_map.mp (List.mem_of_getLast? ha)
  rw [h.heap_eq (List.mem_append_left _ he)]
  rfl

/-- A link is set and all else stays. -/
theorem setNext_eq {p : Option Nat} (hp : ∀ a, p = some a → (heap a).isSome) (v : Option Nat) :
    ∃ heap', setNext heap p v = some heap' ∧ nextOf heap' = relink (nextOf heap) p v ∧
      clientOf heap' = clientOf heap := by
  cases p with
  | none => exact ⟨heap, rfl, rfl, rfl⟩
  | some b =>
    obtain ⟨node, hnode⟩ := Option.isSome_iff_exists.mp (hp b rfl)
    refine ⟨Function.update heap b (some { node with next := v }), ?_, ?_, ?_⟩
    · unfold setNext
      simp only [hnode]
    · funext a
      unfold nextOf relink
      by_cases hab : a = b
      · rw [hab]
        simp
      · simp [Function.update_of_ne hab]
    · funext a
      unfold clientOf
      by_cases hab : a = b
      · rw [hab, hnode]
        simp
      · simp [Function.update_of_ne hab]

/-- A new client is the last. -/
theorem Represents.create (h : Represents m entries) (filename : List UInt8) (sockFd : Int)
    {a : Nat} (ha : m.heap a = none) :
    ∃ m', createWaitingClient filename sockFd a m = some m' ∧
      Represents m' (entries ++ [⟨a, filename, sockFd⟩]) := by
  have hnew : a ∉ addresses entries := by
    intro hmem
    obtain ⟨e, he, rfl⟩ := List.mem_map.mp hmem
    cases ha.symm.trans (h.heap_eq he)
  -- the memory with the new node, before anything points to it
  obtain ⟨heap, hheap, hnode⟩ : ∃ heap, heap = Function.update m.heap a
      (some ⟨filename, sockFd, none⟩) ∧ heap a = some ⟨filename, sockFd, none⟩ :=
    ⟨_, rfl, Function.update_self _ _ _⟩
  have halloc : Represents { m with heap := heap } entries := by
    refine h.congr fun b hb => ?_
    rw [hheap]
    refine Function.update_of_ne ?_ _ _
    rintro rfl
    exact hnew hb
  have hnone : nextOf heap a = none := by
    unfold nextOf
    rw [hnode]
    rfl
  obtain ⟨heap', hset, hnext, hclient⟩ := @setNext_eq heap (addresses entries).getLast?
    (@Represents.last_isSome _ entries [] (by rwa [List.append_nil])) (some a)
  refine ⟨⟨heap', if m.waitingHead = none then some a else m.waitingHead, some a, m.mallocs + 1⟩,
    ?_, ?_, ?_, ?_, ?_, ?_⟩
  · unfold createWaitingClient
    rw [← hheap, h.tail, hset]
  · rw [addresses_append]
    show Segment (nextOf heap') _ _ none
    rw [hnext]
    exact halloc.path.push h.nodup hnew hnone
  · intro e he
    show clientOf heap' e.address = _
    rw [hclient]
    rcases List.mem_append.mp he with he | he
    · exact halloc.nodes e he
    · rw [List.mem_singleton.mp he, clientOf, hnode]
      rfl
  · rw [addresses_append]
    exact List.getLast?_concat.symm
  · rw [addresses_append]
    exact h.nodup.append (List.nodup_singleton a) (List.disjoint_singleton.mpr hnew)
  · rw [List.length_append]
    exact Nat.succ_le_succ h.bound

theorem Represents.not_mem (h : Represents m (kept ++ e :: rest)) :
    e.address ∉ addresses (kept ++ rest) := by
  have hnodup := h.nodup
  rw [addresses_append, addresses_cons] at hnodup
  rw [addresses_append]
  exact (List.nodup_cons.mp (List.nodup_middle.mp hnodup)).1

/-- A node is taken out of the list properly, and is still there. -/
theorem Represents.takeOut_eq (h : Represents m (kept ++ e :: rest)) :
    ∃ m', takeOut (addresses kept).getLast? e.address (nextOf m.heap e.address) m = some m' ∧
      Represents m' (kept ++ rest) ∧ (m'.heap e.address).isSome := by
  obtain ⟨heap, hset, hnext, hclient⟩ := setNext_eq h.last_isSome (nextOf m.heap e.address)
  have hpath := h.path
  have hnodup := h.nodup
  rw [addresses_append, addresses_cons] at hpath hnodup
  refine ⟨_, by unfold takeOut; rw [hset], ⟨?_, ?_, ?_, ?_, ?_⟩, ?_⟩
  · rw [addresses_append]
    show Segment (nextOf heap) _ _ none
    rw [hnext]
    exact hpath.unlink hnodup
  · intro other hother
    show clientOf heap other.address = _
    rw [hclient]
    refine h.nodes other ?_
    rw [List.mem_append, List.mem_cons]
    rcases List.mem_append.mp hother with hkept | hrest
    · exact Or.inl hkept
    · exact Or.inr (Or.inr hrest)
  · rw [addresses_append]
    show (if m.waitingTail = _ then _ else m.waitingTail) = _
    rw [h.tail, addresses_append, addresses_cons]
    exact getLast?_unlink hnodup
  · rw [addresses_append]
    exact (List.nodup_cons.mp (List.nodup_middle.mp hnodup)).2
  · have hbound := h.bound
    rw [List.length_append, List.length_cons] at hbound
    rw [List.length_append]
    show _ ≤ m.mallocs
    omega
  · have hnode := congrFun hclient e.address
    rw [h.nodes e (by simp)] at hnode
    unfold clientOf at hnode
    obtain ⟨node, hheap, -⟩ := Option.map_eq_some_iff.mp hnode
    show (heap e.address).isSome = true
    rw [hheap]
    rfl

/-- Behind a node that was taken out and is still there, the first node is taken out properly
too, unless it is the last. -/
theorem Represents.takeOut_first (h : Represents m (e :: rest)) (hrest : rest ≠ []) {d : Nat}
    (hd : d ∉ addresses (e :: rest)) (hsome : (m.heap d).isSome) :
    ∃ m', takeOut (some d) e.address (nextOf m.heap e.address) m = some m' ∧
      Represents m' rest ∧ (m'.heap e.address).isSome := by
  obtain ⟨node, hnode⟩ := Option.isSome_iff_exists.mp hsome
  obtain ⟨heap, hheap⟩ : ∃ heap, heap = Function.update m.heap d
    (some { node with next := nextOf m.heap e.address }) := ⟨_, rfl⟩
  have hsame : ∀ a ∈ addresses (e :: rest), heap a = m.heap a := by
    intro a ha
    rw [hheap]
    refine Function.update_of_ne ?_ _ _
    rintro rfl
    exact hd ha
  have hfirst : nextOf heap e.address = nextOf m.heap e.address :=
    nextOf_congr (hsame _ List.mem_cons_self)
  have htail : m.waitingTail ≠ some e.address := by
    have hmem := (List.nodup_cons.mp h.nodup).1
    rw [h.tail, addresses_cons]
    intro hlast
    cases rest with
    | nil => exact hrest rfl
    | cons b rest =>
      rw [addresses_cons, List.getLast?_cons_cons] at hlast
      exact hmem (List.mem_of_getLast? hlast)
  obtain ⟨m', htake, hrep⟩ := @Represents.takeOut_eq _ [] rest e (h.congr hsame)
  refine ⟨m', ?_, hrep⟩
  rw [← htake]
  unfold takeOut setNext
  simp only [hnode, ← hheap, hfirst, if_neg htail]
  rfl

/-- Freeing it or not. -/
theorem Represents.release (h : Represents m entries) {a : Nat} (ha : a ∉ addresses entries)
    (hsome : (m.heap a).isSome) (freeMemory : Int) :
    Represents (if freeMemory = 1 then freeWaitingClient a m else m) entries ∧
      (((if freeMemory = 1 then freeWaitingClient a m else m).heap a).isSome ↔
        freeMemory ≠ 1) := by
  by_cases hfree : freeMemory = 1
  · rw [if_pos hfree]
    constructor
    · refine h.congr fun b hb => Function.update_of_ne ?_ _ _
      rintro rfl
      exact ha hb
    · unfold freeWaitingClient
      simp [hfree]
  · rw [if_neg hfree]
    exact ⟨h, fun _ => hfree, fun _ => hsome⟩

end Heap

/-! ## Removing -/

/-- Going through the rest of a list, with nodes kept or not and the last one removed or not:
whether a node is removed behind a removed one, other than at the front and without freeing. -/
def damages (removeSocketFd freeMemory : Int) : Bool → Bool → List Entry → Bool
  | _, _, [] => false
  | kept, removed, e :: rest =>
    if e.forwardSocketFd = removeSocketFd then
      removed && (freeMemory = 1 || kept || rest.isEmpty) ||
        damages removeSocketFd freeMemory kept true rest
    else damages removeSocketFd freeMemory true false rest

/-- `prev` is the last node kept, or one that is out of the list. -/
def Behind (freeMemory : Int) (prev : Option Nat) (removed : Bool) (kept rest : List Entry)
    (m : Store) : Prop :=
  removed = false ∧ prev = (addresses kept).getLast? ∨
    removed = true ∧ ∃ d, prev = some d ∧ d ∉ addresses (kept ++ rest) ∧
      ((m.heap d).isSome ↔ freeMemory ≠ 1)

section Loop
variable {removeSocketFd freeMemory : Int} {m : Store} {entries kept rest : List Entry} {e : Entry}
  {prev : Option Nat} {removed : Bool}

theorem Represents.next_eq (h : Represents m (kept ++ e :: rest)) :
    nextOf m.heap e.address = (addresses rest).head? := by
  have hpath := h.path
  rw [addresses_append, addresses_cons] at hpath
  exact Segment.next_eq hpath

/-- A turn of the loop. -/
theorem removeLoop_cons (h : Represents m (kept ++ e :: rest)) (turns : Nat) :
    removeLoop removeSocketFd freeMemory (turns + 1) prev (some e.address) m =
      if e.forwardSocketFd = removeSocketFd then
        match takeOut prev e.address (nextOf m.heap e.address) m with
        | none => none
        | some m =>
          removeLoop removeSocketFd freeMemory turns (some e.address) (addresses rest).head?
            (if freeMemory = 1 then freeWaitingClient e.address m else m)
      else
        removeLoop removeSocketFd freeMemory turns (some e.address) (addresses rest).head? m := by
  rw [removeLoop, h.heap_eq (by simp)]
  simp only [h.next_eq]

/-- A node that is taken out without damage. -/
theorem takeOut_behind (h : Represents m (kept ++ e :: rest))
    (hprev : Behind freeMemory prev removed kept (e :: rest) m)
    (hok : (removed && (freeMemory = 1 || !kept.isEmpty || rest.isEmpty)) = false) :
    ∃ m', takeOut prev e.address (nextOf m.heap e.address) m = some m' ∧
      Represents m' (kept ++ rest) ∧ (m'.heap e.address).isSome := by
  rcases hprev with ⟨-, rfl⟩ | ⟨rfl, d, rfl, hd, hsome⟩
  · exact h.takeOut_eq
  · simp only [Bool.true_and, Bool.or_eq_false_iff, decide_eq_false_iff_not,
      List.isEmpty_iff, Bool.not_eq_eq_eq_not, Bool.not_false] at hok
    obtain ⟨⟨hfree, rfl⟩, hrest⟩ := hok
    refine h.takeOut_first ?_ hd (hsome.mpr hfree)
    rintro rfl
    cases hrest

theorem isEmpty_concat (l : List Entry) (e : Entry) : (!(l ++ [e]).isEmpty) = true := by simp

/-- The loop removes what it is to remove. -/
theorem removeLoop_eq {turns : Nat} (h : Represents m (kept ++ rest))
    (hprev : Behind freeMemory prev removed kept rest m)
    (hok : damages removeSocketFd freeMemory (!kept.isEmpty) removed rest = false)
    (hturns : rest.length ≤ turns) :
    ∃ m', removeLoop removeSocketFd freeMemory turns prev (addresses rest).head? m = some m' ∧
      Represents m' (kept ++ rest.filter fun e => e.forwardSocketFd ≠ removeSocketFd) := by
  induction rest generalizing kept prev removed m turns with
  | nil =>
    refine ⟨m, ?_, h⟩
    cases turns with
    | zero => rfl
    | succ turns => rfl
  | cons e rest ih =>
    obtain ⟨turns, rfl⟩ : ∃ n, turns = n + 1 := by
      rw [List.length_cons] at hturns
      exact ⟨turns - 1, by omega⟩
    rw [addresses_cons, List.head?_cons, removeLoop_cons h]
    unfold damages at hok
    by_cases hfd : e.forwardSocketFd = removeSocketFd
    · rw [if_pos hfd, Bool.or_eq_false_iff] at hok
      obtain ⟨m₁, htake, hrep, hsome⟩ := takeOut_behind h hprev hok.1
      obtain ⟨hrep, hsome⟩ := hrep.release h.not_mem hsome freeMemory
      rw [if_pos hfd, htake, List.filter_cons_of_neg (by simp [hfd])]
      exact ih hrep (Or.inr ⟨rfl, e.address, rfl, h.not_mem, hsome⟩) hok.2
        (Nat.le_of_succ_le_succ hturns)
    · rw [if_neg hfd] at hok
      rw [if_neg hfd, List.filter_cons_of_pos (by simp [hfd])]
      rw [List.append_cons] at h ⊢
      refine ih h (Or.inl ⟨rfl, ?_⟩) ?_ (Nat.le_of_succ_le_succ hturns)
      · rw [addresses_append]
        exact List.getLast?_concat.symm
      · rwa [isEmpty_concat]

/-- Behind a freed node the loop writes to it. -/
theorem removeLoop_none {turns : Nat} (h : Represents m (kept ++ rest))
    (hprev : Behind 1 prev removed kept rest m)
    (hbad : damages removeSocketFd 1 (!kept.isEmpty) removed rest = true)
    (hturns : rest.length ≤ turns) :
    removeLoop removeSocketFd 1 turns prev (addresses rest).head? m = none := by
  induction rest generalizing kept prev removed m turns with
  | nil => cases hbad
  | cons e rest ih =>
    obtain ⟨turns, rfl⟩ : ∃ n, turns = n + 1 := by
      rw [List.length_cons] at hturns
      exact ⟨turns - 1, by omega⟩
    rw [addresses_cons, List.head?_cons, removeLoop_cons h]
    unfold damages at hbad
    by_cases hfd : e.forwardSocketFd = removeSocketFd
    · rw [if_pos hfd] at hbad ⊢
      cases removed with
      | true =>
        rcases hprev with ⟨hfalse, -⟩ | ⟨-, d, rfl, -, hsome⟩
        · cases hfalse
        · have hnone : m.heap d = none := by
            rw [← Option.not_isSome_iff_eq_none, hsome]
            simp
          unfold takeOut setNext
          simp only [hnone]
      | false =>
        obtain ⟨m₁, htake, hrep, hsome⟩ := takeOut_behind h hprev rfl
        obtain ⟨hrep, hsome⟩ := hrep.release h.not_mem hsome 1
        rw [htake]
        exact ih hrep (Or.inr ⟨rfl, e.address, rfl, h.not_mem, hsome⟩) hbad
          (Nat.le_of_succ_le_succ hturns)
    · rw [if_neg hfd] at hbad ⊢
      rw [List.append_cons] at h
      refine ih h (Or.inl ⟨rfl, ?_⟩) ?_ (Nat.le_of_succ_le_succ hturns)
      · rw [addresses_append]
        exact List.getLast?_concat.symm
      · rwa [isEmpty_concat]

/-- Removing, where it does no damage. -/
theorem Represents.remove (h : Represents m entries)
    (hok : damages removeSocketFd freeMemory false false entries = false) :
    ∃ m', removeWaitingClient removeSocketFd freeMemory m = some m' ∧
      Represents m' (entries.filter fun e => e.forwardSocketFd ≠ removeSocketFd) := by
  unfold removeWaitingClient
  rw [h.path.head]
  exact @removeLoop_eq removeSocketFd freeMemory m [] entries none false m.mallocs h
    (Or.inl ⟨rfl, rfl⟩) hok h.bound

/-- Removing and freeing, where it does. -/
theorem Represents.remove_none (h : Represents m entries)
    (hbad : damages removeSocketFd 1 false false entries = true) :
    removeWaitingClient removeSocketFd 1 m = none := by
  unfold removeWaitingClient
  rw [h.path.head]
  exact @removeLoop_none removeSocketFd m [] entries none false m.mallocs h
    (Or.inl ⟨rfl, rfl⟩) hbad h.bound

/-- `remove_waiting_client` with `free_memory` on the entries, where it is defined. -/
def removeEntries (removeSocketFd : Int) (entries : List Entry) : Option (List Entry) :=
  if damages removeSocketFd 1 false false entries then none
  else some (entries.filter fun e => e.forwardSocketFd ≠ removeSocketFd)

theorem Represents.removeEntries (h : Represents m entries) (removeSocketFd : Int) :
    match removeEntries removeSocketFd entries with
    | none => removeWaitingClient removeSocketFd 1 m = none
    | some entries' => ∃ m', removeWaitingClient removeSocketFd 1 m = some m' ∧
        Represents m' entries' := by
  unfold WaitingClients.removeEntries
  by_cases hbad : damages removeSocketFd 1 false false entries = true
  · rw [if_pos hbad]
    exact h.remove_none hbad
  · rw [if_neg hbad]
    exact h.remove (Bool.not_eq_true _ ▸ hbad)

/-- The loop of `get_waiting_client` goes through the entries. -/
theorem getLoop_eq {filename : List UInt8} {turns : Nat} (h : Represents m (kept ++ rest))
    (hturns : rest.length ≤ turns) (rtn : Option Nat) :
    getLoop filename m turns (addresses rest).head? rtn = some (lastNamed filename rtn rest) := by
  induction rest generalizing kept turns rtn with
  | nil =>
    cases turns with
    | zero => rfl
    | succ turns => rfl
  | cons e rest ih =>
    obtain ⟨turns, rfl⟩ : ∃ n, turns = n + 1 := by
      rw [List.length_cons] at hturns
      exact ⟨turns - 1, by omega⟩
    rw [addresses_cons, List.head?_cons, getLoop, h.heap_eq (by simp)]
    simp only [h.next_eq, lastNamed]
    rw [List.append_cons] at h
    exact ih h (Nat.le_of_succ_le_succ hturns) _

theorem Represents.getWaitingClient (h : Represents m entries) (filename : List UInt8) :
    getWaitingClient filename m = some (lastNamed filename none entries) := by
  unfold WaitingClients.getWaitingClient
  rw [h.path.head]
  exact @getLoop_eq m [] entries filename m.mallocs h h.bound none

end Loop

/-! ## Runs -/

/-- The list, unless what it does is undefined, and the clients that were created and not
removed. -/
structure State where
  store : Option Store
  clients : List Entry

def State.initial : State := ⟨some .initial, []⟩

inductive Event where
  | create (filename : List UInt8) (sockFd : Int) (a : Nat)
  | remove (removeSocketFd freeMemory : Int)

/-- One call. `malloc` returns no address that is in use. -/
def step (s : State) : Event → State × Unit
  | .create filename sockFd a =>
    match s.store with
    | none => (s, ())
    | some m =>
      if (m.heap a).isSome then (s, ())
      else
        (⟨createWaitingClient filename sockFd a m, s.clients ++ [⟨a, filename, sockFd⟩]⟩, ())
  | .remove removeSocketFd freeMemory =>
    (⟨s.store.bind (removeWaitingClient removeSocketFd freeMemory),
      s.clients.filter fun e => e.forwardSocketFd ≠ removeSocketFd⟩, ())

/-- No two neighbours are removed; those at the front may be, if they are not freed and others
remain behind them. -/
def Apart (s : State) (e : Event) : Prop :=
  ∀ removeSocketFd freeMemory l x y r, e = .remove removeSocketFd freeMemory →
    s.clients = l ++ x :: y :: r → x.forwardSocketFd = removeSocketFd →
    y.forwardSocketFd = removeSocketFd →
    freeMemory ≠ 1 ∧ (∀ z ∈ l, z.forwardSocketFd = removeSocketFd) ∧
      ∃ z ∈ r, z.forwardSocketFd ≠ removeSocketFd

/-- What `Apart` says, along the list. -/
theorem damages_eq_false {removeSocketFd freeMemory : Int} {done rest : List Entry}
    {kept removed : Bool}
    (h : ∀ l x y r, done ++ rest = l ++ x :: y :: r → x.forwardSocketFd = removeSocketFd →
      y.forwardSocketFd = removeSocketFd →
      freeMemory ≠ 1 ∧ (∀ z ∈ l, z.forwardSocketFd = removeSocketFd) ∧
        ∃ z ∈ r, z.forwardSocketFd ≠ removeSocketFd)
    (hkept : kept = true → ∃ z ∈ done, z.forwardSocketFd ≠ removeSocketFd)
    (hremoved : removed = true → ∃ l x, done = l ++ [x] ∧ x.forwardSocketFd = removeSocketFd) :
    damages removeSocketFd freeMemory kept removed rest = false := by
  induction rest generalizing done kept removed with
  | nil => rfl
  | cons e rest ih =>
    have hnext := h
    rw [List.append_cons] at hnext
    unfold damages
    by_cases hfd : e.forwardSocketFd = removeSocketFd
    · rw [if_pos hfd, Bool.or_eq_false_iff]
      constructor
      · cases removed with
        | false => rfl
        | true =>
          obtain ⟨l, x, rfl, hx⟩ := hremoved rfl
          obtain ⟨hfree, hl, z, hz, -⟩ :=
            h l x e rest (List.append_cons l x (e :: rest)).symm hx hfd
          have hnone : kept = false := by
            cases kept with
            | false => rfl
            | true =>
              obtain ⟨w, hw, hne⟩ := hkept rfl
              rcases List.mem_append.mp hw with hw | hw
              · exact absurd (hl w hw) hne
              · exact absurd (List.mem_singleton.mp hw ▸ hx) hne
          rw [hnone]
          simp [hfree, List.ne_nil_of_mem hz]
      · refine ih hnext (fun hk => ?_) fun _ => ⟨done, e, rfl, hfd⟩
        obtain ⟨z, hz, hne⟩ := hkept hk
        exact ⟨z, List.mem_append_left _ hz, hne⟩
    · rw [if_neg hfd]
      exact ih hnext (fun _ => ⟨e, by simp, hfd⟩) fun hfalse => (by cases hfalse)

/-- The list is in memory what it should be. -/
def Correct (s : State) : Prop :=
  ∃ m, s.store = some m ∧ Represents m s.clients ∧ (m.waitingTail = none ↔ s.clients = [])

theorem Correct.of_represents {m : Store} {entries : List Entry} (h : Represents m entries) :
    Correct ⟨some m, entries⟩ := by
  refine ⟨m, rfl, h, ?_⟩
  rw [h.tail, List.getLast?_eq_none_iff]
  exact List.map_eq_nil_iff

theorem Correct.step {s : State} (h : Correct s) {e : Event} (hapart : Apart s e) :
    Correct (step s e).1 := by
  have hcorrect := h
  obtain ⟨m, hstore, hrep, -⟩ := h
  cases e with
  | create filename sockFd a =>
    simp only [WaitingClients.step, hstore]
    split
    · exact hcorrect
    · rename_i hfree
      rw [Option.not_isSome_iff_eq_none] at hfree
      obtain ⟨m', hcreate, hrep'⟩ := hrep.create filename sockFd hfree
      rw [hcreate]
      exact .of_represents hrep'
  | remove removeSocketFd freeMemory =>
    have hok : damages removeSocketFd freeMemory false false s.clients = false :=
      @damages_eq_false removeSocketFd freeMemory [] s.clients false false
        (fun l x y r => hapart removeSocketFd freeMemory l x y r rfl)
        (fun hfalse => by cases hfalse) fun hfalse => by cases hfalse
    obtain ⟨m', hremove, hrep'⟩ := hrep.remove hok
    simp only [WaitingClients.step, hstore, Option.bind_some, hremove]
    exact .of_represents hrep'

/-- **The waiting clients are a queue as long as no neighbours are removed together**: in every
run in which each call that removes finds no two neighbours with its descriptor (other than at
the front, not to be freed and with others behind them), the list is in every state the clients
created and not removed, in their order, it ends, it has no freed node, and the tail is its
last. -/
theorem queue_correct (events : List Event)
    (h : ∀ k e, events[k]? = some e → Apart (stateAt step .initial events k) e) (k : Nat)
    (hk : k ≤ events.length) : Correct (stateAt step .initial events k) := by
  refine stateAt_invariant Correct (.of_represents .initial) (fun k e he hcorrect => ?_) k hk
  rw [stateAt_succ he]
  exact hcorrect.step (h k e he)

/-- One descriptor twice, but not at neighbours. -/
def apartRun : List Event := [.create [65] 5 1, .create [66] 6 2, .create [67] 5 3, .remove 5 1]

theorem queue_correct_apartRun : Correct (stateAt step .initial apartRun 4) := by
  refine queue_correct apartRun (fun k e he removeSocketFd freeMemory l x y r hremove hclients
    hx hy => ?_) 4 (by decide)
  rcases k with _ | _ | _ | _ | k
  · cases he
    cases hremove
  · cases he
    cases hremove
  · cases he
    cases hremove
  · cases he
    cases hremove
    have hlist : [⟨1, [65], 5⟩, ⟨2, [66], 6⟩, ⟨3, [67], 5⟩] = l ++ x :: y :: r := hclients
    rcases l with _ | ⟨a, _ | ⟨b, l⟩⟩
    · cases hlist
      cases hy
    · cases hlist
      cases hx
    · have hlength := congrArg List.length hlist
      simp only [List.length_append, List.length_cons, List.length_nil] at hlength
      omega
  · cases he

/-- Both clients have the same descriptor. -/
def neighboursRun (freeMemory : Int) : List Event :=
  [.create [65] 5 1, .create [66] 5 2, .remove 5 freeMemory]

/-- The second is removed behind a freed node; and where nodes are not freed, the tail is not
null although no client is left. -/
theorem not_correct_neighboursRun :
    ¬ Correct (stateAt step .initial (neighboursRun 1) 3) ∧
      ¬ Correct (stateAt step .initial (neighboursRun 0) 3) := by
  constructor
  · rintro ⟨m, hstore, -⟩
    have hnone : (stateAt step .initial (neighboursRun 1) 3).store.isNone := by decide
    rw [hstore] at hnone
    cases hnone
  · rintro ⟨m, hstore, -, htail⟩
    have hsome : (stateAt step .initial (neighboursRun 0) 3).store.bind Store.waitingTail =
      some 1 := by decide
    rw [hstore] at hsome
    cases (htail.mpr rfl).symm.trans hsome

end LoPhi.Server.WaitingClients
