import Mathlib.Data.List.Basic
import Mathlib.Data.List.TakeDrop
import Mathlib.Logic.Relation

/-! # Transfers in lock-step

A sender and a receiver: the next block is sent when the one before has been kept, and a block is
kept when it is the next. Whatever else happens between the two, the receiver has the first
blocks, in order, and is at most one behind.

A sequence is cut into blocks of one size and a shorter last one, which may be empty. -/

namespace LoPhi.Lib.Lockstep

/-! ## Blocks of a sequence -/

section Blocks
variable {α : Type*} {size : Nat} {content : List α} {k m : Nat}

/-- Block number `k`, counted from one. -/
def block (size : Nat) (content : List α) (k : Nat) : List α :=
  (content.drop ((k - 1) * size)).take size

/-- How many blocks there are, with the short one. -/
def blockCount (size : Nat) (content : List α) : Nat := content.length / size + 1

/-- The first `m` blocks. -/
def firstBlocks (size : Nat) (content : List α) (m : Nat) : List (List α) :=
  (List.range m).map fun i => block size content (i + 1)

theorem length_block_le : (block size content k).length ≤ size := List.length_take_le _ _

theorem length_block :
    (block size content k).length = min size (content.length - (k - 1) * size) := by
  rw [block, List.length_take, List.length_drop]

theorem length_block_succ : (block size content (k + 1)).length = size ↔
    (k + 1) * size ≤ content.length ∨ size = 0 := by
  rw [length_block, Nat.add_sub_cancel, Nat.succ_mul]
  omega

/-- All blocks but the last are full. -/
theorem full_iff (hsize : 0 < size) :
    (block size content (k + 1)).length = size ↔ k + 1 < blockCount size content := by
  rw [length_block_succ, blockCount, Nat.lt_succ_iff, Nat.le_div_iff_mul_le hsize]
  omega

@[simp] theorem length_firstBlocks : (firstBlocks size content m).length = m := by
  simp [firstBlocks]

theorem firstBlocks_succ :
    firstBlocks size content (m + 1) =
      firstBlocks size content m ++ [block size content (m + 1)] := by
  simp [firstBlocks, List.range_succ]

theorem flatten_firstBlocks : (firstBlocks size content m).flatten = content.take (m * size) := by
  induction m with
  | zero => simp [firstBlocks]
  | succ m ih =>
    rw [firstBlocks_succ, List.flatten_append, ih, List.flatten_singleton, block,
      Nat.add_sub_cancel, Nat.succ_mul, List.take_add]

theorem flatten_all (hsize : 0 < size) (h : blockCount size content ≤ m) :
    (firstBlocks size content m).flatten = content := by
  rw [flatten_firstBlocks]
  refine List.take_of_length_le ?_
  have hlt := Nat.lt_mul_div_succ content.length hsize
  calc content.length ≤ (content.length / size + 1) * size := by
        rw [Nat.mul_comm]
        exact Nat.le_of_lt hlt
    _ ≤ m * size := Nat.mul_le_mul_right size h

end Blocks

/-! ## The two sides -/

variable {β : Type*}

/-- The number of blocks the sender has sent, and the blocks the receiver has kept. -/
structure Transfer (β : Type*) where
  sent : Nat
  kept : List β

inductive Step (blockOf : Nat → β) : Transfer β → Transfer β → Prop
  | send {t : Transfer β} : t.sent = t.kept.length →
      Step blockOf t ⟨t.sent + 1, t.kept⟩
  | keep {t : Transfer β} : t.kept.length < t.sent →
      Step blockOf t ⟨t.sent, t.kept ++ [blockOf (t.kept.length + 1)]⟩

/-- The receiver has the first blocks and is at most one behind. -/
structure InStep (blockOf : Nat → β) (t : Transfer β) : Prop where
  kept : t.kept = (List.range t.kept.length).map fun i => blockOf (i + 1)
  behind : t.kept.length ≤ t.sent
  ahead : t.sent ≤ t.kept.length + 1

variable {blockOf : Nat → β} {t t' : Transfer β}

theorem inStep_start (n : Nat) (h : n ≤ 1) : InStep blockOf ⟨n, []⟩ :=
  ⟨rfl, Nat.zero_le _, h⟩

theorem InStep.step (h : InStep blockOf t) (hstep : Step blockOf t t') : InStep blockOf t' := by
  cases hstep with
  | send hlast =>
    exact ⟨h.kept, Nat.le_succ_of_le h.behind, Nat.succ_le_succ (Nat.le_of_eq hlast)⟩
  | keep hbehind =>
    have hlength : (t.kept ++ [blockOf (t.kept.length + 1)]).length = t.kept.length + 1 := by
      rw [List.length_append, List.length_singleton]
    refine ⟨?_, ?_, ?_⟩
    · dsimp only
      rw [hlength, List.range_succ, List.map_append, ← h.kept]
      rfl
    · dsimp only
      rw [hlength]
      exact hbehind
    · dsimp only
      rw [hlength]
      exact Nat.le_succ_of_le h.ahead

/-- What was kept as block number `k + 1`. -/
theorem InStep.get (h : InStep blockOf t) {k : Nat} (hk : k < t.kept.length) :
    t.kept[k]? = some (blockOf (k + 1)) := by
  have hget := congrArg (fun kept : List β => kept[k]?) h.kept
  rw [List.getElem?_map, List.getElem?_range hk, Option.map_some] at hget
  exact hget

theorem InStep.steps (h : InStep blockOf t)
    (hsteps : Relation.ReflTransGen (Step blockOf) t t') : InStep blockOf t' := by
  induction hsteps with
  | refl => exact h
  | tail _ hstep ih => exact ih.step hstep

end LoPhi.Lib.Lockstep
