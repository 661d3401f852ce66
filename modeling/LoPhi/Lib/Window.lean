import Mathlib.Algebra.Order.Ring.Nat
import Mathlib.Data.List.Basic

/-! # Stretches of an address space

The content of an address space is a function; a window lists its values from one
address on. Windows of neighbouring stretches add up, and parts of a window are
windows. -/

namespace LoPhi.Lib.Window

variable {α : Type*} {f g : Nat → α} {a m n : Nat}

/-- The values at the `n` addresses from `a` on. -/
def window (f : Nat → α) (a n : Nat) : List α := (List.range' a n).map f

@[simp] theorem length_window : (window f a n).length = n := by simp [window]

@[simp] theorem window_zero : window f a 0 = [] := rfl

theorem window_succ : window f a (n + 1) = f a :: window f (a + 1) n := rfl

theorem window_add (f : Nat → α) (a m n : Nat) :
    window f a (m + n) = window f a m ++ window f (a + m) n := by
  unfold window
  rw [← List.map_append, List.range'_append_1]

/-- The first chunk of a window and what follows it. -/
theorem window_split (f : Nat → α) (a chunk n : Nat) :
    window f a n = window f a (min chunk n) ++ window f (a + chunk) (n - chunk) := by
  by_cases h : n ≤ chunk
  · rw [Nat.min_eq_right h, Nat.sub_eq_zero_of_le h, window_zero, List.append_nil]
  · rw [Nat.min_eq_left (by omega), ← window_add, Nat.add_sub_cancel' (by omega)]

theorem window_congr (h : ∀ x, a ≤ x → x < a + n → f x = g x) : window f a n = window g a n := by
  refine List.map_congr_left fun x hx => ?_
  rw [List.mem_range'_1] at hx
  exact h x hx.1 hx.2

theorem window_shift (f : Nat → α) (a b n : Nat) :
    window (fun k => f (a + k)) b n = window f (a + b) n := by
  induction n generalizing b with
  | zero => rfl
  | succ n ih => rw [window_succ, window_succ, ih, Nat.add_assoc]

theorem window_const (c : α) (h : ∀ x, a ≤ x → x < a + n → f x = c) :
    window f a n = List.replicate n c := by
  rw [window_congr (g := fun _ => c) h, window, List.map_const', List.length_range']

theorem drop_window (h : m ≤ n) : (window f a n).drop m = window f (a + m) (n - m) := by
  obtain ⟨k, rfl⟩ := Nat.exists_eq_add_of_le h
  rw [window_add, List.drop_left' length_window, Nat.add_sub_cancel_left]

theorem take_window (h : m ≤ n) : (window f a n).take m = window f a m := by
  obtain ⟨k, rfl⟩ := Nat.exists_eq_add_of_le h
  rw [window_add, List.take_left' length_window]

theorem getElem?_window {i : Nat} (h : i < n) : (window f a n)[i]? = some (f (a + i)) := by
  unfold window
  rw [List.getElem?_map, List.getElem?_range' h]
  simp

end LoPhi.Lib.Window
