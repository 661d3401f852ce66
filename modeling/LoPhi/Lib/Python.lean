import Mathlib.Algebra.Order.Ring.Nat
import Mathlib.Data.List.Basic

/-! # The parts of Python the sources lean on

The exceptions a call can raise, indexing with its bound check, slices with a
negative end and the unsigned formats of `struct`. A byte string is a list. -/

namespace LoPhi.Lib.Python

/-- The exceptions the modelled functions can raise. `IndexError` has two
messages and they mean different things here: a subscript out of range, and
`pop` on an empty list. -/
inductive PyError where
  | nameError (name : String)
  | attributeError
  | typeError
  | indexOutOfRange
  | popFromEmptyList
  | structError
  | socketTimeout
  deriving DecidableEq, Repr

/-- `xs[:-n]`. A slice never raises: with fewer than `n` entries it is empty. -/
def dropEnd {α : Type*} (n : Nat) (xs : List α) : List α := xs.take (xs.length - n)

@[simp] theorem dropEnd_length {α : Type*} (n : Nat) (xs : List α) :
    (dropEnd n xs).length = xs.length - n := by
  simp [dropEnd]

end LoPhi.Lib.Python
