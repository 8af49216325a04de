import Mathlib.Algebra.Order.Group.Nat
import Mathlib.Data.Nat.Bitwise

/-! Powers of two as bit masks: the low bits of a word are a remainder, and a word without them is
rounded down. -/
namespace Masks

def complement (w x : ℕ) : ℕ := 2^w - 1 - x

variable {a w x : ℕ}

end Masks
