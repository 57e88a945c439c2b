import Mathlib.Algebra.Ring.Int.Defs
import Mathlib.Algebra.Ring.Nat

/-!
# Signed results that must fit

In C++ a signed operation whose result is not a value of the type has no
defined behaviour.  `checked x` is the 64-bit integer with the value `x`, and
`none` if there is none; code whose every signed result is checked returns
`some …` exactly if nothing overflows.
-/

namespace HftEngine.Lib

def checked (x : Int) : Option Int64 :=
  if -2 ^ 63 ≤ x ∧ x < 2 ^ 63 then some (Int64.ofInt x) else none

theorem checked_of_lt {n : Nat} (h : n < 2 ^ 63) : checked n = some (Int64.ofNat n) := by
  rw [checked, if_pos (by omega), Int64.ofInt_eq_ofNat]

theorem checked_of_ge {n : Nat} (h : 2 ^ 63 ≤ n) : checked n = none := by
  rw [checked, if_neg (by omega)]

end HftEngine.Lib
