import Mathlib.Order.Lattice

/-!
# Fixed-width integers

The orders and the conversions to `Nat` that proofs about fixed-width
integers use.  `Int64` gets its `LinearOrder`, so that sorted-list results over
a linear order apply to 64-bit keys.
-/

namespace HftEngine.Lib

instance linearOrderInt64 : LinearOrder Int64 where
  le_refl := Int64.le_refl
  le_trans _ _ _ := Int64.le_trans
  le_antisymm _ _ := Int64.le_antisymm
  le_total := Int64.le_total
  lt_iff_le_not_ge a b := by
    rw [Int64.not_le]
    exact ⟨fun h => ⟨Int64.le_of_lt h, h⟩, fun h => h.2⟩
  toDecidableLE := inferInstance
  toDecidableEq := inferInstance
  toDecidableLT := inferInstance

/-- Negation is exact but at the least value, which has no negative. -/
theorem Int64.toInt_neg_of_ne {a : Int64} (h : a ≠ Int64.minValue) : (-a).toInt = -a.toInt := by
  have hne : a.toInt ≠ -2 ^ 63 := by
    rw [← Int64.toInt_minValue]
    exact fun heq => h (Int64.toInt_inj.mp heq)
  have hlo := a.le_toInt
  have hhi := a.toInt_lt
  rw [Int64.toInt_neg]
  exact Int.bmod_eq_of_le (by omega) (by omega)

theorem Int64.neg_lt_neg_iff {a b : Int64} (ha : a ≠ Int64.minValue) (hb : b ≠ Int64.minValue) :
    -a < -b ↔ b < a := by
  rw [Int64.lt_iff_toInt_lt, Int64.lt_iff_toInt_lt, toInt_neg_of_ne ha, toInt_neg_of_ne hb]
  omega

end HftEngine.Lib
