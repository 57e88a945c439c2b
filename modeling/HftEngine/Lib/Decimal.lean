import Mathlib.Data.Nat.Basic
import Mathlib.Data.UInt

/-!
# Decimal text

`decimal n` is `n` in ASCII digits, `signedDecimal` the same of an integer, as
`std::to_string` prints them.  A reader that takes one digit after the other
gets the number back whatever it computes in, as long as one more digit is
multiply-by-ten-and-add there (`foldl_decimal`).
-/

namespace HftEngine.Lib

/-- The bytes of an ASCII text. -/
def bytes (s : String) : List UInt8 := s.toList.map Char.toUInt8

def decimal (n : Nat) : List UInt8 := (Nat.toDigits 10 n).map Char.toUInt8

def signedDecimal (x : Int) : List UInt8 :=
  if x < 0 then '-'.toUInt8 :: decimal x.natAbs else decimal x.toNat

/-- The byte of a digit. -/
def digitByte (k : Nat) : UInt8 := UInt8.ofNat (48 + k)

theorem digitChar_toUInt8 {k : Nat} (hk : k < 10) : k.digitChar.toUInt8 = digitByte k := by
  have hall : ∀ k < 10, k.digitChar.toUInt8 = digitByte k := by decide
  exact hall k hk

theorem decimal_of_lt {n : Nat} (hn : n < 10) : decimal n = [digitByte n] := by
  rw [decimal, Nat.toDigits_of_lt_base hn, List.map_singleton, digitChar_toUInt8 hn]

theorem decimal_of_le {n : Nat} (hn : 10 ≤ n) :
    decimal n = decimal (n / 10) ++ [digitByte (n % 10)] := by
  rw [decimal, Nat.toDigits_of_base_le (by omega) hn, List.map_append, List.map_singleton,
    digitChar_toUInt8 (Nat.mod_lt _ (by omega))]
  rfl

theorem decimal_digit {n : Nat} {c : UInt8} (hc : c ∈ decimal n) : ∃ k < 10, c = digitByte k := by
  induction n using Nat.strong_induction_on with
  | _ n ih =>
    by_cases hn : n < 10
    · rw [decimal_of_lt hn, List.mem_singleton] at hc
      exact ⟨n, hn, hc⟩
    · rw [decimal_of_le (by omega), List.mem_append, List.mem_singleton] at hc
      rcases hc with hc | hc
      · exact ih (n / 10) (by omega) hc
      · exact ⟨n % 10, Nat.mod_lt _ (by omega), hc⟩

theorem signedDecimal_ofNat (n : Nat) : signedDecimal (n : Int) = decimal n := by
  rw [signedDecimal, if_neg (by omega), Int.toNat_natCast]

/-- Reading the digits of `n` from `num 0` leads to `num n`, if one more digit
takes `num m` to `num (10 * m + k)`. -/
theorem foldl_decimal {R : Type*} (g : R → UInt8 → R) (num : Nat → R)
    (hg : ∀ m k, k < 10 → g (num m) (digitByte k) = num (10 * m + k)) (n : Nat) :
    (decimal n).foldl g (num 0) = num n := by
  induction n using Nat.strong_induction_on with
  | _ n ih =>
    by_cases hn : n < 10
    · rw [decimal_of_lt hn, List.foldl_cons, List.foldl_nil, hg 0 n hn]
      congr 1
      omega
    · rw [decimal_of_le (by omega), List.foldl_append, ih (n / 10) (by omega), List.foldl_cons,
        List.foldl_nil, hg _ _ (Nat.mod_lt _ (by omega))]
      congr 1
      omega

end HftEngine.Lib
