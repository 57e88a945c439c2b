import HftEngine.Fix.Checksum
import HftEngine.Fix.Tags

/-!
# Prices

What tag 44 makes of a value, whatever bytes it has.  Only the digits count,
wherever they are, and the first point: the price is the number all digits
denote together, times ten for each of four places that is not there behind
the point (`exactTicks`), modulo `2^64` (`readPrice_eq`).  More than four places
are not taken off again, and a sign is not looked at.
-/

namespace HftEngine.Fix

open Lib

/-! ## Numbers in digits -/

/-- The number that digits denote behind those of `m`. -/
def numberFrom (m : Nat) (digits : List UInt8) : Nat :=
  digits.foldl (fun k c => 10 * k + (asciiToDigit c).toNat) m

theorem numberFrom_cons (m : Nat) (c : UInt8) (digits : List UInt8) :
    numberFrom m (c :: digits) = numberFrom (10 * m + (asciiToDigit c).toNat) digits := rfl

theorem le_numberFrom (m : Nat) (digits : List UInt8) : m ≤ numberFrom m digits := by
  induction digits generalizing m with
  | nil => exact le_rfl
  | cons c digits ih =>
    rw [numberFrom_cons]
    have hle := ih (10 * m + (asciiToDigit c).toNat)
    omega

theorem numberFrom_eq (m : Nat) (digits : List UInt8) :
    numberFrom m digits = m * 10 ^ digits.length + numberFrom 0 digits := by
  induction digits generalizing m with
  | nil => simp [numberFrom]
  | cons c digits ih =>
    rw [numberFrom_cons, numberFrom_cons, ih, ih (10 * 0 + _), List.length_cons, Nat.pow_succ]
    ring

theorem number_append (digits digits' : List UInt8) :
    number (digits ++ digits') = number digits * 10 ^ digits'.length + number digits' := by
  have hfrom : number (digits ++ digits') = numberFrom (number digits) digits' := List.foldl_append
  rw [hfrom, numberFrom_eq]
  rfl

/-! ## What a value denotes -/

/-- The digits of a value. -/
def priceDigits (value : List UInt8) : List UInt8 := value.filter isDigit

/-- The number of digits behind the first point. -/
def pricePlaces (value : List UInt8) : Nat :=
  (priceDigits (value.dropWhile fun c => c ≠ '.'.toUInt8)).length

/-- The price, were there no largest integer. -/
def exactTicks (value : List UInt8) : Nat :=
  number (priceDigits value) * 10 ^ (4 - pricePlaces value)

theorem isDigit_point : isDigit '.'.toUInt8 = false := rfl

theorem priceDigits_of_digit {c : UInt8} (hc : isDigit c = true) (cs : List UInt8) :
    priceDigits (c :: cs) = c :: priceDigits cs := List.filter_cons_of_pos hc

theorem priceDigits_of_other {c : UInt8} (hc : isDigit c = false) (cs : List UInt8) :
    priceDigits (c :: cs) = priceDigits cs := List.filter_cons_of_neg (by simp [hc])

theorem pricePlaces_point (cs : List UInt8) :
    pricePlaces ('.'.toUInt8 :: cs) = (priceDigits cs).length := by
  rw [pricePlaces, List.dropWhile_cons_of_neg (by simp), priceDigits_of_other isDigit_point]

theorem pricePlaces_of_ne {c : UInt8} (hc : c ≠ '.'.toUInt8) (cs : List UInt8) :
    pricePlaces (c :: cs) = pricePlaces cs := by
  rw [pricePlaces, List.dropWhile_cons_of_pos (by simp [hc])]
  rfl

/-! ## The scan -/

/-- The places a scan counts in a value, before the point or behind it. -/
def placesFrom (inDecimal : Bool) (value : List UInt8) : Nat :=
  if inDecimal then (priceDigits value).length else pricePlaces value

theorem placesFrom_point (inDecimal : Bool) (cs : List UInt8) :
    placesFrom inDecimal ('.'.toUInt8 :: cs) = placesFrom true cs := by
  cases inDecimal with
  | false => exact pricePlaces_point cs
  | true => exact congrArg List.length (priceDigits_of_other isDigit_point cs)

theorem placesFrom_other {c : UInt8} (hpoint : c ≠ '.'.toUInt8) (hc : isDigit c = false)
    (inDecimal : Bool) (cs : List UInt8) :
    placesFrom inDecimal (c :: cs) = placesFrom inDecimal cs := by
  rw [placesFrom, placesFrom, priceDigits_of_other hc, pricePlaces_of_ne hpoint]

theorem placesFrom_digit {c : UInt8} (hpoint : c ≠ '.'.toUInt8) (hc : isDigit c = true)
    (inDecimal : Bool) (places : Nat) (cs : List UInt8) :
    places + placesFrom inDecimal (c :: cs) =
      (if inDecimal then places + 1 else places) + placesFrom inDecimal cs := by
  rw [placesFrom, placesFrom, priceDigits_of_digit hc, pricePlaces_of_ne hpoint, List.length_cons]
  cases inDecimal with
  | false => rfl
  | true => exact (Nat.add_right_comm places 1 _).symm

theorem step_point (s : PriceScan) : s.step '.'.toUInt8 = { s with inDecimal := true } := by
  rw [PriceScan.step, if_pos rfl]

theorem step_other {c : UInt8} (hpoint : c ≠ '.'.toUInt8) (hc : isDigit c = false) (s : PriceScan) :
    s.step c = s := by
  rw [PriceScan.step, if_neg hpoint, if_neg (by simp [hc])]

theorem step_digit {c : UInt8} (hc : isDigit c = true) (m places : Nat) (inDecimal : Bool) :
    PriceScan.step ⟨Int64.ofNat m, places, inDecimal⟩ c =
      ⟨Int64.ofNat (10 * m + (asciiToDigit c).toNat), if inDecimal then places + 1 else places,
        inDecimal⟩ := by
  have hle := (toNat_of_isDigit hc).2
  have hstep := priceScan_digit (m := m) (k := (asciiToDigit c).toNat) (by omega) places inDecimal
  rwa [digitByte_asciiToDigit hc] at hstep

theorem foldl_step (value : List UInt8) (m places : Nat) (inDecimal : Bool) :
    ∃ inDecimal', value.foldl PriceScan.step ⟨Int64.ofNat m, places, inDecimal⟩ =
      ⟨Int64.ofNat (numberFrom m (priceDigits value)), places + placesFrom inDecimal value,
        inDecimal'⟩ := by
  induction value generalizing m places inDecimal with
  | nil => exact ⟨inDecimal, by cases inDecimal <;> rfl⟩
  | cons c cs ih =>
    rw [List.foldl_cons]
    by_cases hpoint : c = '.'.toUInt8
    · subst hpoint
      rw [step_point, priceDigits_of_other isDigit_point, placesFrom_point]
      exact ih m places true
    · cases hc : isDigit c with
      | false =>
        rw [step_other hpoint hc, priceDigits_of_other hc, placesFrom_other hpoint hc]
        exact ih m places inDecimal
      | true =>
        rw [step_digit hc, priceDigits_of_digit hc, numberFrom_cons, placesFrom_digit hpoint hc]
        exact ih _ _ inDecimal

theorem padDecimals_eq (k m : Nat) : padDecimals k (Int64.ofNat m) = Int64.ofNat (m * 10 ^ k) := by
  induction k generalizing m with
  | zero => rw [padDecimals, Nat.pow_zero, Nat.mul_one]
  | succ k ih =>
    have hten : Int64.ofNat m * 10 = Int64.ofNat (m * 10) := (Int64.ofNat_mul m 10).symm
    rw [padDecimals, hten, ih, Nat.pow_succ, Nat.mul_assoc, Nat.mul_comm 10]

theorem foldl_step_start (value : List UInt8) :
    ∃ inDecimal, value.foldl PriceScan.step {} =
      ⟨Int64.ofNat (number (priceDigits value)), pricePlaces value, inDecimal⟩ := by
  obtain ⟨inDecimal, h⟩ := foldl_step value 0 0 false
  rw [Nat.zero_add] at h
  exact ⟨inDecimal, h⟩

/-- What tag 44 reads. -/
theorem readPrice_eq (value : List UInt8) : readPrice value = Int64.ofNat (exactTicks value) := by
  obtain ⟨inDecimal, hscan⟩ := foldl_step_start value
  rw [readPrice, hscan]
  exact padDecimals_eq _ _

theorem applyField_price {tag : UInt32} (htag : tag.toNat = 44) (value : List UInt8)
    (msg : FixMessage) : applyField tag value msg = { msg with priceTicks := readPrice value } := by
  unfold applyField
  rw [htag]
  rfl

end HftEngine.Fix
