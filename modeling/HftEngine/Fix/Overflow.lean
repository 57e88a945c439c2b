import HftEngine.Lib.Checked
import HftEngine.Fix.Members
import HftEngine.Fix.Price

/-!
# Overflow while a price is read

The scan of a price and the loop that fills up its places multiply and add in
`int64_t`, and nothing bounds the number of digits.  `parseStrict` is `parse`
with every signed result of the two loops checked: it is `none` where `parse`
overflows, and the same everywhere else.

All intermediate results are at most the last one, so a value is read without
overflow exactly if the price itself fits (`readPriceStrict_eq`), and a buffer
exactly if this is so of every value it is read to have under tag 44
(`price_fits_iff`).
-/

namespace HftEngine.Fix

open Lib

/-! ## The loops, checked -/

def PriceScan.stepStrict (s : PriceScan) (c : UInt8) : Option PriceScan :=
  if c = '.'.toUInt8 then some { s with inDecimal := true }
  else if isDigit c then do
    let product ← checked (s.priceInt.toInt * 10)
    let priceInt ← checked (product.toInt + (c - '0'.toUInt8).toNat)
    return { s with
      priceInt := priceInt
      decimalPlaces := if s.inDecimal then s.decimalPlaces + 1 else s.decimalPlaces }
  else some s

def padDecimalsStrict : Nat → Int64 → Option Int64
  | 0, priceInt => some priceInt
  | k + 1, priceInt => do
    let priceInt ← checked (priceInt.toInt * 10)
    padDecimalsStrict k priceInt

def readPriceStrict (value : List UInt8) : Option Int64 := do
  let s ← value.foldlM PriceScan.stepStrict {}
  padDecimalsStrict (4 - s.decimalPlaces) s.priceInt

/-- The `switch`, with tag 44 checked. -/
def applyFieldStrict (tag : UInt32) (value : List UInt8) (msg : FixMessage) : Option FixMessage :=
  match tag.toNat with
  | 44 => (readPriceStrict value).map fun priceTicks => { msg with priceTicks := priceTicks }
  | _ => some (applyField tag value msg)

def parseStrict (buf : Option (List UInt8)) (len : Nat) : Option FixMessage :=
  match buf with
  | none => some {}
  | some mem => if len = 0 then some {} else parseFieldsWith applyFieldStrict mem len 0 {}

/-! ## One value -/

section Value

variable {m : Nat}

theorem stepStrict_digit (hm : m < 2 ^ 63) {c : UInt8} (hpoint : c ≠ '.'.toUInt8)
    (hc : isDigit c = true) (places : Nat) (inDecimal : Bool) :
    PriceScan.stepStrict ⟨Int64.ofNat m, places, inDecimal⟩ c =
      if 10 * m + (asciiToDigit c).toNat < 2 ^ 63 then
        some (PriceScan.step ⟨Int64.ofNat m, places, inDecimal⟩ c) else none := by
  have hdigit : (c - '0'.toUInt8).toNat = (asciiToDigit c).toNat := by rw [asciiToDigit, if_pos hc]
  have hproduct : (Int64.ofNat m).toInt * 10 = ((10 * m : Nat) : Int) := by
    rw [Int64.toInt_ofNat_of_lt hm, Nat.cast_mul, Int.mul_comm]
    rfl
  rw [step_digit hc, PriceScan.stepStrict, if_neg hpoint, if_pos hc, hdigit, hproduct]
  by_cases hsmall : 10 * m < 2 ^ 63
  · -- the product fits; does the sum?
    rw [checked_of_lt hsmall]
    simp only [Option.bind_eq_bind, Option.bind_some]
    rw [Int64.toInt_ofNat_of_lt hsmall, ← Nat.cast_add]
    by_cases hfits : 10 * m + (asciiToDigit c).toNat < 2 ^ 63
    · rw [checked_of_lt hfits, if_pos hfits]
      rfl
    · rw [checked_of_ge (by omega), if_neg hfits]
      rfl
  · rw [checked_of_ge (by omega), if_neg (show ¬ 10 * m + (asciiToDigit c).toNat < 2 ^ 63 by omega)]
    rfl

/-- The scan overflows exactly if its last result would not fit. -/
theorem foldlM_stepStrict (value : List UInt8) (hm : m < 2 ^ 63) (places : Nat)
    (inDecimal : Bool) :
    value.foldlM PriceScan.stepStrict ⟨Int64.ofNat m, places, inDecimal⟩ =
      if numberFrom m (priceDigits value) < 2 ^ 63 then
        some (value.foldl PriceScan.step ⟨Int64.ofNat m, places, inDecimal⟩) else none := by
  induction value generalizing m places inDecimal with
  | nil => exact (if_pos hm).symm
  | cons c cs ih =>
    rw [List.foldlM_cons, List.foldl_cons]
    by_cases hpoint : c = '.'.toUInt8
    · subst hpoint
      rw [PriceScan.stepStrict, if_pos rfl, step_point, priceDigits_of_other isDigit_point]
      exact ih hm places true
    · cases hc : isDigit c with
      | false =>
        rw [PriceScan.stepStrict, if_neg hpoint, if_neg (by simp [hc]), step_other hpoint hc,
          priceDigits_of_other hc]
        exact ih hm places inDecimal
      | true =>
        rw [stepStrict_digit hm hpoint hc, step_digit hc, priceDigits_of_digit hc, numberFrom_cons]
        by_cases hfits : 10 * m + (asciiToDigit c).toNat < 2 ^ 63
        · rw [if_pos hfits]
          exact ih hfits _ inDecimal
        · have hle := le_numberFrom (10 * m + (asciiToDigit c).toNat) (priceDigits cs)
          rw [if_neg hfits, if_neg (by omega)]
          rfl

theorem padDecimalsStrict_eq (hm : m < 2 ^ 63) (k : Nat) :
    padDecimalsStrict k (Int64.ofNat m) =
      if m * 10 ^ k < 2 ^ 63 then some (padDecimals k (Int64.ofNat m)) else none := by
  induction k generalizing m with
  | zero =>
    rw [Nat.pow_zero, Nat.mul_one, if_pos hm]
    rfl
  | succ k ih =>
    have hproduct : (Int64.ofNat m).toInt * 10 = ((m * 10 : Nat) : Int) := by
      rw [Int64.toInt_ofNat_of_lt hm, Nat.cast_mul]
      rfl
    have hten : Int64.ofNat m * 10 = Int64.ofNat (m * 10) := (Int64.ofNat_mul m 10).symm
    have hpow : m * 10 ^ (k + 1) = m * 10 * 10 ^ k := by
      rw [Nat.pow_succ, Nat.mul_comm (10 ^ k), Nat.mul_assoc]
    rw [padDecimalsStrict, padDecimals, hproduct, hten, hpow]
    by_cases hfits : m * 10 < 2 ^ 63
    · rw [checked_of_lt hfits]
      exact ih hfits
    · have hle : m * 10 ≤ m * 10 * 10 ^ k := Nat.le_mul_of_pos_right _ (Nat.pow_pos (by omega))
      rw [checked_of_ge (by omega), if_neg (by omega)]
      rfl

end Value

/-- A value is read without overflow exactly if the price fits. -/
theorem readPriceStrict_eq (value : List UInt8) :
    readPriceStrict value =
      if exactTicks value < 2 ^ 63 then some (readPrice value) else none := by
  have hscan : value.foldlM PriceScan.stepStrict {} =
      if number (priceDigits value) < 2 ^ 63 then some (value.foldl PriceScan.step {}) else none :=
    foldlM_stepStrict value (show 0 < 2 ^ 63 by omega) 0 false
  obtain ⟨inDecimal, hfold⟩ := foldl_step_start value
  have hle : number (priceDigits value) ≤ exactTicks value :=
    Nat.le_mul_of_pos_right _ (Nat.pow_pos (by omega))
  rw [readPriceStrict, hscan]
  by_cases hsmall : number (priceDigits value) < 2 ^ 63
  · rw [if_pos hsmall, readPrice, hfold]
    exact padDecimalsStrict_eq hsmall _
  · rw [if_neg hsmall, if_neg (show ¬ exactTicks value < 2 ^ 63 by omega)]
    rfl

/-! ## A buffer -/

/-- The value of a field fits, if it is read as a price. -/
def PriceFits (tag : UInt32) (value : List UInt8) : Prop :=
  tag.toNat = 44 → exactTicks value < 2 ^ 63

instance instDecidablePriceFits (tag : UInt32) (value : List UInt8) :
    Decidable (PriceFits tag value) :=
  inferInstanceAs (Decidable (tag.toNat = 44 → exactTicks value < 2 ^ 63))

theorem applyFieldStrict_eq (tag : UInt32) (value : List UInt8) (msg : FixMessage) :
    applyFieldStrict tag value msg =
      if PriceFits tag value then some (applyField tag value msg) else none := by
  by_cases htag : tag.toNat = 44
  · rw [applyField_price htag, applyFieldStrict, htag]
    show (readPriceStrict value).map _ = _
    rw [readPriceStrict_eq]
    by_cases hfits : exactTicks value < 2 ^ 63
    · rw [if_pos hfits, if_pos (show PriceFits tag value from fun _ => hfits)]
      rfl
    · rw [if_neg hfits, if_neg (show ¬ PriceFits tag value from fun h => hfits (h htag))]
      rfl
  · rw [if_pos (show PriceFits tag value from fun h => absurd h htag), applyFieldStrict]
    split
    · rename_i heq
      exact absurd heq htag
    · rfl

/-- Fields are read without overflow exactly if all prices among them fit. -/
theorem applyFieldsWith_strict (fs : List (List UInt8)) (msg : FixMessage) :
    applyFieldsWith applyFieldStrict fs msg =
      if ∀ f ∈ leadingFields fs, PriceFits (tagOf f.1) f.2 then
        applyFieldsWith (fun tag value msg => some (applyField tag value msg)) fs msg
      else none := by
  induction fs generalizing msg with
  | nil => simp [applyFieldsWith, leadingFields]
  | cons field fs ih =>
    rw [applyFieldsWith, applyFieldsWith, splitField, leadingFields]
    cases tagText field with
    | none => simp
    | some f =>
      show (applyFieldStrict (tagOf f.1) f.2 msg).bind _ = _
      rw [applyFieldStrict_eq]
      by_cases hfits : PriceFits (tagOf f.1) f.2
      · rw [if_pos hfits]
        simp only [List.forall_mem_cons, hfits, true_and]
        exact ih _
      · rw [if_neg hfits, if_neg fun h => hfits (h f List.mem_cons_self)]
        rfl

theorem parseStrict_grammar (buf tail : List UInt8) :
    parseStrict (some (buf ++ tail)) buf.length =
      applyFieldsWith applyFieldStrict (fields SOH buf) {} := by
  unfold parseStrict
  by_cases hnil : buf = []
  · subst hnil
    rfl
  · have hpos := List.length_pos_of_ne_nil hnil
    show (if buf.length = 0 then _ else _) = _
    rw [if_neg (by omega), parseFieldsWith_window _ (window_start buf tail)]

theorem parseStrict_eq (buf tail : List UInt8) :
    parseStrict (some (buf ++ tail)) buf.length =
      if ∀ f ∈ fieldsRead buf, PriceFits (tagOf f.1) f.2 then some (grammar buf) else none := by
  rw [parseStrict_grammar, applyFieldsWith_strict, applyFieldsWith_applyField _ rfl]
  rfl

theorem priceFits_iff (digits value : List UInt8) :
    PriceFits (tagOf digits) value ↔ (number digits % 2 ^ 32 = 44 → exactTicks value < 2 ^ 63) := by
  rw [PriceFits, tagOf_eq, UInt32.toNat_ofNat']

end HftEngine.Fix
