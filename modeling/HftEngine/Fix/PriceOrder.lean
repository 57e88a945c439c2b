import HftEngine.Lib.MachineInt
import HftEngine.Fix.Numeral
import HftEngine.Fix.Valid

/-!
# Prices in order

Numerals of different lengths, signs and numbers of places are compared: do
equal numbers give equal ticks, and smaller numbers no more ticks?  They do
without a sign and with at most four places (`readPrice_respects`).  A sign is
lost (`negative_out_of_order`), and a fifth place is worth ten times as much as
it should be, so that the ticks overflow where the price is far from it
(`places_out_of_order`).  `price_respects_number_iff` puts the three together.
-/

namespace HftEngine.Fix

open Lib

/-- A valid message with the numeral as a value of tag 44, the tag and the other
fields being given. -/
def Priced (tag : List UInt8) (before after : List (List UInt8)) (x : Numeral)
    (msg : FixMessage) : Prop :=
  ∃ buf tail, fields SOH buf = before ++ (tag ++ '='.toUInt8 :: x.text) :: after ∧
    parse (some (buf ++ tail)) buf.length = some msg ∧ msg.valid = true

/-- The price is read from the numeral, or from a later field whatever the
numeral is. -/
theorem priceTicks_priced {tag : List UInt8} (htag : ∀ c ∈ tag, isDigit c = true)
    (h44 : number tag = 44) {before after : List (List UInt8)} {x : Numeral} {msg : FixMessage}
    (h : Priced tag before after x msg) :
    msg.priceTicks = (latest (fun v => some (readPrice v))
      (under (names 44) (after.filterMap cutField))).getD (readPrice x.text) := by
  obtain ⟨buf, tail, hfields, hparse, hvalid⟩ := h
  rw [parse_eq, Option.some.injEq] at hparse
  subst hparse
  obtain ⟨hwell, _⟩ := (valid_iff buf).mp hvalid
  have hcut : cutField (tag ++ '='.toUInt8 :: x.text) = some (44, x.text) := by
    rw [cutField_eq htag, h44]
  have htagged : taggedFields buf =
      before.filterMap cutField ++ ([(44, x.text)] ++ after.filterMap cutField) := by
    rw [taggedFields, hfields, List.filterMap_append, List.filterMap_cons_some hcut]
    rfl
  rw [grammar_tagged hwell]
  show (latest _ (under (names 44) (taggedFields buf))).getD 0 = _
  rw [htagged, under_append, under_append, under_singleton,
    if_pos (show names 44 44 = true from rfl), latest_append, latest_append, latest_singleton]
  cases latest (fun v => some (readPrice v)) (under (names 44) (after.filterMap cutField)) <;> rfl

/-- Without a sign and with at most four places, ticks are ordered as the
numbers. -/
theorem readPrice_respects {x y : Numeral} (hx : x.negative = false ∧ x.places ≤ 4)
    (hy : y.negative = false ∧ y.places ≤ 4) (hfitsx : x.FitsInt64) (hfitsy : y.FitsInt64) :
    (x.value = y.value → readPrice x.text = readPrice y.text) ∧
      (x.value < y.value → readPrice x.text ≤ readPrice y.text) := by
  have hltx := (Numeral.value_mul_lt_iff hx.2 hx.1).mp (hfitsx.2.trans_lt (by norm_num))
  have hlty := (Numeral.value_mul_lt_iff hy.2 hy.1).mp (hfitsy.2.trans_lt (by norm_num))
  have hvx := Numeral.value_mul hx.2 hx.1
  have hvy := Numeral.value_mul hy.2 hy.1
  rw [readPrice_eq, readPrice_eq]
  refine ⟨fun heq => ?_, fun hlt => ?_⟩
  · rw [heq, hvy, Nat.cast_inj] at hvx
    rw [hvx]
  · rw [Int64.le_iff_toInt_le, Int64.toInt_ofNat_of_lt hltx, Int64.toInt_ofNat_of_lt hlty]
    have hle : x.value * 10000 ≤ y.value * 10000 := by linarith
    rw [hvx, hvy, Nat.cast_le] at hle
    exact_mod_cast hle

/-- A new order at a price. -/
def newOrderAt (x : Numeral) : List TextField :=
  plainFields ++ [.ofTag 44 x.text x.soh_not_mem_text]

theorem priced_newOrderAt (x : Numeral) :
    ∃ msg, Priced (decimal 44) [bytes "35=D"] [] x msg ∧ msg.priceTicks = readPrice x.text := by
  have hfields := fields_message_append (newOrderAt x) []
  have hparse := parse_message (newOrderAt x) []
  have htags : tagsAndValues (newOrderAt x) = [(35, bytes "D"), (44, x.text)] := by
    rw [newOrderAt, plainFields, List.singleton_append, tagsAndValues_ofTag, tagsAndValues_ofTag]
    rfl
  rw [List.append_nil, fields_nil, List.append_nil] at hfields
  rw [htags] at hparse
  exact ⟨_, ⟨message (newOrderAt x), [], hfields, hparse, rfl⟩, rfl⟩

theorem fitsInt64_ofNumber (negative : Bool) {n places : Nat}
    (h : n * 10000 ≤ (2 ^ 63 - 1) * 10 ^ places) :
    (Numeral.ofNumber negative n places).FitsInt64 := by
  have hpos : (0 : ℚ) < 10 ^ places := by positivity
  have hle : (n : ℚ) * 10000 / 10 ^ places ≤ 2 ^ 63 - 1 := by
    have hbound : (2 ^ 63 - 1 : ℚ) = ((2 ^ 63 - 1 : ℕ) : ℚ) := by norm_num
    rw [div_le_iff₀ hpos, hbound]
    exact_mod_cast h
  have hnonneg : (0 : ℚ) ≤ (n : ℚ) * 10000 / 10 ^ places := by positivity
  have hvalue : ∀ sign : ℚ, sign * n / 10 ^ places * 10000 = sign * (n * 10000 / 10 ^ places) :=
    fun sign => by ring
  rw [Numeral.FitsInt64, Numeral.value_ofNumber, hvalue]
  cases negative with
  | false =>
    show -2 ^ 63 ≤ 1 * _ ∧ 1 * _ ≤ _
    exact ⟨by linarith, by linarith⟩
  | true =>
    show -2 ^ 63 ≤ -1 * _ ∧ -1 * _ ≤ _
    exact ⟨by linarith, by linarith⟩

/-- A sign is lost: of two negative numbers the smaller gets the larger price. -/
theorem negative_out_of_order (places : Nat) :
    ∃ x y : Numeral, (x.negative = true ∧ x.places = places ∧ x.FitsInt64) ∧
      (y.negative = true ∧ y.places = places ∧ y.FitsInt64) ∧ x.value < y.value ∧
      ¬ readPrice x.text ≤ readPrice y.text := by
  have hpow : 1 ≤ 10 ^ places := Nat.one_le_pow _ _ (by omega)
  have hpad : 10 ^ (4 - places) ≤ 10 ^ 4 := Nat.pow_le_pow_right (by omega) (by omega)
  have hpos : 0 < 10 ^ (4 - places) := Nat.pow_pos (by omega)
  refine ⟨.ofNumber true 2 places, .ofNumber true 1 places,
    ⟨rfl, Numeral.places_ofNumber .., fitsInt64_ofNumber true (by omega)⟩,
    ⟨rfl, Numeral.places_ofNumber .., fitsInt64_ofNumber true (by omega)⟩, ?_, ?_⟩
  · rw [Numeral.value_ofNumber, Numeral.value_ofNumber]
    exact div_lt_div_of_pos_right (by norm_num) (by positivity)
  · rw [Numeral.readPrice_ofNumber, Numeral.readPrice_ofNumber, Int64.le_iff_toInt_le,
      Int64.toInt_ofNat_of_lt (by omega), Int64.toInt_ofNat_of_lt (by omega)]
    omega

/-- More than four places overflow before the price does. -/
theorem places_out_of_order {places : Nat} (hplaces : 4 < places) :
    ∃ x y : Numeral, (x.negative = false ∧ x.places = places ∧ x.FitsInt64) ∧
      (y.negative = false ∧ y.places = places ∧ y.FitsInt64) ∧ x.value < y.value ∧
      ¬ readPrice x.text ≤ readPrice y.text := by
  have hpow : 10 ^ 5 ≤ 10 ^ places := Nat.pow_le_pow_right (by omega) hplaces
  have hpad : 4 - places = 0 := by omega
  refine ⟨.ofNumber false (2 ^ 63 - 1) places, .ofNumber false (2 ^ 63) places,
    ⟨rfl, Numeral.places_ofNumber .., fitsInt64_ofNumber false (by omega)⟩,
    ⟨rfl, Numeral.places_ofNumber .., fitsInt64_ofNumber false (by omega)⟩, ?_, ?_⟩
  · rw [Numeral.value_ofNumber, Numeral.value_ofNumber]
    exact div_lt_div_of_pos_right (by norm_num) (by positivity)
  · rw [Numeral.readPrice_ofNumber, Numeral.readPrice_ofNumber, hpad]
    decide

/-- **Prices respect the numbers they denote** — equal numbers equal ticks,
smaller numbers no more ticks, in valid messages that are otherwise equal — for
all numerals of the allowed signs and numbers of places, exactly if no negative
sign and no more than four places are allowed. -/
theorem price_respects_number_iff (allowed : Bool → Nat → Prop) :
    (∀ x y : Numeral, allowed x.negative x.places → allowed y.negative y.places →
      x.FitsInt64 → y.FitsInt64 →
      ∀ (tag : List UInt8) (before after : List (List UInt8)) (msg msg' : FixMessage),
        (∀ c ∈ tag, isDigit c = true) → number tag = 44 →
        Priced tag before after x msg → Priced tag before after y msg' →
        (x.value = y.value → msg.priceTicks = msg'.priceTicks) ∧
        (x.value < y.value → msg.priceTicks ≤ msg'.priceTicks)) ↔
    ∀ negative places, allowed negative places → negative = false ∧ places ≤ 4 := by
  constructor
  · intro hrespects negative places hallowed
    -- two numerals of this shape, in the wrong order
    have hwrong : ∀ x y : Numeral, (x.negative = negative ∧ x.places = places ∧ x.FitsInt64) →
        (y.negative = negative ∧ y.places = places ∧ y.FitsInt64) → x.value < y.value →
        readPrice x.text ≤ readPrice y.text := by
      rintro x y ⟨hnx, hpx, hfitsx⟩ ⟨hny, hpy, hfitsy⟩ hlt
      obtain ⟨msg, hmsg, hx⟩ := priced_newOrderAt x
      obtain ⟨msg', hmsg', hy⟩ := priced_newOrderAt y
      have hdigits := (TextField.ofTag 44 [] List.not_mem_nil).numeric
      have hle := (hrespects x y (by rwa [hnx, hpx]) (by rwa [hny, hpy]) hfitsx hfitsy _ _ _ _ _
        hdigits (number_decimal 44) hmsg hmsg').2 hlt
      rwa [hx, hy] at hle
    constructor
    · by_contra hsign
      rw [Bool.not_eq_false] at hsign
      subst hsign
      obtain ⟨x, y, hx, hy, hlt, hnot⟩ := negative_out_of_order places
      exact hnot (hwrong x y hx hy hlt)
    · by_contra hplaces
      cases negative with
      | true =>
        obtain ⟨x, y, hx, hy, hlt, hnot⟩ := negative_out_of_order places
        exact hnot (hwrong x y hx hy hlt)
      | false =>
        obtain ⟨x, y, hx, hy, hlt, hnot⟩ := places_out_of_order (Nat.lt_of_not_le hplaces)
        exact hnot (hwrong x y hx hy hlt)
  · intro hshape x y hx hy hfitsx hfitsy tag before after msg msg' htag h44 hmsg hmsg'
    obtain ⟨heq, hlt⟩ := readPrice_respects (hshape _ _ hx) (hshape _ _ hy) hfitsx hfitsy
    rw [priceTicks_priced htag h44 hmsg, priceTicks_priced htag h44 hmsg']
    cases latest (fun v => some (readPrice v)) (under (names 44) (after.filterMap cutField)) with
    | none => exact ⟨heq, hlt⟩
    | some price => exact ⟨fun _ => rfl, fun _ => le_refl price⟩

/-- A dollar, with any number of zeros behind the point. -/
def dollar (zeros : Nat) : Numeral where
  negative := false
  whole := bytes "1"
  fraction := some (List.replicate zeros '0'.toUInt8)
  whole_ne_nil := dollarFifty.whole_ne_nil
  whole_digits := dollarFifty.whole_digits
  fraction_digits c hc := by
    rw [List.eq_of_mem_replicate hc]
    rfl

/-- Minus one or two dollars. -/
def debt (two : Bool) : Numeral where
  negative := true
  whole := if two then bytes "2" else bytes "1"
  fraction := none
  whole_ne_nil := by cases two <;> exact nofun
  whole_digits := by cases two <;> exact List.all_eq_true.mp rfl
  fraction_digits := nofun

/-- A fifth place makes a dollar ten dollars, and two dollars of debt are more
than one. -/
theorem prices_out_of_order :
    ((dollar 4).text = bytes "1.0000" ∧ (dollar 5).text = bytes "1.00000" ∧
      (dollar 4).value = (dollar 5).value ∧ (dollar 4).FitsInt64 ∧ (dollar 5).FitsInt64 ∧
      ∃ msg msg', parse (some (bytes "35=D\x0144=1.0000\x01")) 15 = some msg ∧
        parse (some (bytes "35=D\x0144=1.00000\x01")) 16 = some msg' ∧ msg.valid = true ∧
        msg'.valid = true ∧ msg.priceTicks = 10000 ∧ msg'.priceTicks = 100000) ∧
    ((debt true).text = bytes "-2" ∧ (debt false).text = bytes "-1" ∧
      (debt true).value < (debt false).value ∧ (debt true).FitsInt64 ∧ (debt false).FitsInt64 ∧
      ∃ msg msg', parse (some (bytes "35=D\x0144=-2\x01")) 11 = some msg ∧
        parse (some (bytes "35=D\x0144=-1\x01")) 11 = some msg' ∧ msg.valid = true ∧
        msg'.valid = true ∧ msg.priceTicks = 20000 ∧ msg'.priceTicks = 10000) := by
  have hdollar : (dollar 4).value = 1 ∧ (dollar 5).value = 1 := by
    have hfour : (dollar 4).value = 1 * ((10000 : ℕ) : ℚ) / 10 ^ 4 := rfl
    have hfive : (dollar 5).value = 1 * ((100000 : ℕ) : ℚ) / 10 ^ 5 := rfl
    rw [hfour, hfive]
    norm_num
  have hdebt : (debt true).value = -2 ∧ (debt false).value = -1 := by
    have htwo : (debt true).value = -1 * ((2 : ℕ) : ℚ) / 10 ^ 0 := rfl
    have hone : (debt false).value = -1 * ((1 : ℕ) : ℚ) / 10 ^ 0 := rfl
    rw [htwo, hone]
    norm_num
  refine ⟨⟨rfl, rfl, ?_, ?_, ?_, _, _, parse_eq (bytes "35=D\x0144=1.0000\x01") [],
    parse_eq (bytes "35=D\x0144=1.00000\x01") [], rfl, rfl, rfl, rfl⟩,
    ⟨rfl, rfl, ?_, ?_, ?_, _, _, parse_eq (bytes "35=D\x0144=-2\x01") [],
    parse_eq (bytes "35=D\x0144=-1\x01") [], rfl, rfl, rfl, rfl⟩⟩
  · rw [hdollar.1, hdollar.2]
  · rw [Numeral.FitsInt64, hdollar.1]
    norm_num
  · rw [Numeral.FitsInt64, hdollar.2]
    norm_num
  · rw [hdebt.1, hdebt.2]
    norm_num
  · rw [Numeral.FitsInt64, hdebt.1]
    norm_num
  · rw [Numeral.FitsInt64, hdebt.2]
    norm_num

end HftEngine.Fix
