import Mathlib.Tactic
import HftEngine.Fix.Overflow

/-!
# Prices and the numbers they denote

`price_ticks` is meant to be the price times 10000.  A `Numeral` is the text of
a price: a sign or none, digits, and possibly a point with more digits behind
it.  What the parser makes of it are its digits, times ten for each of four
places that are missing (`exactTicks_text`); the number itself is a fraction
with as many places as there are (`Numeral.value`).

Without a sign and with at most four places the two agree (`value_mul`,
`exactTicks_split`), in every message in which no other field is taken for tag
44 (`exact_ticks_iff`).
-/

namespace HftEngine.Fix

open Lib

/-- An optional sign, one or more digits, and optionally a point and any number
of digits. -/
structure Numeral where
  negative : Bool
  whole : List UInt8
  fraction : Option (List UInt8)
  whole_ne_nil : whole ≠ []
  whole_digits : ∀ c ∈ whole, isDigit c = true
  fraction_digits : ∀ c ∈ fraction.getD [], isDigit c = true

namespace Numeral

variable (x : Numeral)

/-- The digits behind the point. -/
def decimals : List UInt8 := x.fraction.getD []

def places : Nat := x.decimals.length

def digits : List UInt8 := x.whole ++ x.decimals

def sign : List UInt8 := if x.negative then ['-'.toUInt8] else []

/-- The point and what is behind it. -/
def behind : List UInt8 :=
  match x.fraction with
  | none => []
  | some ds => '.'.toUInt8 :: ds

def text : List UInt8 := x.sign ++ (x.whole ++ x.behind)

/-- The number a numeral denotes. -/
def value : ℚ := (if x.negative then -1 else 1) * number x.digits / 10 ^ x.places

/-- Ten thousand times the number is in the range of `int64_t`. -/
def FitsInt64 : Prop := -2 ^ 63 ≤ x.value * 10000 ∧ x.value * 10000 ≤ 2 ^ 63 - 1

/-! ## What the parser reads -/

theorem eq_of_mem_sign {c : UInt8} (hc : c ∈ x.sign) : c = '-'.toUInt8 := by
  unfold sign at hc
  split at hc
  · exact List.mem_singleton.mp hc
  · cases hc

theorem priceDigits_behind : priceDigits x.behind = x.decimals := by
  have hdigits := x.fraction_digits
  unfold behind decimals
  cases hfraction : x.fraction with
  | none => rfl
  | some ds =>
    rw [hfraction] at hdigits
    exact (priceDigits_of_other isDigit_point ds).trans (List.filter_eq_self.mpr hdigits)

theorem priceDigits_text : priceDigits x.text = x.digits := by
  have hsign : priceDigits x.sign = [] := by
    refine List.filter_eq_nil_iff.mpr fun c hc => ?_
    rw [x.eq_of_mem_sign hc]
    decide
  have hwhole : priceDigits x.whole = x.whole := List.filter_eq_self.mpr x.whole_digits
  have happend : ∀ cs cs', priceDigits (cs ++ cs') = priceDigits cs ++ priceDigits cs' :=
    fun _ _ => List.filter_append ..
  rw [text, happend, happend, hsign, hwhole, priceDigits_behind]
  rfl

theorem pricePlaces_text : pricePlaces x.text = x.places := by
  -- there is no point before the digits behind it
  have hfront : ∀ c ∈ x.sign ++ x.whole, decide (c ≠ '.'.toUInt8) = true := by
    intro c hc
    refine decide_eq_true fun heq => ?_
    rcases List.mem_append.mp hc with hc | hc
    · rw [x.eq_of_mem_sign hc] at heq
      exact absurd heq (by decide)
    · have hdigit := x.whole_digits c hc
      rw [heq, isDigit_point] at hdigit
      cases hdigit
  have hdrop : x.text.dropWhile (fun c => c ≠ '.'.toUInt8) = x.behind := by
    rw [text, ← List.append_assoc, List.dropWhile_append_of_pos hfront]
    unfold behind
    split
    · rfl
    · exact List.dropWhile_cons_of_neg (by simp)
  rw [pricePlaces, hdrop, priceDigits_behind]
  rfl

theorem exactTicks_text : exactTicks x.text = number x.digits * 10 ^ (4 - x.places) := by
  rw [exactTicks, priceDigits_text, pricePlaces_text]

theorem soh_not_mem_text : SOH ∉ x.text := by
  have hdigit : ∀ ds : List UInt8, (∀ c ∈ ds, isDigit c = true) → SOH ∉ ds := by
    intro ds hds hmem
    exact absurd (hds SOH hmem) (by decide)
  have hdigits := x.fraction_digits
  intro hmem
  rcases List.mem_append.mp hmem with hmem | hmem
  · exact absurd (x.eq_of_mem_sign hmem) (by decide)
  · rcases List.mem_append.mp hmem with hmem | hmem
    · exact hdigit _ x.whole_digits hmem
    · unfold behind at hmem
      cases hfraction : x.fraction with
      | none =>
        rw [hfraction] at hmem
        cases hmem
      | some ds =>
        rw [hfraction] at hmem hdigits
        rcases List.mem_cons.mp hmem with heq | hmem
        · exact absurd heq (by decide)
        · exact hdigit _ hdigits hmem

variable {x}

/-! ## At most four places -/

/-- With at most four places, the ticks are the number without its sign, times
10000. -/
theorem value_mul (hplaces : x.places ≤ 4) (hsign : x.negative = false) :
    x.value * 10000 = (exactTicks x.text : ℕ) := by
  have hpow : (10000 : ℚ) = 10 ^ x.places * 10 ^ (4 - x.places) := by
    rw [← pow_add, Nat.add_sub_cancel' hplaces]
    norm_num
  have hne : (10 : ℚ) ^ x.places ≠ 0 := pow_ne_zero _ (by norm_num)
  rw [exactTicks_text, value, hsign, hpow, Nat.cast_mul, Nat.cast_pow]
  field_simp
  norm_num

/-- For such a numeral the range of the price is that of the ticks. -/
theorem value_mul_lt_iff (hplaces : x.places ≤ 4) (hsign : x.negative = false) :
    x.value * 10000 < 2 ^ 63 ↔ exactTicks x.text < 2 ^ 63 := by
  have hbound : (2 ^ 63 : ℚ) = ((2 ^ 63 : ℕ) : ℚ) := by norm_num
  rw [value_mul hplaces hsign, hbound, Nat.cast_lt]

theorem exactTicks_split (hplaces : x.places ≤ 4) :
    exactTicks x.text = number x.whole * 10000 + number x.decimals * 10 ^ (4 - x.places) := by
  have hpow : 10 ^ x.places * 10 ^ (4 - x.places) = 10000 := by
    rw [← pow_add, Nat.add_sub_cancel' hplaces]
    rfl
  have hlength : x.decimals.length = x.places := rfl
  rw [exactTicks_text, digits, number_append, Nat.add_mul, Nat.mul_assoc, hlength, hpow]

/-! ## Numerals of a given number -/

/-- The digits of `n`, with zeros in front so that there are more than
`places`. -/
def padded (n places : Nat) : List UInt8 := List.replicate (places + 1) '0'.toUInt8 ++ decimal n

theorem isDigit_padded {n places : Nat} {c : UInt8} (hc : c ∈ padded n places) :
    isDigit c = true := by
  rcases List.mem_append.mp hc with hc | hc
  · rw [List.eq_of_mem_replicate hc]
    decide
  · exact (TextField.ofTag n [] List.not_mem_nil).numeric c hc

theorem number_padded (n places : Nat) : number (padded n places) = n := by
  have hzeros : ∀ k, number (List.replicate k '0'.toUInt8) = 0 := by
    intro k
    induction k with
    | zero => rfl
    | succ k ih =>
      rw [List.replicate_succ', number_append, ih]
      rfl
  rw [padded, number_append, hzeros, number_decimal, Nat.zero_mul, Nat.zero_add]

/-- The numeral of `n / 10^places`, or of its negative. -/
def ofNumber (negative : Bool) (n places : Nat) : Numeral where
  negative := negative
  whole := (padded n places).take ((padded n places).length - places)
  fraction := some ((padded n places).drop ((padded n places).length - places))
  whole_ne_nil := by
    have hlength : (padded n places).length = places + 1 + (decimal n).length := by simp [padded]
    refine List.ne_nil_of_length_pos ?_
    rw [List.length_take]
    omega
  whole_digits _ hc := isDigit_padded (List.mem_of_mem_take hc)
  fraction_digits _ hc := isDigit_padded (List.mem_of_mem_drop hc)

theorem number_ofNumber (negative : Bool) (n places : Nat) :
    number (ofNumber negative n places).digits = n := by
  have hdigits : (ofNumber negative n places).digits = padded n places := List.take_append_drop ..
  rw [hdigits, number_padded]

theorem places_ofNumber (negative : Bool) (n places : Nat) :
    (ofNumber negative n places).places = places := by
  have hlength : (padded n places).length = places + 1 + (decimal n).length := by simp [padded]
  show ((padded n places).drop _).length = places
  rw [List.length_drop]
  omega

theorem value_ofNumber (negative : Bool) (n places : Nat) :
    (ofNumber negative n places).value = (if negative then -1 else 1) * n / 10 ^ places := by
  rw [value, number_ofNumber, places_ofNumber]
  rfl

theorem exactTicks_ofNumber (negative : Bool) (n places : Nat) :
    exactTicks (ofNumber negative n places).text = n * 10 ^ (4 - places) := by
  rw [exactTicks_text, number_ofNumber, places_ofNumber]

theorem readPrice_ofNumber (negative : Bool) (n places : Nat) :
    readPrice (ofNumber negative n places).text = Int64.ofNat (n * 10 ^ (4 - places)) := by
  rw [readPrice_eq, exactTicks_ofNumber]

end Numeral

/-! ## Exact ticks -/

/-- The values under a decimal tag among those that the loop gets to see. -/
def valuesRead (t : Nat) (buf : List UInt8) : List (List UInt8) :=
  under (fun tag => tag == t) (tagsRead buf)

theorem tagsRead_message (fs : List TextField) : tagsRead (message fs) = tagsAndValues fs := by
  rw [tagsRead, fieldsRead_message, List.map_map]
  rfl

theorem grammar_priceTicks (buf : List UInt8) :
    (grammar buf).priceTicks =
      (latest (fun v => some (readPrice v)) (under (names 44) (tagsRead buf))).getD 0 := by
  rw [grammar_read, messageOf_eq]
  rfl

theorem mem_valuesRead {t : Nat} {buf value : List UInt8} :
    value ∈ valuesRead t buf ↔ (t, value) ∈ tagsRead buf := by
  refine ⟨fun h => ?_, fun h => ?_⟩
  · obtain ⟨⟨tag, v⟩, hmem, rfl⟩ := List.mem_map.mp h
    obtain ⟨hread, htag⟩ := List.mem_filter.mp hmem
    obtain rfl : tag = t := eq_of_beq htag
    exact hread
  · exact List.mem_map_of_mem (List.mem_filter.mpr ⟨h, beq_self_eq_true t⟩)

section Exact

variable {buf : List UInt8} {x : Numeral}

/-- Where 44 is the only tag that is taken for 44, and the numeral its only
value, the price is read from the numeral. -/
theorem priceTicks_of_only (hown : ∀ f ∈ tagsRead buf, f.1 % 2 ^ 32 = 44 → f.1 = 44)
    (hvalues : valuesRead 44 buf = [x.text]) : (grammar buf).priceTicks = readPrice x.text := by
  have hunder : under (names 44) (tagsRead buf) = valuesRead 44 buf := by
    refine under_congr fun f hf => ?_
    show decide (f.1 % 2 ^ 32 = 44) = (f.1 == 44)
    rw [beq_eq_decide, decide_eq_decide]
    exact ⟨hown f hf, fun heq => by omega⟩
  rw [grammar_priceTicks, hunder, hvalues]
  rfl

theorem parseStrict_of_only (hown : ∀ f ∈ tagsRead buf, f.1 % 2 ^ 32 = 44 → f.1 = 44)
    (hvalues : valuesRead 44 buf = [x.text]) (hfits : exactTicks x.text < 2 ^ 63)
    (tail : List UInt8) :
    parseStrict (some (buf ++ tail)) buf.length = some (grammar buf) := by
  rw [parseStrict_eq, if_pos]
  intro f hf
  rw [priceFits_iff]
  intro hmod
  have hread : (number f.1, f.2) ∈ tagsRead buf := List.mem_map_of_mem hf
  have htag : number f.1 = 44 := hown _ hread hmod
  rw [htag, ← mem_valuesRead, hvalues, List.mem_singleton] at hread
  rwa [hread]

end Exact

/-- One dollar under tag 44, then two dollars under another tag. -/
def repriced (t : Nat) : List TextField :=
  [.ofTag 44 (Numeral.ofNumber false 1 0).text (Numeral.soh_not_mem_text _),
    .ofTag t (Numeral.ofNumber false 2 0).text (Numeral.soh_not_mem_text _)]

theorem tagsRead_repriced (t : Nat) :
    tagsRead (message (repriced t)) =
      [(44, (Numeral.ofNumber false 1 0).text), (t, (Numeral.ofNumber false 2 0).text)] := by
  rw [tagsRead_message, repriced, tagsAndValues_ofTag, tagsAndValues_ofTag]
  rfl

/-- A tag that is taken for 44 sets the price. -/
theorem priceTicks_repriced {t : Nat} (hmod : t % 2 ^ 32 = 44) :
    (grammar (message (repriced t))).priceTicks = Int64.ofNat 20000 := by
  have hunder : under (names 44) (tagsRead (message (repriced t))) =
      [(Numeral.ofNumber false 1 0).text, (Numeral.ofNumber false 2 0).text] := by
    rw [tagsRead_repriced, ← List.singleton_append, under_append, under_singleton, under_singleton,
      if_pos (show names 44 44 = true from rfl),
      if_pos (show names 44 t = true from decide_eq_true hmod)]
    rfl
  rw [grammar_priceTicks, hunder]
  exact Numeral.readPrice_ofNumber false 2 0

/-- **Exact ticks.** Over the messages whose tags are allowed, a numeral without
a sign and with at most four places, whose value times 10000 is below `2^63`,
gives as the only value of tag 44 exactly its value in ticks, and no result on
the way overflows, exactly if 44 is the only tag allowed that is 44 modulo
`2^32`. -/
theorem exact_ticks_iff (allowed : Nat → Prop) :
    (∀ (x : Numeral) (buf tail : List UInt8), x.negative = false → x.places ≤ 4 →
      x.value * 10000 < 2 ^ 63 → (∀ f ∈ tagsRead buf, allowed f.1) →
      valuesRead 44 buf = [x.text] →
      ∃ msg, parse (some (buf ++ tail)) buf.length = some msg ∧
        parseStrict (some (buf ++ tail)) buf.length = some msg ∧
        msg.priceTicks.toInt =
          number x.whole * 10000 + number x.decimals * 10 ^ (4 - x.places)) ↔
    (allowed 44 → ∀ t, allowed t → t % 2 ^ 32 = 44 → t = 44) := by
  constructor
  · intro hexact h44 t ht hmod
    by_contra hne
    have hread := tagsRead_repriced t
    have hplaces : (Numeral.ofNumber false 1 0).places ≤ 4 :=
      (Numeral.places_ofNumber false 1 0).trans_le (by omega)
    have hticks : exactTicks (Numeral.ofNumber false 1 0).text = 10000 :=
      Numeral.exactTicks_ofNumber false 1 0
    have hvalue : (Numeral.ofNumber false 1 0).value * 10000 < 2 ^ 63 := by
      rw [Numeral.value_mul_lt_iff hplaces rfl, hticks]
      omega
    obtain ⟨msg, hparse, _, hprice⟩ := hexact (.ofNumber false 1 0) (message (repriced t)) [] rfl
      hplaces hvalue (by rw [hread]; simp [h44, ht]) (by rw [valuesRead, hread]; simp [under, hne])
    rw [parse_eq, Option.some.injEq] at hparse
    -- two dollars where there should be one
    have hsplit := congrArg (Nat.cast : ℕ → ℤ) (Numeral.exactTicks_split hplaces)
    rw [hticks] at hsplit
    push_cast at hsplit
    rw [← hparse, priceTicks_repriced hmod, ← hsplit] at hprice
    exact absurd hprice (by decide)
  · intro hown x buf tail hsign hplaces hvalue hallowed hvalues
    have hfits := (Numeral.value_mul_lt_iff hplaces hsign).mp hvalue
    have h44 : allowed 44 := by
      have hmem : x.text ∈ valuesRead 44 buf := by rw [hvalues]; exact List.mem_singleton_self _
      exact hallowed _ (mem_valuesRead.mp hmem)
    have hown' : ∀ f ∈ tagsRead buf, f.1 % 2 ^ 32 = 44 → f.1 = 44 :=
      fun f hf => hown h44 f.1 (hallowed f hf)
    refine ⟨grammar buf, parse_eq buf tail, parseStrict_of_only hown' hvalues hfits tail, ?_⟩
    rw [priceTicks_of_only hown' hvalues, readPrice_eq, Int64.toInt_ofNat_of_lt hfits,
      Numeral.exactTicks_split hplaces]
    push_cast
    rfl

/-- A dollar fifty. -/
def dollarFifty : Numeral where
  negative := false
  whole := bytes "1"
  fraction := some (bytes "5")
  whole_ne_nil := nofun
  whole_digits := List.all_eq_true.mp rfl
  fraction_digits := List.all_eq_true.mp rfl

/-- As the only value of tag 44 it should give 15000 ticks; a seven under the
tag `2^32 + 44` makes it 70000. -/
theorem wrapped_price_overrides :
    (dollarFifty.negative = false ∧ dollarFifty.places ≤ 4 ∧ dollarFifty.value * 10000 < 2 ^ 63 ∧
      number dollarFifty.whole * 10000 +
        number dollarFifty.decimals * 10 ^ (4 - dollarFifty.places) = 15000) ∧
    valuesRead 44 (bytes "35=D\x0144=1.5\x014294967340=7\x01") = [dollarFifty.text] ∧
      ∃ msg, parse (some (bytes "35=D\x0144=1.5\x014294967340=7\x01")) 25 = some msg ∧
        msg.valid = true ∧ msg.priceTicks = 70000 := by
  have hplaces : dollarFifty.places = 1 := rfl
  have hticks : exactTicks dollarFifty.text = 15000 := rfl
  refine ⟨⟨rfl, by omega, ?_, rfl⟩, rfl, _,
    parse_eq (bytes "35=D\x0144=1.5\x014294967340=7\x01") [], rfl, rfl⟩
  rw [Numeral.value_mul_lt_iff (by omega) rfl, hticks]
  omega

end HftEngine.Fix
