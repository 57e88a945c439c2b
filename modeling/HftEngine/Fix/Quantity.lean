import HftEngine.Fix.Checksum
import HftEngine.Fix.Valid

/-!
# Quantities

Tag 38 takes every byte of its value for a digit and computes modulo `2^32`; a
value that is no number gives some quantity all the same, and the message is
valid.  On digits the quantity is the number modulo `2^32` (`readQty_digits`).

`quantity_genuine_iff` says of every buffer when the quantity is that of its
last tag 38.
-/

namespace HftEngine.Fix

open Lib

/-- The last value under a kind of tag. -/
def lastValue (kind : Nat → Bool) (buf : List UInt8) : Option (List UInt8) :=
  (under kind (taggedFields buf)).getLast?

/-- One or more digits, for a number below `2^32`. -/
structure IsQuantity (value : List UInt8) : Prop where
  ne_nil : value ≠ []
  digits : ∀ c ∈ value, isDigit c = true
  fits : number value < 2 ^ 32

/-- A digit is read as what it is. -/
theorem charToUInt32_digit {c : UInt8} (hc : isDigit c = true) :
    charToUInt32 c - charToUInt32 '0'.toUInt8 = (asciiToDigit c).toUInt32 := by
  have hall : ∀ k < 10, charToUInt32 (digitByte k) - charToUInt32 '0'.toUInt8 =
      (asciiToDigit (digitByte k)).toUInt32 := by decide
  have hle := (toNat_of_isDigit hc).2
  rw [← digitByte_asciiToDigit hc]
  exact hall _ (by omega)

/-- On digits, a quantity is read as a tag is. -/
theorem readQty_digits {value : List UInt8} (h : ∀ c ∈ value, isDigit c = true) :
    readQty value = UInt32.ofNat (number value) := by
  have hfold : readQty value = tagOf value := by
    refine List.foldl_ext _ _ 0 fun qty c hc => ?_
    rw [charToUInt32_digit (h c hc)]
    rfl
  rw [hfold, tagOf_eq]

theorem toNat_readQty {value : List UInt8} (h : IsQuantity value) :
    (readQty value).toNat = number value := by
  rw [readQty_digits h.digits]
  exact UInt32.toNat_ofNat_of_lt' h.fits

theorem grammar_orderQty {buf : List UInt8} (h : WellFormed buf) :
    (grammar buf).orderQty = ((lastValue (names 38) buf).map readQty).getD 0 := by
  rw [grammar_tagged h]
  show (latest (fun v => some (readQty v)) (under (names 38) (taggedFields buf))).getD 0 = _
  rw [latest, lastValue, List.filterMap_eq_map', List.getLast?_map]

/-- A field of tag 38 is one of the fields that are taken for it. -/
theorem lastValue_names {buf value : List UInt8}
    (h : lastValue (fun tag => tag == 38) buf = some value) :
    ∃ value', lastValue (names 38) buf = some value' := by
  have hmem := List.mem_of_getLast? h
  obtain ⟨⟨tag, v⟩, hfield, rfl⟩ := List.mem_map.mp hmem
  obtain ⟨hfield, htag⟩ := List.mem_filter.mp hfield
  have hnamed : v ∈ under (names 38) (taggedFields buf) := by
    refine List.mem_map_of_mem (List.mem_filter.mpr ⟨hfield, ?_⟩)
    rw [eq_of_beq htag]
    rfl
  exact ⟨_, List.getLast?_eq_some_getLast (List.ne_nil_of_mem hnamed)⟩

/-- **A valid message has the quantity its last tag 38 gives**, and this is a
quantity, exactly if in a buffer of well-formed fields with a type the last
value under tag 38 is a quantity and the last value under a tag that is 38
modulo `2^32` reads the same. -/
theorem quantity_genuine_iff (buf tail : List UInt8) :
    ∃ msg, parse (some (buf ++ tail)) buf.length = some msg ∧
      ((msg.valid = true → ∀ value, lastValue (fun tag => tag == 38) buf = some value →
          IsQuantity value ∧ msg.orderQty.toNat = number value) ↔
        (WellFormed buf → (lastType (names 35) buf).getD .unknown ≠ .unknown →
          ∀ value value', lastValue (fun tag => tag == 38) buf = some value →
            lastValue (names 38) buf = some value' →
            IsQuantity value ∧ readQty value' = readQty value)) := by
  refine ⟨grammar buf, parse_eq buf tail, ?_⟩
  have hqty : ∀ {value'}, WellFormed buf → lastValue (names 38) buf = some value' →
      (grammar buf).orderQty = readQty value' := by
    intro value' hwell hvalue'
    rw [grammar_orderQty hwell, hvalue']
    rfl
  constructor
  · intro h hwell htype value value' hvalue hvalue'
    obtain ⟨hgenuine, hnumber⟩ := h ((valid_iff_getD buf).mpr ⟨hwell, htype⟩) value hvalue
    refine ⟨hgenuine, UInt32.toNat_inj.mp ?_⟩
    rw [toNat_readQty hgenuine, ← hnumber, hqty hwell hvalue']
  · intro h hv value hvalue
    obtain ⟨hwell, htype⟩ := (valid_iff_getD buf).mp hv
    obtain ⟨value', hvalue'⟩ := lastValue_names hvalue
    obtain ⟨hgenuine, hread⟩ := h hwell htype value value' hvalue hvalue'
    rw [hqty hwell hvalue', hread]
    exact ⟨hgenuine, toNat_readQty hgenuine⟩

/-- Letters, nothing at all, `2^32`, and a later field whose tag is `2^32 + 38`:
all valid. -/
theorem quantities_not_genuine :
    (∃ msg, parse (some (bytes "35=D\x0138=1A\x01")) 11 = some msg ∧ msg.valid = true ∧
      msg.orderQty = 27 ∧
      lastValue (fun tag => tag == 38) (bytes "35=D\x0138=1A\x01") = some (bytes "1A") ∧
      ¬ IsQuantity (bytes "1A")) ∧
    (∃ msg, parse (some (bytes "35=D\x0138=\x01")) 9 = some msg ∧ msg.valid = true ∧
      lastValue (fun tag => tag == 38) (bytes "35=D\x0138=\x01") = some []) ∧
    (∃ msg, parse (some (bytes "35=D\x0138=4294967296\x01")) 19 = some msg ∧ msg.valid = true ∧
      msg.orderQty = 0) ∧
    ∃ msg, parse (some (bytes "35=D\x0138=100\x014294967334=5\x01")) 25 = some msg ∧
      msg.valid = true ∧ msg.orderQty = 5 := by
  refine ⟨⟨_, parse_eq (bytes "35=D\x0138=1A\x01") [], rfl, rfl, rfl, ?_⟩,
    ⟨_, parse_eq (bytes "35=D\x0138=\x01") [], rfl, rfl⟩,
    ⟨_, parse_eq (bytes "35=D\x0138=4294967296\x01") [], rfl, rfl⟩,
    _, parse_eq (bytes "35=D\x0138=100\x014294967334=5\x01") [], rfl, rfl⟩
  intro h
  exact Bool.false_ne_true (h.digits 'A'.toUInt8 (List.mem_cons_of_mem _ List.mem_cons_self))

end HftEngine.Fix
