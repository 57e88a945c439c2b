import HftEngine.Fix.Checksum
import HftEngine.Fix.Tags

/-!
# The trailer of a FIX message

The three digits of tag 10 are read twice, by `verify_checksum` and by
`parse`.  `verify_checksum` has them both in the sum and in the number it
compares the sum with, so that a change of one byte can move the two alike
(`SameShift`):

* `corruption_detected_iff` — a changed byte is detected exactly if it does
  not;
* `body_corruption_detected` — before the three digits it never does;
* `last_digit_corruption_accepted` — in the last of them it always does, if
  the byte stays a digit.

`parse` reads two of the three (`checksum_readers_agree_iff`).
-/

namespace HftEngine.Fix

open Lib

/-! ## One byte changed -/

/-- What a digit counts for, `k` bytes before the last. -/
def storedWeight : Nat → Nat
  | 0 => 1
  | 1 => 10
  | 2 => 100
  | _ => 0

/-- The number in the last three bytes, each byte at its place. -/
def storedValue : List UInt8 → Nat
  | [] => 0
  | c :: rest => storedWeight rest.length * (asciiToDigit c).toNat + storedValue rest

/-- With `c'` in place of `c`, `k` bytes before the last, the sum and the
stored checksum change by the same amount modulo 256. -/
def SameShift (k : Nat) (c c' : UInt8) : Prop :=
  (c'.toNat + storedWeight k * (asciiToDigit c).toNat) % 256 =
    (c.toNat + storedWeight k * (asciiToDigit c').toNat) % 256

instance instDecidableSameShift (k : Nat) (c c' : UInt8) : Decidable (SameShift k c c') :=
  inferInstanceAs (Decidable (_ = _))

theorem storedValue_append (body : List UInt8) (c₀ c₁ c₂ : UInt8) :
    storedValue (body ++ [c₀, c₁, c₂]) = threeDigits c₀ c₁ c₂ := by
  induction body with
  | nil =>
    simp only [List.nil_append, storedValue, storedWeight, List.length_cons, List.length_nil,
      threeDigits]
    omega
  | cons c body ih =>
    have hweight : storedWeight (body ++ [c₀, c₁, c₂]).length = 0 := by
      rw [List.length_append]
      rfl
    rw [List.cons_append, storedValue, hweight, ih, Nat.zero_mul, Nat.zero_add]

/-- A closed buffer, in terms of what is before the separator. -/
theorem verifyChecksum_closed {front : List UInt8} (hlen : 9 ≤ front.length) (tail : List UInt8) :
    verifyChecksum (some ((front ++ [SOH]) ++ tail)) (front ++ [SOH]).length =
      some (decide (byteSum front = storedValue front % 256)) := by
  obtain ⟨c₀, c₁, c₂, hthree⟩ := List.length_eq_three.mp
    (show (front.drop (front.length - 3)).length = 3 by rw [List.length_drop]; omega)
  have hfront : front = front.take (front.length - 3) ++ [c₀, c₁, c₂] := by
    rw [← hthree, List.take_append_drop]
  have hbody : front.take (front.length - 3) ≠ [] := by
    apply List.ne_nil_of_length_pos
    rw [List.length_take]
    omega
  have hbuf : 10 ≤ (front ++ [SOH]).length := by
    rw [List.length_append, List.length_singleton]
    omega
  generalize front.take (front.length - 3) = body at hfront hbody
  subst hfront
  rw [verifyChecksum_long tail hbuf hbody (by simp) rfl, storedValue_append]

section Change

variable (before after : List UInt8) (c c' : UInt8)

theorem sum_change :
    ((before ++ c' :: after).map UInt8.toNat).sum + c.toNat =
      ((before ++ c :: after).map UInt8.toNat).sum + c'.toNat := by
  simp only [List.map_append, List.map_cons, List.sum_append, List.sum_cons]
  omega

theorem storedValue_change :
    storedValue (before ++ c' :: after) + storedWeight after.length * (asciiToDigit c).toNat =
      storedValue (before ++ c :: after) + storedWeight after.length * (asciiToDigit c').toNat := by
  induction before with
  | nil =>
    simp only [List.nil_append, storedValue]
    omega
  | cons d before ih =>
    have hlen : (before ++ c' :: after).length = (before ++ c :: after).length := by simp
    simp only [List.cons_append, storedValue, hlen]
    omega

end Change

section Corruption

variable {before after : List UInt8} {c : UInt8} (c' : UInt8) (tail : List UInt8)
  (haccept : verifyChecksum (some ((before ++ c :: after ++ [SOH]) ++ tail))
    (before ++ c :: after ++ [SOH]).length = some true)

include haccept

/-- What becomes of an accepted buffer when one byte is changed. -/
theorem verifyChecksum_change :
    verifyChecksum (some ((before ++ c' :: after ++ [SOH]) ++ tail))
      (before ++ c' :: after ++ [SOH]).length = some (decide (SameShift after.length c c')) := by
  -- a buffer that is accepted is long enough
  have hlen : 9 ≤ (before ++ c :: after).length := by
    by_contra hshort
    rw [verifyChecksum, if_pos (by rw [List.length_append, List.length_singleton]; omega)] at haccept
    cases haccept
  have hlen' : 9 ≤ (before ++ c' :: after).length := by simpa using hlen
  rw [verifyChecksum_closed hlen] at haccept
  have hsum : byteSum (before ++ c :: after) = storedValue (before ++ c :: after) % 256 :=
    of_decide_eq_true (Option.some.inj haccept)
  rw [verifyChecksum_closed hlen', Option.some.injEq, decide_eq_decide]
  have hsum' := sum_change before after c c'
  have hstored' := storedValue_change before after c c'
  unfold byteSum at hsum ⊢
  unfold SameShift
  omega

theorem body_corruption_detected (hbody : 3 ≤ after.length) (hne : c' ≠ c) :
    verifyChecksum (some ((before ++ c' :: after ++ [SOH]) ++ tail))
      (before ++ c' :: after ++ [SOH]).length = some false := by
  have hshift : ¬ SameShift after.length c c' := by
    obtain ⟨k, hk⟩ := Nat.exists_eq_add_of_le' hbody
    have hweight : storedWeight after.length = 0 := by rw [hk]; rfl
    have hlt := c.toNat_lt
    have hlt' := c'.toNat_lt
    rw [SameShift, hweight, Nat.zero_mul, Nat.zero_mul, Nat.add_zero, Nat.add_zero,
      Nat.mod_eq_of_lt hlt, Nat.mod_eq_of_lt hlt', UInt8.toNat_inj]
    exact hne
  rw [verifyChecksum_change c' tail haccept, decide_eq_false hshift]

theorem last_digit_corruption_accepted (hlast : after = []) (hc : isDigit c = true)
    (hc' : isDigit c' = true) :
    verifyChecksum (some ((before ++ c' :: after ++ [SOH]) ++ tail))
      (before ++ c' :: after ++ [SOH]).length = some true := by
  have hshift : SameShift after.length c c' := by
    obtain ⟨hd, _⟩ := toNat_of_isDigit hc
    obtain ⟨hd', _⟩ := toNat_of_isDigit hc'
    have hweight : storedWeight after.length = 1 := by rw [hlast]; rfl
    rw [SameShift, hweight]
    omega
  rw [verifyChecksum_change c' tail haccept, decide_eq_true hshift]

/-- **A changed byte is detected** exactly if it does not move the sum and the
stored checksum alike. -/
theorem corruption_detected_iff :
    verifyChecksum (some ((before ++ c' :: after ++ [SOH]) ++ tail))
      (before ++ c' :: after ++ [SOH]).length = some false ↔ ¬ SameShift after.length c c' := by
  rw [verifyChecksum_change c' tail haccept, Option.some.injEq, decide_eq_false_iff_not]

end Corruption

/-- The last digit of an accepted buffer, made a letter. -/
theorem corruption_detected_letter :
    verifyChecksum (some ((bytes "35=,\x0110=00" ++ 65 :: [] ++ [SOH]) ++ []))
      (bytes "35=,\x0110=00" ++ 65 :: [] ++ [SOH]).length = some false := by
  have haccept : verifyChecksum (some ((bytes "35=,\x0110=00" ++ 48 :: [] ++ [SOH]) ++ []))
      (bytes "35=,\x0110=00" ++ 48 :: [] ++ [SOH]).length = some true := rfl
  exact (corruption_detected_iff 65 [] haccept).mpr (by decide)

/-- `10=000` made `10=001`, and accepted like before. -/
theorem corrupted_digit_accepted :
    verifyChecksum (some (bytes "35=,\x0110=000\x01")) 12 = some true ∧
      verifyChecksum (some (bytes "35=,\x0110=001\x01")) 12 = some true :=
  ⟨rfl, rfl⟩

/-! ## Two readers -/

section Readers

variable {d₁ d₂ d₃ : UInt8}

/-- The fields of a buffer that ends with a tag 10. -/
theorem fields_trailer {fs : List (List UInt8)} (hfs : ∀ f ∈ fs, SOH ∉ f)
    (hdigits : SOH ∉ [d₁, d₂, d₃]) :
    fields SOH (terminated SOH fs ++ trailer d₁ d₂ d₃) = fs ++ [bytes "10=" ++ [d₁, d₂, d₃]] := by
  have hsoh : SOH ∉ bytes "10=" ++ [d₁, d₂, d₃] := by
    rw [List.mem_append, not_or]
    exact ⟨by decide, hdigits⟩
  rw [fields_terminated_append hfs]
  congr 1
  exact (fields_cons hsoh []).trans (by rw [fields_nil])

/-- `parse` reads the first two digits of the last tag 10. -/
theorem grammar_checksum {fs : List (List UInt8)} (hfs : ∀ f ∈ fs, SOH ∉ f)
    (hdigits : SOH ∉ [d₁, d₂, d₃])
    (hwell : WellFormed (terminated SOH fs ++ trailer d₁ d₂ d₃)) :
    (grammar (terminated SOH fs ++ trailer d₁ d₂ d₃)).checksum =
      asciiToDigit d₁ * 10 + asciiToDigit d₂ := by
  have hnumeric : ∀ c ∈ bytes "10", isDigit c = true :=
    List.all_eq_true.mp (rfl : (bytes "10").all isDigit = true)
  have hcut : cutField (bytes "10=" ++ [d₁, d₂, d₃]) = some (10, [d₁, d₂, d₃]) :=
    cutField_eq hnumeric [d₁, d₂, d₃]
  have htags : taggedFields (terminated SOH fs ++ trailer d₁ d₂ d₃) =
      fs.filterMap cutField ++ [(10, [d₁, d₂, d₃])] := by
    rw [taggedFields, fields_trailer hfs hdigits, List.filterMap_append, List.filterMap_cons_some hcut]
    rfl
  rw [grammar_tagged hwell, htags]
  show (latest twoDigits (under (names 10) _)).getD 0 = _
  rw [under_append, under_singleton]
  show (latest twoDigits (_ ++ [[d₁, d₂, d₃]])).getD 0 = _
  rw [latest_append, latest_singleton]
  rfl

/-- `verify_checksum` compares the sum with the three digits. -/
theorem verifyChecksum_trailer {body : List UInt8} (tail : List UInt8)
    (hvalue : threeDigits d₁ d₂ d₃ ≤ 255) (hlen : 10 ≤ (body ++ trailer d₁ d₂ d₃).length) :
    verifyChecksum (some ((body ++ trailer d₁ d₂ d₃) ++ tail)) (body ++ trailer d₁ d₂ d₃).length =
      some (decide (byteSum (body ++ bytes "10=" ++ [d₁, d₂, d₃]) = threeDigits d₁ d₂ d₃)) := by
  have hcut : body ++ trailer d₁ d₂ d₃ =
      (body ++ bytes "10=" ++ [d₁, d₂, d₃]) ++ SOH :: [] := by
    simp only [List.append_assoc]
    rfl
  have hne : body ++ bytes "10=" ≠ [] := by
    intro hnil
    exact absurd (List.append_eq_nil_iff.mp hnil).2 (by decide)
  rw [verifyChecksum_long tail hlen hne (by simp) hcut, Nat.mod_eq_of_lt (by omega)]

theorem eq_zero_iff_of_isDigit {d : UInt8} (hd : isDigit d = true) :
    d = '0'.toUInt8 ↔ (asciiToDigit d).toNat = 0 := by
  obtain ⟨htoNat, _⟩ := toNat_of_isDigit hd
  rw [← UInt8.toNat_inj, htoNat]
  show 48 + _ = 48 ↔ _
  omega

/-- Two digits do not overflow a byte. -/
theorem toNat_twoDigits (hd₁ : isDigit d₁ = true) (hd₂ : isDigit d₂ = true) :
    (asciiToDigit d₁ * 10 + asciiToDigit d₂).toNat =
      (asciiToDigit d₁).toNat * 10 + (asciiToDigit d₂).toNat := by
  obtain ⟨_, hle₁⟩ := toNat_of_isDigit hd₁
  obtain ⟨_, hle₂⟩ := toNat_of_isDigit hd₂
  have hten : (asciiToDigit d₁).toNat * 10 < 256 := by omega
  rw [UInt8.toNat_add, UInt8.toNat_mul]
  show (_ * 10 % 256 + _) % 256 = _
  rw [Nat.mod_eq_of_lt hten, Nat.mod_eq_of_lt (by omega)]

/-- **The two readers agree** about the last field of a valid message exactly if
its three digits are zeros: `verify_checksum` compares the sum with the number
in the three digits, and `parse` has the number in the first two. -/
theorem checksum_readers_agree_iff {body : List UInt8} (tail : List UInt8)
    (hbody : body = [] ∨ body.getLast? = some SOH)
    (hdigits : isDigit d₁ = true ∧ isDigit d₂ = true ∧ isDigit d₃ = true)
    (hvalue : threeDigits d₁ d₂ d₃ ≤ 255)
    (hvalid : (parse (some ((body ++ trailer d₁ d₂ d₃) ++ tail))
      (body ++ trailer d₁ d₂ d₃).length).map FixMessage.valid = some true) :
    (10 ≤ (body ++ trailer d₁ d₂ d₃).length →
      verifyChecksum (some ((body ++ trailer d₁ d₂ d₃) ++ tail)) (body ++ trailer d₁ d₂ d₃).length =
        some (decide (byteSum (body ++ bytes "10=" ++ [d₁, d₂, d₃]) = threeDigits d₁ d₂ d₃))) ∧
    ∃ msg, parse (some ((body ++ trailer d₁ d₂ d₃) ++ tail)) (body ++ trailer d₁ d₂ d₃).length =
        some msg ∧
      (msg.checksum.toNat = threeDigits d₁ d₂ d₃ ↔
        d₁ = '0'.toUInt8 ∧ d₂ = '0'.toUInt8 ∧ d₃ = '0'.toUInt8) := by
  obtain ⟨hd₁, hd₂, hd₃⟩ := hdigits
  have hsoh : SOH ∉ [d₁, d₂, d₃] := by
    have hne : ∀ d, isDigit d = true → SOH ≠ d := by
      rintro d hd rfl
      exact absurd hd (by decide)
    simp [hne d₁ hd₁, hne d₂ hd₂, hne d₃ hd₃]
  rw [parse_eq, Option.map_some, Option.some.injEq] at hvalid
  have hwell : WellFormed (body ++ trailer d₁ d₂ d₃) := by
    by_contra hmal
    rw [grammar_malformed hmal] at hvalid
    cases hvalid
  refine ⟨verifyChecksum_trailer tail hvalue, grammar (body ++ trailer d₁ d₂ d₃),
    parse_eq _ tail, ?_⟩
  obtain ⟨fs, hfs, rfl⟩ := exists_terminated hbody
  rw [grammar_checksum hfs hsoh hwell, toNat_twoDigits hd₁ hd₂, threeDigits,
    eq_zero_iff_of_isDigit hd₁, eq_zero_iff_of_isDigit hd₂, eq_zero_iff_of_isDigit hd₃]
  omega

end Readers

/-- `10=000` is read as 0 by both. -/
theorem checksum_readers_agree_zero :
    (10 ≤ (bytes "35=D\x01" ++ trailer 48 48 48).length →
      verifyChecksum (some ((bytes "35=D\x01" ++ trailer 48 48 48) ++ [])) 12 =
        some (decide (byteSum (bytes "35=D\x01" ++ bytes "10=" ++ [48, 48, 48]) =
          threeDigits 48 48 48))) ∧
    ∃ msg, parse (some ((bytes "35=D\x01" ++ trailer 48 48 48) ++ [])) 12 = some msg ∧
      (msg.checksum.toNat = threeDigits 48 48 48 ↔
        (48 : UInt8) = '0'.toUInt8 ∧ (48 : UInt8) = '0'.toUInt8 ∧ (48 : UInt8) = '0'.toUInt8) :=
  checksum_readers_agree_iff [] (.inr rfl) ⟨rfl, rfl, rfl⟩ (Nat.zero_le _) (by rw [parse_eq]; rfl)

/-- `10=123` is read as 12 by `parse`. -/
theorem checksum_readers_differ :
    (storedChecksum '1'.toUInt8 '2'.toUInt8 '3'.toUInt8).toNat = 123 ∧
      ∃ msg, parse (some (bytes "35=D\x0110=123\x01")) 12 = some msg ∧ msg.valid = true ∧
        msg.checksum.toNat = 12 :=
  ⟨rfl, _, parse_eq (bytes "35=D\x0110=123\x01") [], rfl, rfl⟩

end HftEngine.Fix
