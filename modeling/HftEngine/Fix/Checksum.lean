import Mathlib.Data.List.Induction
import Mathlib.Tactic
import HftEngine.Lib.Decimal
import HftEngine.Fix.Message

/-!
# The checksum of a FIX message

Tag 10 carries the sum of the bytes before it, modulo 256, in three digits;
`HasChecksum` says that a buffer ends with such a field.  `verify_checksum`
looks for the last separator, which is the one that closes the field, and
sums up everything before that: the field itself is in the sum
(`SumsThroughTrailer`).

* `verifyChecksum_iff` — what the function decides, for every buffer;
* `not_both` — no buffer satisfies the two: the field adds between 302 and
  329 to the sum, never a multiple of 256;
* `verifyChecksum_agrees_iff` — so the function is right exactly about the
  buffers it rejects and should reject.
-/

namespace HftEngine.Fix

/-- The sum of the bytes, modulo 256. -/
def byteSum (bytes : List UInt8) : Nat := (bytes.map UInt8.toNat).sum % 256

/-- The number three bytes stand for, each non-digit being 255. -/
def threeDigits (c₀ c₁ c₂ : UInt8) : Nat :=
  (asciiToDigit c₀).toNat * 100 + (asciiToDigit c₁).toNat * 10 + (asciiToDigit c₂).toNat

/-- The field `10=`, three bytes and the separator. -/
def trailer (c₀ c₁ c₂ : UInt8) : List UInt8 :=
  ['1'.toUInt8, '0'.toUInt8, '='.toUInt8, c₀, c₁, c₂, SOH]

/-- The buffer is a body of closed fields, and a tag 10 with its checksum. -/
def HasChecksum (buf : List UInt8) : Prop :=
  ∃ body d₀ d₁ d₂, buf = body ++ trailer d₀ d₁ d₂ ∧ body.getLast? = some SOH ∧
    (isDigit d₀ ∧ isDigit d₁ ∧ isDigit d₂) ∧ threeDigits d₀ d₁ d₂ = byteSum body

/-- Everything before the last separator sums up to the number in the three
bytes before it. -/
def SumsThroughTrailer (buf : List UInt8) : Prop :=
  ∃ body c₀ c₁ c₂ behind, buf = (body ++ [c₀, c₁, c₂]) ++ SOH :: behind ∧ body ≠ [] ∧
    SOH ∉ behind ∧ byteSum (body ++ [c₀, c₁, c₂]) = threeDigits c₀ c₁ c₂ % 256

/-! ## The two loops -/

/-- The scan goes back over what lies behind the last separator. -/
theorem checksumPos_last (front : List UInt8) {behind : List UInt8} (hbehind : SOH ∉ behind)
    (tail : List UInt8) {j : Nat}
    (hj : j ≤ behind.length) :
    checksumPos ((front ++ SOH :: behind) ++ tail) (front.length + j) = some front.length := by
  induction j with
  | zero =>
    cases front with
    | nil => rfl
    | cons c front =>
      have hread : ((c :: front ++ SOH :: behind) ++ tail)[front.length + 1]? = some SOH := by
        simp
      show checksumPos _ (front.length + 1) = _
      simp only [checksumPos, hread, Option.bind_eq_bind, Option.bind_some]
      rfl
  | succ j ih =>
    have hlt : j < behind.length := hj
    have hread : ((front ++ SOH :: behind) ++ tail)[front.length + j + 1]? = some behind[j] := by
      rw [List.append_assoc, List.getElem?_append_right (by omega)]
      have hindex : front.length + j + 1 - front.length = j + 1 := by omega
      rw [hindex, List.cons_append, List.getElem?_cons_succ, List.getElem?_append_left hlt,
        List.getElem?_eq_getElem hlt]
    have hne : behind[j] ≠ SOH := by
      intro heq
      exact hbehind (heq ▸ List.getElem_mem hlt)
    show checksumPos _ (front.length + j + 1) = _
    simp only [checksumPos, hread, Option.bind_eq_bind, Option.bind_some]
    rw [if_pos hne]
    exact ih (by omega)

/-- Without a separator, the scan goes back to the start. -/
theorem checksumPos_none {buf : List UInt8} (hbuf : SOH ∉ buf) (tail : List UInt8) {pos : Nat}
    (hpos : pos < buf.length) : checksumPos (buf ++ tail) pos = some 0 := by
  induction pos with
  | zero => rfl
  | succ pos ih =>
    have hread : (buf ++ tail)[pos + 1]? = some buf[pos + 1] := by
      rw [List.getElem?_append_left hpos, List.getElem?_eq_getElem hpos]
    have hne : buf[pos + 1] ≠ SOH := by
      intro heq
      exact hbuf (heq ▸ List.getElem_mem hpos)
    simp only [checksumPos, hread, Option.bind_eq_bind, Option.bind_some]
    rw [if_pos hne]
    exact ih (by omega)

theorem sumBytes_append (bytes rest : List UInt8) :
    ∃ sum, sumBytes (bytes ++ rest) bytes.length = some sum ∧ sum.toNat = byteSum bytes := by
  induction bytes using List.reverseRecOn generalizing rest with
  | nil => exact ⟨0, rfl, rfl⟩
  | append_singleton bytes c ih =>
    obtain ⟨sum, hsum, htoNat⟩ := ih (c :: rest)
    have hread : (bytes ++ [c] ++ rest)[bytes.length]? = some c := by simp
    refine ⟨sum + c, ?_, ?_⟩
    · rw [List.length_append, List.length_singleton, sumBytes, hread, List.append_assoc,
        List.singleton_append, hsum]
      rfl
    · rw [UInt8.toNat_add, htoNat]
      simp [byteSum, Nat.add_mod]

/-! ## What the function decides -/

theorem toNat_storedChecksum (c₀ c₁ c₂ : UInt8) :
    (storedChecksum c₀ c₁ c₂).toNat = threeDigits c₀ c₁ c₂ % 256 := by
  simp [storedChecksum, threeDigits]

section Verify

variable {buf : List UInt8} (tail : List UInt8) (hlen : 10 ≤ buf.length)

include hlen

theorem verifyChecksum_short {pos : Nat}
    (hpos : checksumPos (buf ++ tail) (buf.length - 1) = some pos) (hlt : pos < 4) :
    verifyChecksum (some (buf ++ tail)) buf.length = some false := by
  obtain ⟨sum, hsum, _⟩ := sumBytes_append (buf.take pos) (buf.drop pos ++ tail)
  rw [← List.append_assoc, List.take_append_drop, List.length_take,
    Nat.min_eq_left (by omega)] at hsum
  simp only [verifyChecksum, hpos, hsum, Option.bind_eq_bind, Option.bind_some]
  rw [if_neg (by omega), if_pos hlt]
  rfl

theorem verifyChecksum_long {body behind : List UInt8} {c₀ c₁ c₂ : UInt8} (hbody : body ≠ [])
    (hbehind : SOH ∉ behind) (hbuf : buf = (body ++ [c₀, c₁, c₂]) ++ SOH :: behind) :
    verifyChecksum (some (buf ++ tail)) buf.length =
      some (decide (byteSum (body ++ [c₀, c₁, c₂]) = threeDigits c₀ c₁ c₂ % 256)) := by
  have hfront : (body ++ [c₀, c₁, c₂]).length = body.length + 3 := by simp
  have hpos := List.length_pos_of_ne_nil hbody
  have hscan : checksumPos (buf ++ tail) (buf.length - 1) = some (body.length + 3) := by
    have hlast := checksumPos_last (body ++ [c₀, c₁, c₂]) hbehind tail (Nat.le_refl _)
    have hindex : buf.length - 1 = (body ++ [c₀, c₁, c₂]).length + behind.length := by
      rw [hbuf, List.length_append, List.length_cons]
      omega
    rw [hindex, hbuf, hlast, hfront]
  obtain ⟨sum, hsum, htoNat⟩ := sumBytes_append (body ++ [c₀, c₁, c₂]) (SOH :: behind ++ tail)
  rw [← List.append_assoc, ← hbuf, hfront] at hsum
  -- `checksum_str`: the three bytes before the separator
  have hread : ∀ i c, [c₀, c₁, c₂][i]? = some c → (buf ++ tail)[body.length + i]? = some c := by
    intro i c hc
    rw [hbuf, List.append_assoc, List.append_assoc, List.getElem?_append_right (by omega),
      Nat.add_sub_cancel_left, List.getElem?_append_left, hc]
    exact (List.getElem?_eq_some_iff.mp hc).1
  have hread₀ : (buf ++ tail)[body.length + 3 - 3]? = some c₀ := hread 0 c₀ rfl
  have hread₁ : (buf ++ tail)[body.length + 3 - 2]? = some c₁ := hread 1 c₁ rfl
  have hread₂ : (buf ++ tail)[body.length + 3 - 1]? = some c₂ := hread 2 c₂ rfl
  simp only [verifyChecksum, hscan, hsum, hread₀, hread₁, hread₂, Option.bind_eq_bind,
    Option.bind_some]
  rw [if_neg (by omega), if_neg (by omega)]
  show some (sum == storedChecksum c₀ c₁ c₂) = _
  rw [← htoNat, ← toNat_storedChecksum]
  congr 1
  rw [beq_eq_decide, decide_eq_decide, UInt8.toNat_inj]

end Verify

/-- A list is without separators, or has a last one. -/
theorem last_separator (buf : List UInt8) :
    SOH ∉ buf ∨ ∃ front behind, buf = front ++ SOH :: behind ∧ SOH ∉ behind := by
  induction buf with
  | nil => exact .inl (by simp)
  | cons c buf ih =>
    rcases ih with hnone | ⟨front, behind, rfl, hbehind⟩
    · by_cases hc : c = SOH
      · exact .inr ⟨[], buf, by rw [hc]; rfl, hnone⟩
      · exact .inl (by simp [hnone, Ne.symm hc])
    · exact .inr ⟨c :: front, behind, rfl, hbehind⟩

/-- The last separator is in one place. -/
theorem last_separator_unique {front behind front' behind' : List UInt8}
    (hbehind : SOH ∉ behind) (hbehind' : SOH ∉ behind')
    (h : front ++ SOH :: behind = front' ++ SOH :: behind') : front = front' ∧ behind = behind' := by
  rcases List.append_eq_append_iff.mp h with ⟨mid, hfront, hmid⟩ | ⟨mid, hfront, hmid⟩
  · cases mid with
    | nil =>
      rw [List.nil_append] at hmid
      injection hmid with _ hrest
      rw [List.append_nil] at hfront
      exact ⟨hfront.symm, hrest⟩
    | cons c mid =>
      injection hmid with _ hrest
      exact absurd (by rw [hrest]; simp) hbehind
  · cases mid with
    | nil =>
      rw [List.nil_append] at hmid
      injection hmid with _ hrest
      rw [List.append_nil] at hfront
      exact ⟨hfront, hrest.symm⟩
    | cons c mid =>
      injection hmid with _ hrest
      exact absurd (by rw [hrest]; simp) hbehind'

/-- A buffer is cut in one way only into a body, three bytes, and what the
last separator begins. -/
theorem stored_unique {body behind body' behind' : List UInt8} {c₀ c₁ c₂ d₀ d₁ d₂ : UInt8}
    (hbehind : SOH ∉ behind) (hbehind' : SOH ∉ behind')
    (h : (body ++ [c₀, c₁, c₂]) ++ SOH :: behind = (body' ++ [d₀, d₁, d₂]) ++ SOH :: behind') :
    body = body' ∧ c₀ = d₀ ∧ c₁ = d₁ ∧ c₂ = d₂ := by
  obtain ⟨hfront, _⟩ := last_separator_unique hbehind hbehind' h
  obtain ⟨hbody, hthree⟩ := List.append_inj' hfront rfl
  injection hthree with h₀ hthree
  injection hthree with h₁ hthree
  injection hthree with h₂ _
  exact ⟨hbody, h₀, h₁, h₂⟩

/-- What `verify_checksum` decides; it answers for every buffer. -/
theorem verifyChecksum_iff {buf : List UInt8} (tail : List UInt8) (hlen : 10 ≤ buf.length) :
    verifyChecksum (some (buf ++ tail)) buf.length = some true ↔ SumsThroughTrailer buf := by
  rcases last_separator buf with hnone | ⟨front, behind, hbuf, hbehind⟩
  · -- without a separator the scan goes back to the start
    rw [verifyChecksum_short tail hlen (checksumPos_none hnone tail (by omega)) (by omega)]
    refine iff_of_false (by simp) ?_
    rintro ⟨body, c₀, c₁, c₂, behind, hbuf, _⟩
    exact hnone (by rw [hbuf]; simp)
  · by_cases hshort : front.length < 4
    · have hscan : checksumPos (buf ++ tail) (buf.length - 1) = some front.length := by
        have hindex : buf.length - 1 = front.length + behind.length := by
          rw [hbuf, List.length_append, List.length_cons]
          omega
        rw [hindex, hbuf]
        exact checksumPos_last front hbehind tail (Nat.le_refl _)
      rw [verifyChecksum_short tail hlen hscan hshort]
      refine iff_of_false (by simp) ?_
      rintro ⟨body, c₀, c₁, c₂, behind', hbuf', hbody, hbehind', _⟩
      have hpos := List.length_pos_of_ne_nil hbody
      obtain ⟨rfl, _⟩ := last_separator_unique hbehind hbehind' (hbuf.symm.trans hbuf')
      simp at hshort
      omega
    · -- the three bytes before the separator, and something before them
      obtain ⟨body, c₀, c₁, c₂, hfront, hbody⟩ : ∃ body c₀ c₁ c₂,
          front = body ++ [c₀, c₁, c₂] ∧ body ≠ [] := by
        obtain ⟨c₀, c₁, c₂, hthree⟩ := List.length_eq_three.mp
          (show (front.drop (front.length - 3)).length = 3 by rw [List.length_drop]; omega)
        refine ⟨front.take (front.length - 3), c₀, c₁, c₂, ?_, ?_⟩
        · rw [← hthree, List.take_append_drop]
        · apply List.ne_nil_of_length_pos
          rw [List.length_take]
          omega
      subst hfront
      rw [verifyChecksum_long tail hlen hbody hbehind hbuf, Option.some.injEq, decide_eq_true_iff]
      refine ⟨fun hsum => ⟨body, c₀, c₁, c₂, behind, hbuf, hbody, hbehind, hsum⟩, ?_⟩
      rintro ⟨body', d₀, d₁, d₂, behind', hbuf', _, hbehind', hsum⟩
      obtain ⟨rfl, rfl, rfl, rfl⟩ := stored_unique hbehind hbehind' (hbuf.symm.trans hbuf')
      exact hsum

/-! ## Never the two at once -/

theorem toNat_of_isDigit {c : UInt8} (hc : isDigit c = true) :
    c.toNat = 48 + (asciiToDigit c).toNat ∧ (asciiToDigit c).toNat ≤ 9 := by
  have hbounds : 48 ≤ c.toNat ∧ c.toNat ≤ 57 := by
    have hle := of_decide_eq_true hc
    exact ⟨UInt8.le_iff_toNat_le.mp hle.1, UInt8.le_iff_toNat_le.mp hle.2⟩
  have hdigit : (asciiToDigit c).toNat = c.toNat - 48 := by
    rw [asciiToDigit, if_pos hc, UInt8.toNat_sub_of_le _ _ (of_decide_eq_true hc).1]
    rfl
  omega

/-- A digit is the byte of its value. -/
theorem digitByte_asciiToDigit {c : UInt8} (hc : isDigit c = true) :
    Lib.digitByte (asciiToDigit c).toNat = c := by
  obtain ⟨htoNat, hle⟩ := toNat_of_isDigit hc
  apply UInt8.toNat_inj.mp
  rw [Lib.digitByte, UInt8.toNat_ofNat_of_lt' (by show _ < 256; omega)]
  exact htoNat.symm

/-- The field of the checksum, summed up with the body, spoils the sum. -/
theorem not_both {buf : List UInt8} (hspec : HasChecksum buf) : ¬ SumsThroughTrailer buf := by
  rintro ⟨body', c₀, c₁, c₂, behind, hbuf', _, hbehind, hsum⟩
  obtain ⟨body, d₀, d₁, d₂, hbuf, _, ⟨h₀, h₁, h₂⟩, hstored⟩ := hspec
  have hcut : buf = (body ++ ['1'.toUInt8, '0'.toUInt8, '='.toUInt8] ++ [d₀, d₁, d₂]) ++ SOH :: [] := by
    rw [hbuf]
    simp [trailer]
  obtain ⟨rfl, rfl, rfl, rfl⟩ := stored_unique (by simp) hbehind (hcut.symm.trans hbuf')
  obtain ⟨hd₀, hle₀⟩ := toNat_of_isDigit h₀
  obtain ⟨hd₁, hle₁⟩ := toNat_of_isDigit h₁
  obtain ⟨hd₂, hle₂⟩ := toNat_of_isDigit h₂
  -- `10=` and the digits add 302 + d₀ + d₁ + d₂ to the sum of the body, never
  -- 0 modulo 256
  have hone : '1'.toUInt8.toNat = 49 := rfl
  have hzero : '0'.toUInt8.toNat = 48 := rfl
  have heq : '='.toUInt8.toNat = 61 := rfl
  unfold byteSum at hsum hstored
  simp only [List.map_append, List.map_cons, List.map_nil, List.sum_append, List.sum_cons,
    List.sum_nil, hone, hzero, heq, hd₀, hd₁, hd₂] at hsum
  omega

/-- **Where `verify_checksum` is right.** Of a buffer of at least ten bytes,
it decides whether the buffer ends with a correct checksum exactly if the
buffer does not, and the sum that includes the field does not match it
either. -/
theorem verifyChecksum_agrees_iff {buf : List UInt8} (tail : List UInt8) (hlen : 10 ≤ buf.length) :
    (verifyChecksum (some (buf ++ tail)) buf.length = some true ↔ HasChecksum buf) ↔
      ¬ HasChecksum buf ∧ ¬ SumsThroughTrailer buf := by
  rw [verifyChecksum_iff tail hlen]
  refine ⟨?_, ?_⟩
  · intro hiff
    have hspec : ¬ HasChecksum buf := fun h => not_both h (hiff.mpr h)
    exact ⟨hspec, fun h => hspec (hiff.mp h)⟩
  · rintro ⟨hspec, hcode⟩
    exact iff_of_false hcode hspec

/-- `35=F` with its checksum, but without the separator that closes it. -/
def unclosed : List UInt8 := [51, 53, 61, 70, 1, 49, 48, 61, 50, 51, 54]

theorem verifyChecksum_agrees_unclosed :
    verifyChecksum (some unclosed) unclosed.length = some true ↔ HasChecksum unclosed := by
  have hcode : ¬ SumsThroughTrailer unclosed := by
    rw [← verifyChecksum_iff [] (by decide)]
    decide
  have hspec : ¬ HasChecksum unclosed := by
    rintro ⟨body, d₀, d₁, d₂, hbuf, _⟩
    have hlast : unclosed.getLast? = some SOH := by
      rw [hbuf, trailer, List.getLast?_append]
      rfl
    exact absurd hlast (by decide)
  exact (verifyChecksum_agrees_iff [] (by decide : 10 ≤ unclosed.length)).mpr ⟨hspec, hcode⟩

/-- `35=D` with its checksum 234, as it should be. -/
def checksummed : List UInt8 := [51, 53, 61, 68, 1] ++ trailer 50 51 52

/-- `35=,` with a checksum of 000 in place of 210. -/
def miscounted : List UInt8 := [51, 53, 61, 44, 1] ++ trailer 48 48 48

/-- A correct message is rejected, and one whose checksum is wrong accepted. -/
theorem checksummed_rejected :
    (HasChecksum checksummed ∧
      verifyChecksum (some checksummed) checksummed.length = some false) ∧
    (¬ HasChecksum miscounted ∧
      verifyChecksum (some miscounted) miscounted.length = some true) := by
  refine ⟨⟨⟨[51, 53, 61, 68, 1], 50, 51, 52, rfl, rfl, by decide, by decide⟩, by decide⟩, ?_, by decide⟩
  intro hspec
  refine not_both hspec ((verifyChecksum_iff [] (by decide)).mp ?_)
  decide

end HftEngine.Fix
