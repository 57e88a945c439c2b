import HftEngine.Fix.Tags

/-!
# When a message is valid

`parse` calls a message valid if it got to the end of the buffer and tag 35
gave it a type other than zero.  `valid_iff` says so in terms of fields.  Two
things do not follow that one would like to follow:

* that the type is one of the three that have a name, and was given under tag
  35 itself (`valid_recognised_iff`);
* that the buffer is the whole message (`truncation_detected_iff`): a cut
  inside the digits of a tag is detected, a cut behind the `=` is not.
-/

namespace HftEngine.Fix

open Lib

/-- The types with a name, but for `Unknown`. -/
def recognised : List MsgType := [.newOrderSingle, .orderCancelReq, .executionReport]

/-- The value of the last field of one byte under a kind of tag. -/
def lastType (kind : Nat → Bool) (buf : List UInt8) : Option MsgType :=
  latest oneByte (under kind (taggedFields buf))

theorem grammar_msgType {buf : List UInt8} (h : WellFormed buf) :
    (grammar buf).msgType = (lastType (names 35) buf).getD .unknown := by
  rw [grammar_tagged h]
  rfl

/-- What `valid` says of a buffer. -/
theorem valid_iff (buf : List UInt8) :
    (grammar buf).valid = true ↔ WellFormed buf ∧
      ∃ type, lastType (names 35) buf = some type ∧ type ≠ .unknown := by
  by_cases h : WellFormed buf
  · have hvalid : (grammar buf).valid = decide ((grammar buf).msgType ≠ .unknown) := by
      rw [grammar_tagged h]
      rfl
    rw [hvalid, decide_eq_true_iff, grammar_msgType h]
    cases lastType (names 35) buf with
    | none => simp
    | some type => simp [h]
  · simp [grammar_malformed h, h]

theorem valid_iff_getD (buf : List UInt8) :
    (grammar buf).valid = true ↔
      WellFormed buf ∧ (lastType (names 35) buf).getD .unknown ≠ .unknown := by
  rw [valid_iff]
  refine and_congr_right fun _ => ?_
  cases lastType (names 35) buf with
  | none => simp
  | some type => simp

/-! ## The type -/

/-- **A valid message has a recognised type**, the last that tag 35 gives,
exactly if that is so of the last type given under a tag that is 35 modulo
`2^32`, in a buffer of well-formed fields where this is not zero. -/
theorem valid_recognised_iff (buf tail : List UInt8) :
    ∃ msg, parse (some (buf ++ tail)) buf.length = some msg ∧
      ((msg.valid = true →
          msg.msgType ∈ recognised ∧ lastType (fun tag => tag == 35) buf = some msg.msgType) ↔
        (WellFormed buf → ∀ type, lastType (names 35) buf = some type → type ≠ .unknown →
          type ∈ recognised ∧ lastType (fun tag => tag == 35) buf = some type)) := by
  refine ⟨grammar buf, parse_eq buf tail, ?_, ?_⟩
  · intro hsafe hwell type htype hne
    have hmsg := hsafe ((valid_iff buf).mpr ⟨hwell, type, htype, hne⟩)
    rw [grammar_msgType hwell, htype] at hmsg
    exact hmsg
  · intro hsafe hvalid
    obtain ⟨hwell, type, htype, hne⟩ := (valid_iff buf).mp hvalid
    rw [grammar_msgType hwell, htype]
    exact hsafe hwell type htype hne

/-- `35=A`, and `D` under the tag `2^32 + 35`. -/
theorem valid_unrecognised :
    (∃ msg, parse (some (bytes "35=A\x01")) 5 = some msg ∧ msg.valid = true ∧
      msg.msgType ∉ recognised) ∧
    ∃ msg, parse (some (bytes "4294967331=D\x01")) 13 = some msg ∧ msg.valid = true ∧
      lastType (fun tag => tag == 35) (bytes "4294967331=D\x01") = none := by
  refine ⟨⟨_, parse_eq (bytes "35=A\x01") [], rfl, ?_⟩,
    _, parse_eq (bytes "4294967331=D\x01") [], rfl, rfl⟩
  decide

/-! ## Truncation -/

/-- A field cut short is well formed from the `=` on. -/
theorem wellFormed_cut (f : TextField) {q : List UInt8} (hq : q <+: f.text) (hne : q ≠ []) :
    WellFormed q ↔ f.digits.length < q.length := by
  have hsoh : SOH ∉ q := fun hmem => f.soh_not_mem_text (hq.subset hmem)
  have hwell : WellFormed q ↔ (cutField q).isSome := by
    simp [WellFormed, fields_last hne hsoh]
  rw [hwell]
  by_cases hlen : f.digits.length < q.length
  · -- the tag is whole, and the `=` is there
    obtain ⟨more, rfl⟩ := List.prefix_of_prefix_length_le (List.prefix_append f.digits _) hq hlen.le
    rcases List.prefix_cons_iff.mp ((List.prefix_append_right_inj f.digits).mp hq) with
      rfl | ⟨value, rfl, _⟩
    · simp at hlen
    · simp [cutField_eq f.numeric]
  · have hin : q <+: f.digits :=
      List.prefix_of_prefix_length_le hq (List.prefix_append f.digits _) (Nat.le_of_not_lt hlen)
    simp [cutField_digits fun c hc => f.numeric c (hin.subset hc), hlen]

/-- **Truncation is detected** of a message that is cut inside a field, exactly
if the cut is inside the tag, or what is left gives no type under tag 35. -/
theorem truncation_detected_iff {fs : List TextField} {p : List UInt8} (hp : p <+: message fs)
    (hne : p ≠ []) (hlast : p.getLast? ≠ some SOH) :
    ∃ fs₁ f fs₂ q, fs = fs₁ ++ f :: fs₂ ∧ p = message fs₁ ++ q ∧ q <+: f.text ∧ q ≠ [] ∧
      ∀ tail, ∃ msg, parse (some (p ++ tail)) p.length = some msg ∧
        (msg.valid = false ↔
          q.length ≤ f.digits.length ∨ (lastType (names 35) p).getD .unknown = .unknown) := by
  obtain ⟨texts₁, text, texts₂, q, htexts, hpq, hq, hqne⟩ := prefix_terminated hp hne hlast
  obtain ⟨fs₁, rest, rfl, rfl, hrest⟩ := List.map_eq_append_iff.mp htexts
  obtain ⟨f, fs₂, rfl, rfl, _⟩ := List.map_eq_cons_iff.mp hrest
  refine ⟨fs₁, f, fs₂, q, rfl, hpq, hq, hqne, fun tail => ⟨grammar p, parse_eq p tail, ?_⟩⟩
  have hwell : WellFormed p ↔ f.digits.length < q.length := by
    rw [hpq, ← wellFormed_cut f hq hqne]
    exact wellFormed_message_append fs₁ q
  rw [← Bool.not_eq_true, valid_iff_getD, hwell, not_and_or, not_lt, ne_eq, not_not]

/-- A new order of 100. -/
def hundred : List TextField := plainFields ++ [.ofTag 38 (decimal 100) (soh_not_mem_decimal 100)]

theorem message_hundred : message hundred = bytes "35=D\x0138=100\x01" := rfl

/-- Cut in the tag of the quantity. -/
theorem truncation_detected_hundred :
    ∃ fs₁ f fs₂ q, hundred = fs₁ ++ f :: fs₂ ∧ bytes "35=D\x013" = message fs₁ ++ q ∧
      q <+: f.text ∧ q ≠ [] ∧
      ∀ tail, ∃ msg, parse (some (bytes "35=D\x013" ++ tail)) 6 = some msg ∧
        (msg.valid = false ↔ q.length ≤ f.digits.length ∨
          (lastType (names 35) (bytes "35=D\x013")).getD .unknown = .unknown) :=
  truncation_detected_iff ⟨bytes "8=100\x01", rfl⟩ (by decide) (by decide)

/-- Cut in the quantity: an order of 10. -/
theorem truncation_accepted :
    bytes "35=D\x0138=10" <+: message hundred ∧
      (∃ msg, parse (some (message hundred)) (message hundred).length = some msg ∧
        msg.valid = true ∧ msg.orderQty = 100) ∧
      ∃ msg, parse (some (bytes "35=D\x0138=10")) 10 = some msg ∧
        msg.valid = true ∧ msg.orderQty = 10 := by
  rw [message_hundred]
  exact ⟨⟨bytes "0\x01", rfl⟩, ⟨_, parse_eq (bytes "35=D\x0138=100\x01") [], rfl, rfl⟩,
    _, parse_eq (bytes "35=D\x0138=10") [], rfl, rfl⟩

end HftEngine.Fix
