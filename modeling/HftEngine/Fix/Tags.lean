import HftEngine.Lib.Tagged
import HftEngine.Fix.Encode

/-!
# What each tag of a FIX message does

The parser keeps nothing from one field to the next but the message itself,
and each member of the message belongs to one tag.  So a message is the
latest value under each of the eight tags (`FixMessage.ofTagged`), as
`grammar_tagged` says of every buffer whose fields are well formed.

A tag is read modulo `2^32`: a field whose decimal tag is `2^32 + 35` is a
field of tag 35 to the parser (`names`).  So two messages that carry the same
values under the eight tags are parsed alike exactly if their other tags do
not come down to one of the eight (`parse_own_values_iff`).
-/

namespace HftEngine.Fix

open Lib

/-! ## Tags -/

/-- The number a string of digits denotes. -/
def number (digits : List UInt8) : Nat :=
  digits.foldl (fun k c => 10 * k + (asciiToDigit c).toNat) 0

/-- The tags `parse` looks for. -/
def fieldTags : List Nat := [35, 11, 55, 54, 38, 44, 40, 10]

/-- A decimal tag is taken for `t`. -/
def names (t tag : Nat) : Bool := tag % 2 ^ 32 = t

theorem tagOf_eq (digits : List UInt8) : tagOf digits = UInt32.ofNat (number digits) := by
  have hfold : ∀ (digits : List UInt8) (k : Nat), digits.foldl tagDigit (UInt32.ofNat k) =
      UInt32.ofNat (digits.foldl (fun k c => 10 * k + (asciiToDigit c).toNat) k) := by
    intro digits
    induction digits with
    | nil => exact fun _ => rfl
    | cons c digits ih =>
      intro k
      have hdigit : tagDigit (UInt32.ofNat k) c = UInt32.ofNat (10 * k + (asciiToDigit c).toNat) := by
        have hc : UInt32.ofNat (asciiToDigit c).toNat = (asciiToDigit c).toUInt32 :=
          UInt32.toNat_inj.mp (by simp)
        rw [tagDigit, UInt32.ofNat_add, UInt32.ofNat_mul, UInt32.mul_comm, hc]
        rfl
      rw [List.foldl_cons, List.foldl_cons, hdigit, ih]
  exact hfold digits 0

theorem number_decimal (k : Nat) : number (decimal k) = k := by
  refine foldl_decimal (R := Nat) _ id ?_ k
  intro m j hj
  have hdigit : ∀ j < 10, (asciiToDigit (digitByte j)).toNat = j := by decide
  show 10 * m + (asciiToDigit (digitByte j)).toNat = 10 * m + j
  rw [hdigit j hj]

/-! ## Values -/

/-- Tag 35 takes a value of one byte. -/
def oneByte : List UInt8 → Option MsgType
  | [c] => some ⟨c⟩
  | _ => none

/-- Tags 54 and 40 take the first byte. -/
def firstByte : List UInt8 → Option UInt8
  | c :: _ => some (c - '0'.toUInt8)
  | [] => none

/-- Tag 10 takes the first two bytes. -/
def twoDigits : List UInt8 → Option UInt8
  | c₀ :: c₁ :: _ => some (asciiToDigit c₀ * 10 + asciiToDigit c₁)
  | _ => none

/-- The latest value under each tag. -/
def FixMessage.ofTagged (fs : List (Nat × List UInt8)) : FixMessage where
  msgType := (latest oneByte (under (names 35) fs)).getD .unknown
  clOrdId := (latest some (under (names 11) fs)).getD []
  symbol := (latest some (under (names 55) fs)).getD []
  side := (latest firstByte (under (names 54) fs)).getD 0
  orderQty := (latest (fun v => some (readQty v)) (under (names 38) fs)).getD 0
  priceTicks := (latest (fun v => some (readPrice v)) (under (names 44) fs)).getD 0
  ordType := (latest firstByte (under (names 40) fs)).getD 0
  checksum := (latest twoDigits (under (names 10) fs)).getD 0

/-- The `switch`, member by member: each member has its own tag. -/
theorem applyField_ofNat (k : Nat) (value : List UInt8) (msg : FixMessage) :
    applyField (UInt32.ofNat k) value msg =
      { msgType := if names 35 k then (oneByte value).getD msg.msgType else msg.msgType
        clOrdId := if names 11 k then value else msg.clOrdId
        symbol := if names 55 k then value else msg.symbol
        side := if names 54 k then (firstByte value).getD msg.side else msg.side
        orderQty := if names 38 k then readQty value else msg.orderQty
        priceTicks := if names 44 k then readPrice value else msg.priceTicks
        ordType := if names 40 k then (firstByte value).getD msg.ordType else msg.ordType
        checksum := if names 10 k then (twoDigits value).getD msg.checksum else msg.checksum
        valid := msg.valid } := by
  unfold applyField names
  simp only [UInt32.toNat_ofNat', decide_eq_true_eq]
  generalize k % 2 ^ 32 = tag
  split
  case h_9 h₁ h₂ h₃ h₄ h₅ h₆ h₇ h₈ =>
    rw [if_neg h₁, if_neg h₂, if_neg h₃, if_neg h₄, if_neg h₅, if_neg h₆, if_neg h₇, if_neg h₈]
  -- one of the eight tags: no, one, or more bytes of value
  all_goals rcases value with _ | ⟨c₀, _ | ⟨c₁, more⟩⟩ <;> rfl

theorem foldl_applyField (fs : List (Nat × List UInt8)) :
    fs.foldl (fun msg f => applyField (UInt32.ofNat f.1) f.2 msg) {} = FixMessage.ofTagged fs := by
  -- a member that has a tag of its own, and the flag that has none
  have hmember : ∀ {β : Type} (member : FixMessage → β) (t : Nat) (read : List UInt8 → Option β),
      (∀ k value msg, member (applyField (UInt32.ofNat k) value msg) =
        if names t k then (read value).getD (member msg) else member msg) →
      member (fs.foldl (fun msg f => applyField (UInt32.ofNat f.1) f.2 msg) {}) =
        (latest read (under (names t) fs)).getD (member {}) :=
    fun member t read h => foldl_latest member (names t) read (fun msg f => h f.1 f.2 msg) fs {}
  have hvalid : (fs.foldl (fun msg f => applyField (UInt32.ofNat f.1) f.2 msg) {}).valid = false :=
    List.foldlRecOn (motive := fun msg : FixMessage => msg.valid = false) fs _ rfl
      fun msg hmsg f _ => (applyField_valid _ f.2 msg).trans hmsg
  have h₁ := hmember FixMessage.msgType 35 oneByte fun k v msg => by rw [applyField_ofNat]
  have h₂ := hmember FixMessage.clOrdId 11 some fun k v msg => by rw [applyField_ofNat]; rfl
  have h₃ := hmember FixMessage.symbol 55 some fun k v msg => by rw [applyField_ofNat]; rfl
  have h₄ := hmember FixMessage.side 54 firstByte fun k v msg => by rw [applyField_ofNat]
  have h₅ := hmember FixMessage.orderQty 38 (fun v => some (readQty v)) fun k v msg => by
    rw [applyField_ofNat]; rfl
  have h₆ := hmember FixMessage.priceTicks 44 (fun v => some (readPrice v)) fun k v msg => by
    rw [applyField_ofNat]; rfl
  have h₇ := hmember FixMessage.ordType 40 firstByte fun k v msg => by rw [applyField_ofNat]
  have h₈ := hmember FixMessage.checksum 10 twoDigits fun k v msg => by rw [applyField_ofNat]
  generalize fs.foldl (fun msg f => applyField (UInt32.ofNat f.1) f.2 msg) {} = msg at *
  calc msg = ⟨msg.msgType, msg.clOrdId, msg.symbol, msg.side, msg.orderQty, msg.priceTicks,
        msg.ordType, msg.checksum, msg.valid⟩ := rfl
    _ = FixMessage.ofTagged fs := by rw [h₁, h₂, h₃, h₄, h₅, h₆, h₇, h₈, hvalid]; rfl

/-! ## Buffers -/

/-- The decimal tag of a field, and its value. -/
def cutField (field : List UInt8) : Option (Nat × List UInt8) :=
  (tagText field).map fun f => (number f.1, f.2)

/-- The fields of a buffer that are a tag and a value. -/
def taggedFields (buf : List UInt8) : List (Nat × List UInt8) :=
  (fields SOH buf).filterMap cutField

/-- Every field is a tag and a value. -/
def WellFormed (buf : List UInt8) : Prop := ∀ field ∈ fields SOH buf, (cutField field).isSome

instance instDecidableWellFormed (buf : List UInt8) : Decidable (WellFormed buf) :=
  inferInstanceAs (Decidable (∀ field ∈ fields SOH buf, (cutField field).isSome))

theorem splitField_eq_cutField (field : List UInt8) :
    splitField field = (cutField field).map fun f => (UInt32.ofNat f.1, f.2) := by
  rw [splitField, cutField, Option.map_map]
  simp only [tagOf_eq]
  rfl

theorem cutField_eq {digits : List UInt8} (hdigits : ∀ c ∈ digits, isDigit c = true)
    (value : List UInt8) : cutField (digits ++ '='.toUInt8 :: value) = some (number digits, value) := by
  rw [cutField, tagText_eq hdigits]
  rfl

theorem cutField_digits {digits : List UInt8} (hdigits : ∀ c ∈ digits, isDigit c = true) :
    cutField digits = none := by
  rw [cutField, tagText_digits hdigits]
  rfl

theorem applyFields_of_cut {fs : List (List UInt8)} (h : ∀ field ∈ fs, (cutField field).isSome)
    (msg : FixMessage) :
    applyFields fs msg = ((fs.filterMap cutField).foldl
      (fun msg f => applyField (UInt32.ofNat f.1) f.2 msg) msg).finish := by
  induction fs generalizing msg with
  | nil => rw [finish_eq]; rfl
  | cons field fs ih =>
    obtain ⟨f, hf⟩ := Option.isSome_iff_exists.mp (h field List.mem_cons_self)
    have hsplit : splitField field = some (UInt32.ofNat f.1, f.2) := by
      rw [splitField_eq_cutField, hf]; rfl
    rw [applyFields, hsplit, List.filterMap_cons_some hf, List.foldl_cons]
    exact ih (fun field' hfield' => h field' (List.mem_cons_of_mem _ hfield')) _

theorem applyFields_malformed {fs : List (List UInt8)} {field : List UInt8} (hmem : field ∈ fs)
    (hcut : cutField field = none) (msg : FixMessage) : (applyFields fs msg).valid = false := by
  induction fs generalizing msg with
  | nil => cases hmem
  | cons field' fs ih =>
    rw [applyFields]
    cases hsplit : splitField field' with
    | none => rfl
    | some f =>
      rcases List.mem_cons.mp hmem with rfl | hmem
      · rw [splitField_eq_cutField, hcut] at hsplit
        cases hsplit
      · exact ih hmem _

/-- **A message is the latest value under each tag**, if its fields are well
formed. -/
theorem grammar_tagged {buf : List UInt8} (h : WellFormed buf) :
    grammar buf = (FixMessage.ofTagged (taggedFields buf)).finish := by
  rw [grammar, applyFields_of_cut h, ← foldl_applyField]
  rfl

theorem grammar_malformed {buf : List UInt8} (h : ¬ WellFormed buf) : (grammar buf).valid = false := by
  obtain ⟨field, hmem, hcut⟩ : ∃ field ∈ fields SOH buf, cutField field = none := by
    simpa [WellFormed] using h
  exact applyFields_malformed hmem hcut {}

/-! ## Messages of well-formed fields -/

/-- A tag in digits, and a value without a separator. -/
structure TextField where
  digits : List UInt8
  value : List UInt8
  numeric : ∀ c ∈ digits, isDigit c = true
  closed : SOH ∉ value

namespace TextField

/-- The decimal tag. -/
def tag (f : TextField) : Nat := number f.digits

def text (f : TextField) : List UInt8 := f.digits ++ '='.toUInt8 :: f.value

/-- The field of a decimal tag. -/
def ofTag (t : Nat) (value : List UInt8) (closed : SOH ∉ value) : TextField where
  digits := decimal t
  value := value
  numeric c hc := by
    obtain ⟨k, hk, rfl⟩ := decimal_digit hc
    have hdigit : ∀ k < 10, isDigit (digitByte k) = true := by decide
    exact hdigit k hk
  closed := closed

theorem tag_ofTag (t : Nat) {value : List UInt8} (closed : SOH ∉ value) :
    (ofTag t value closed).tag = t := number_decimal t

theorem soh_not_mem_text (f : TextField) : SOH ∉ f.text := soh_not_mem_tagged f.numeric f.closed

end TextField

/-- The fields, each closed by a separator. -/
def message (fs : List TextField) : List UInt8 := terminated SOH (fs.map TextField.text)

/-- The decimal tags and the values of the fields. -/
def tagsAndValues (fs : List TextField) : List (Nat × List UInt8) := fs.map fun f => (f.tag, f.value)

theorem tagsAndValues_ofTag (t : Nat) {value : List UInt8} (closed : SOH ∉ value)
    (fs : List TextField) :
    tagsAndValues (.ofTag t value closed :: fs) = (t, value) :: tagsAndValues fs := by
  rw [tagsAndValues, List.map_cons, TextField.tag_ofTag]
  rfl

/-- Fields that are closed, and whatever follows them. -/
theorem fields_message_append (fs : List TextField) (rest : List UInt8) :
    fields SOH (message fs ++ rest) = fs.map TextField.text ++ fields SOH rest := by
  refine fields_terminated_append ?_ rest
  intro xs hxs
  obtain ⟨f, _, rfl⟩ := List.mem_map.mp hxs
  exact f.soh_not_mem_text

theorem wellFormed_message_append (fs : List TextField) (rest : List UInt8) :
    WellFormed (message fs ++ rest) ↔ WellFormed rest := by
  have htext : ∀ field ∈ fs.map TextField.text, (cutField field).isSome := by
    intro field hfield
    obtain ⟨f, _, rfl⟩ := List.mem_map.mp hfield
    rw [TextField.text, cutField_eq f.numeric]
    rfl
  unfold WellFormed
  rw [fields_message_append, List.forall_mem_append]
  exact and_iff_right htext

theorem taggedFields_message_append (fs : List TextField) (rest : List UInt8) :
    taggedFields (message fs ++ rest) = tagsAndValues fs ++ taggedFields rest := by
  have htext : (fs.map TextField.text).filterMap cutField = tagsAndValues fs := by
    rw [List.filterMap_map, tagsAndValues, ← List.filterMap_eq_map]
    refine List.filterMap_congr fun f _ => ?_
    exact cutField_eq f.numeric f.value
  rw [taggedFields, fields_message_append, List.filterMap_append, htext]
  rfl

/-- What a message of well-formed fields is parsed to. -/
theorem parse_message (fs : List TextField) (tail : List UInt8) :
    parse (some (message fs ++ tail)) (message fs).length =
      some (FixMessage.ofTagged (tagsAndValues fs)).finish := by
  have hwell : WellFormed (message fs) := by
    have h := wellFormed_message_append fs []
    rw [List.append_nil] at h
    exact h.mpr (by simp [WellFormed, fields_nil])
  have htags := taggedFields_message_append fs []
  rw [List.append_nil] at htags
  rw [parse_eq, grammar_tagged hwell, htags]
  simp [taggedFields, fields_nil]

/-! ## Two messages with the same values -/

/-- The values under a decimal tag, in their order. -/
def values (t : Nat) (fs : List TextField) : List (List UInt8) :=
  under (fun tag => tag == t) (tagsAndValues fs)

/-- The message depends on the values under the eight tags only. -/
theorem ofTagged_congr {l l' : List (Nat × List UInt8)}
    (h : ∀ t ∈ fieldTags, under (names t) l = under (names t) l') :
    FixMessage.ofTagged l = FixMessage.ofTagged l' := by
  simp only [fieldTags, List.forall_mem_cons] at h
  obtain ⟨h₁, h₂, h₃, h₄, h₅, h₆, h₇, h₈, _⟩ := h
  unfold FixMessage.ofTagged
  rw [h₁, h₂, h₃, h₄, h₅, h₆, h₇, h₈]

theorem lt_of_mem_fieldTags {t : Nat} (ht : t ∈ fieldTags) : t < 2 ^ 32 := by
  simp only [fieldTags, List.mem_cons, List.not_mem_nil, or_false] at ht
  omega

/-- Where no other tag comes down to one of the eight, the parser takes the
fields for what they are. -/
theorem under_names {fs : List TextField}
    (h : ∀ f ∈ fs, f.tag % 2 ^ 32 ∈ fieldTags → f.tag ∈ fieldTags) {t : Nat}
    (ht : t ∈ fieldTags) : under (names t) (tagsAndValues fs) = values t fs := by
  refine under_congr ?_
  intro x hx
  obtain ⟨f, hf, rfl⟩ := List.mem_map.mp hx
  show decide (f.tag % 2 ^ 32 = t) = (f.tag == t)
  rw [beq_eq_decide, decide_eq_decide]
  refine ⟨?_, ?_⟩
  · intro hmod
    have hown := lt_of_mem_fieldTags (h f hf (hmod ▸ ht))
    rwa [Nat.mod_eq_of_lt hown] at hmod
  · intro heq
    rw [heq, Nat.mod_eq_of_lt (lt_of_mem_fieldTags ht)]

/-- A value that each of the eight tags takes. -/
def sampleValue (t : Nat) : List UInt8 := if t = 10 then bytes "11" else bytes "1"

/-- A field is taken for the field of its tag modulo `2^32`. -/
theorem ofTagged_singleton (t : Nat) (v : List UInt8) :
    FixMessage.ofTagged [(t, v)] = FixMessage.ofTagged [(t % 2 ^ 32, v)] := by
  refine ofTagged_congr fun t' _ => ?_
  have hnames : names t' (t % 2 ^ 32) = names t' t := by
    unfold names
    rw [Nat.mod_mod]
  rw [under_singleton, under_singleton]
  show _ = if names t' (t % 2 ^ 32) then [v] else []
  rw [hnames]

/-- It shows in the message. -/
theorem ofTagged_sampleValue_ne {t : Nat} (ht : t % 2 ^ 32 ∈ fieldTags) :
    (FixMessage.ofTagged [(t, sampleValue (t % 2 ^ 32))]).finish ≠
      (FixMessage.ofTagged []).finish := by
  have hdiffer : (fieldTags.all fun t =>
      decide ((FixMessage.ofTagged [(t, sampleValue t)]).finish ≠
        (FixMessage.ofTagged []).finish)) = true := rfl
  rw [ofTagged_singleton]
  exact of_decide_eq_true (List.all_eq_true.mp hdiffer _ ht)

theorem soh_not_mem_sampleValue (t : Nat) : SOH ∉ sampleValue t := by
  unfold sampleValue
  split <;> decide

/-- **A message depends on the values under its own tags only**, among the
messages whose tags are allowed, exactly if no tag is allowed that is not one
of the eight but is one of them modulo `2^32`. -/
theorem parse_own_values_iff (allowed : Nat → Prop) :
    (∀ fs fs' : List TextField, (∀ f ∈ fs ++ fs', allowed f.tag) →
      (∀ t ∈ fieldTags, values t fs = values t fs') → ∀ tail tail',
      parse (some (message fs ++ tail)) (message fs).length =
        parse (some (message fs' ++ tail')) (message fs').length) ↔
    ∀ t, allowed t → t % 2 ^ 32 ∈ fieldTags → t ∈ fieldTags := by
  refine ⟨?_, ?_⟩
  · intro hsame t hallowed hmod
    by_contra hother
    -- one field of tag `t`, against no field at all
    have hclosed := soh_not_mem_sampleValue (t % 2 ^ 32)
    have hparse := hsame [.ofTag t _ hclosed] [] (by simpa [TextField.tag_ofTag] using hallowed)
      (by
        intro t' ht'
        have hne : t ≠ t' := fun heq => hother (heq ▸ ht')
        rw [values, tagsAndValues_ofTag]
        show under _ [(t, _)] = []
        rw [under_singleton, if_neg (by simpa using hne)]) [] []
    rw [parse_message, parse_message, Option.some.injEq, tagsAndValues_ofTag] at hparse
    change (FixMessage.ofTagged [(t, _)]).finish = (FixMessage.ofTagged []).finish at hparse
    exact ofTagged_sampleValue_ne hmod hparse
  · intro hown fs fs' hallowed hvalues tail tail'
    have hown' : ∀ f ∈ fs ++ fs', f.tag % 2 ^ 32 ∈ fieldTags → f.tag ∈ fieldTags :=
      fun f hf => hown f.tag (hallowed f hf)
    have hmessage : FixMessage.ofTagged (tagsAndValues fs) =
        FixMessage.ofTagged (tagsAndValues fs') := by
      refine ofTagged_congr fun t ht => ?_
      rw [under_names (fun f hf => hown' f (List.mem_append_left _ hf)) ht,
        under_names (fun f hf => hown' f (List.mem_append_right _ hf)) ht, hvalues t ht]
    rw [parse_message, parse_message, hmessage]

/-- A new order. -/
def plainFields : List TextField := [.ofTag 35 (bytes "D") (by decide)]

/-- The same with a field of tag `2^32 + 35`. -/
def wrappedFields : List TextField := plainFields ++ [.ofTag (2 ^ 32 + 35) (bytes "F") (by decide)]

/-- A field with another tag turns the order into a cancel request. -/
theorem wrapped_tag_overrides :
    (∀ t ∈ fieldTags, values t plainFields = values t wrappedFields) ∧
      (∃ msg, parse (some (message plainFields)) (message plainFields).length = some msg ∧
        msg.msgType = .newOrderSingle) ∧
      ∃ msg, parse (some (message wrappedFields)) (message wrappedFields).length = some msg ∧
        msg.msgType = .orderCancelReq := by
  have hplain : tagsAndValues plainFields = [(35, bytes "D")] := tagsAndValues_ofTag 35 _ []
  have hwrapped : tagsAndValues wrappedFields = [(35, bytes "D"), (2 ^ 32 + 35, bytes "F")] := by
    rw [wrappedFields, plainFields, List.singleton_append, tagsAndValues_ofTag,
      tagsAndValues_ofTag]
    rfl
  have hparse := parse_message plainFields []
  have hparse' := parse_message wrappedFields []
  rw [List.append_nil] at hparse hparse'
  refine ⟨?_, ⟨_, hparse, ?_⟩, ⟨_, hparse', ?_⟩⟩
  · intro t ht
    have hsame : (fieldTags.all fun t =>
        decide (under (fun tag => tag == t) [(35, bytes "D")] =
          under (fun tag => tag == t) [(35, bytes "D"), (2 ^ 32 + 35, bytes "F")])) = true := rfl
    rw [values, values, hplain, hwrapped]
    exact of_decide_eq_true (List.all_eq_true.mp hsame t ht)
  · rw [hplain]; rfl
  · rw [hwrapped]; rfl

end HftEngine.Fix
