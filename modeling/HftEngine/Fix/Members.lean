import HftEngine.Fix.Tags

/-!
# Which field updates which member

The loop hands the fields of a buffer to the `switch` one after the other, up
to the first that is not a tag and a value (`fieldsRead`); the message is what
they make of an empty one (`grammar_read`), and so the latest value under each
decimal tag (`parse_tagged`).

A field should touch a member of the message only if its tag is the member's
own.  It does so up to multiples of `2^32` (`same_applyField`), so tags are
never confused exactly if none is used that comes down to another member's tag
(`tags_not_confused_iff`).
-/

namespace HftEngine.Fix

open Lib

/-! ## The fields a buffer is read as -/

/-- Up to the first field that is malformed. -/
def leadingFields : List (List UInt8) → List (List UInt8 × List UInt8)
  | [] => []
  | field :: fs =>
    match tagText field with
    | none => []
    | some f => f :: leadingFields fs

/-- The tags and values that the loop gets to see. -/
def fieldsRead (buf : List UInt8) : List (List UInt8 × List UInt8) := leadingFields (fields SOH buf)

/-- What fields make of an empty message. -/
def messageOf (fs : List (List UInt8 × List UInt8)) : FixMessage :=
  fs.foldl (fun msg f => applyField (tagOf f.1) f.2 msg) {}

theorem messageOf_concat (fs : List (List UInt8 × List UInt8)) (f : List UInt8 × List UInt8) :
    messageOf (fs ++ [f]) = applyField (UInt32.ofNat (number f.1)) f.2 (messageOf fs) := by
  rw [messageOf, List.foldl_append, ← tagOf_eq]
  rfl

theorem messageOf_eq (fs : List (List UInt8 × List UInt8)) :
    messageOf fs = .ofTagged (fs.map fun f => (number f.1, f.2)) := by
  rw [← foldl_applyField, List.foldl_map]
  simp only [messageOf, tagOf_eq]

/-- The text of a tag is digits. -/
theorem isDigit_of_mem_leadingFields {fs : List (List UInt8)} {f : List UInt8 × List UInt8}
    (h : f ∈ leadingFields fs) : ∀ c ∈ f.1, isDigit c = true := by
  induction fs with
  | nil => cases h
  | cons field fs ih =>
    rw [leadingFields] at h
    cases htext : tagText field with
    | none =>
      rw [htext] at h
      cases h
    | some f' =>
      rw [htext] at h
      rcases List.mem_cons.mp h with rfl | h
      · unfold tagText at htext
        split at htext
        · cases htext
        · split at htext
          · cases htext
            exact fun c hc => List.mem_takeWhile_imp hc
          · cases htext
      · exact ih h

theorem applyFields_leading (fs : List (List UInt8)) (msg : FixMessage) :
    applyFields fs msg =
      { (leadingFields fs).foldl (fun msg f => applyField (tagOf f.1) f.2 msg) msg with
        valid := (applyFields fs msg).valid } := by
  induction fs generalizing msg with
  | nil => rfl
  | cons field fs ih =>
    rw [applyFields, splitField, leadingFields]
    cases tagText field with
    | none => rfl
    | some f => exact ih _

/-- The message of a buffer is made by the fields that are read. -/
theorem grammar_read (buf : List UInt8) :
    grammar buf = { messageOf (fieldsRead buf) with valid := (grammar buf).valid } :=
  applyFields_leading (fields SOH buf) {}

/-- The decimal tags and the values that the loop gets to see. -/
def tagsRead (buf : List UInt8) : List (Nat × List UInt8) :=
  (fieldsRead buf).map fun f => (number f.1, f.2)

theorem leadingFields_wellFormed {fs : List (List UInt8)}
    (h : ∀ field ∈ fs, (cutField field).isSome) :
    (leadingFields fs).map (fun f => (number f.1, f.2)) = fs.filterMap cutField := by
  induction fs with
  | nil => rfl
  | cons field fs ih =>
    obtain ⟨hfield, hfs⟩ := List.forall_mem_cons.mp h
    rw [cutField, Option.isSome_map] at hfield
    obtain ⟨f, hf⟩ := Option.isSome_iff_exists.mp hfield
    have hcut : cutField field = some (number f.1, f.2) := by rw [cutField, hf]; rfl
    rw [List.filterMap_cons_some hcut, ← ih hfs, leadingFields, hf, List.map_cons]

/-- **The parser, by decimal tags and members.** For every buffer each member is
read off the latest field, up to the first that is malformed, under the member's
own tag; the message is valid exactly if no field is malformed and there is a
message type. -/
theorem parse_tagged (buf tail : List UInt8) :
    parse (some (buf ++ tail)) buf.length =
      some
        { FixMessage.ofTagged (tagsRead buf) with
          valid := WellFormed buf ∧ (FixMessage.ofTagged (tagsRead buf)).msgType ≠ .unknown } := by
  have hvalid : (grammar buf).valid = decide (WellFormed buf ∧
      (FixMessage.ofTagged (tagsRead buf)).msgType ≠ .unknown) := by
    by_cases hwell : WellFormed buf
    · -- all fields are read
      have hall : taggedFields buf = tagsRead buf := (leadingFields_wellFormed hwell).symm
      rw [grammar_tagged hwell, hall]
      simp [FixMessage.finish, hwell]
    · rw [grammar_malformed hwell]
      simp [hwell]
  rw [parse_eq, grammar_read, messageOf_eq, hvalid]
  rfl

/-! ## Members -/

/-- The members of `FixMessage` that belong to a tag. -/
inductive Member where
  | msgType
  | clOrdId
  | symbol
  | side
  | orderQty
  | priceTicks
  | ordType
  | checksum
deriving Repr, DecidableEq

namespace Member

def tag : Member → Nat
  | .msgType => 35
  | .clOrdId => 11
  | .symbol => 55
  | .side => 54
  | .orderQty => 38
  | .priceTicks => 44
  | .ordType => 40
  | .checksum => 10

/-- The two messages agree in the member. -/
def Same (msg msg' : FixMessage) : Member → Prop
  | .msgType => msg.msgType = msg'.msgType
  | .clOrdId => msg.clOrdId = msg'.clOrdId
  | .symbol => msg.symbol = msg'.symbol
  | .side => msg.side = msg'.side
  | .orderQty => msg.orderQty = msg'.orderQty
  | .priceTicks => msg.priceTicks = msg'.priceTicks
  | .ordType => msg.ordType = msg'.ordType
  | .checksum => msg.checksum = msg'.checksum

theorem mem_fieldTags_iff {t : Nat} : t ∈ fieldTags ↔ ∃ m : Member, t = m.tag := by
  refine ⟨fun h => ?_, ?_⟩
  · simp only [fieldTags, List.mem_cons, List.not_mem_nil, or_false] at h
    rcases h with rfl | rfl | rfl | rfl | rfl | rfl | rfl | rfl
    exacts [⟨.msgType, rfl⟩, ⟨.clOrdId, rfl⟩, ⟨.symbol, rfl⟩, ⟨.side, rfl⟩, ⟨.orderQty, rfl⟩,
      ⟨.priceTicks, rfl⟩, ⟨.ordType, rfl⟩, ⟨.checksum, rfl⟩]
  · rintro ⟨m, rfl⟩
    cases m <;> simp [tag, fieldTags]

end Member

/-- A field that is not taken for the member's tag leaves the member alone. -/
theorem same_applyField {m : Member} {k : Nat} (h : names m.tag k = false) (value : List UInt8)
    (msg : FixMessage) : m.Same msg (applyField (UInt32.ofNat k) value msg) := by
  rw [applyField_ofNat]
  cases m <;> (simp only [Member.tag] at h; simp [Member.Same, h])

/-- A field that is taken for no member's tag leaves the message alone. -/
theorem applyField_other {k : Nat} (h : ∀ m : Member, names m.tag k = false) (value : List UInt8)
    (msg : FixMessage) : applyField (UInt32.ofNat k) value msg = msg := by
  rw [applyField_ofNat]
  have h₁ : names 35 k = false := h .msgType
  have h₂ : names 11 k = false := h .clOrdId
  have h₃ : names 55 k = false := h .symbol
  have h₄ : names 54 k = false := h .side
  have h₅ : names 38 k = false := h .orderQty
  have h₆ : names 44 k = false := h .priceTicks
  have h₇ : names 40 k = false := h .ordType
  have h₈ : names 10 k = false := h .checksum
  simp [h₁, h₂, h₃, h₄, h₅, h₆, h₇, h₈]

/-! ## Tags that are confused -/

theorem leadingFields_text (fs : List TextField) :
    leadingFields (fs.map TextField.text) = fs.map fun f => (f.digits, f.value) := by
  induction fs with
  | nil => rfl
  | cons f fs ih =>
    show leadingFields ((f.digits ++ '='.toUInt8 :: f.value) :: fs.map TextField.text) = _
    rw [leadingFields, tagText_eq f.numeric, ih]
    rfl

/-- Of well-formed fields, all are read. -/
theorem fieldsRead_message (fs : List TextField) :
    fieldsRead (message fs) = fs.map fun f => (f.digits, f.value) := by
  have hfields := fields_message_append fs []
  rw [List.append_nil, fields_nil, List.append_nil] at hfields
  rw [fieldsRead, hfields, leadingFields_text]

/-- Where no other tag comes down to one of the eight, a field that is taken for
a member's tag has that tag. -/
theorem tag_of_names {m : Member} {k : Nat} (hown : k % 2 ^ 32 ∈ fieldTags → k ∈ fieldTags)
    (h : names m.tag k = true) : k = m.tag := by
  have hmod : k % 2 ^ 32 = m.tag := of_decide_eq_true h
  have hlt := lt_of_mem_fieldTags (hown (Member.mem_fieldTags_iff.mpr ⟨m, hmod⟩))
  rwa [Nat.mod_eq_of_lt hlt] at hmod

/-- **Tags are never confused**, in the buffers whose tags are allowed, exactly
if no tag is allowed that is not one of the eight but is one of them modulo
`2^32`.  The message `parse` returns is made by the fields read; a field changes
a member only if its tag is a number in digits, and the member's, and a field
with another tag changes nothing. -/
theorem tags_not_confused_iff (allowed : Nat → Prop) :
    (∀ buf tail, ∃ msg, parse (some (buf ++ tail)) buf.length = some msg ∧
      msg = { messageOf (fieldsRead buf) with valid := msg.valid }) ∧
    ((∀ buf, (∀ f ∈ fieldsRead buf, allowed (number f.1)) →
      ∀ before f after, fieldsRead buf = before ++ f :: after →
        (∀ m : Member, ¬ m.Same (messageOf before) (messageOf (before ++ [f])) →
          f.1 ≠ [] ∧ (∀ c ∈ f.1, isDigit c = true) ∧ number f.1 = m.tag) ∧
        ((∀ m : Member, number f.1 ≠ m.tag) → messageOf (before ++ [f]) = messageOf before)) ↔
      ∀ t, allowed t → t % 2 ^ 32 ∈ fieldTags → t ∈ fieldTags) := by
  refine ⟨fun buf tail => ⟨grammar buf, parse_eq buf tail, grammar_read buf⟩, ?_, ?_⟩
  · intro hkept t hallowed hmod
    by_contra hother
    -- one field of tag `t`
    let f : TextField := .ofTag t _ (soh_not_mem_sampleValue (t % 2 ^ 32))
    have htag : number f.digits = t := TextField.tag_ofTag t _
    have hread : fieldsRead (message [f]) = [(f.digits, f.value)] := fieldsRead_message [f]
    have hsame := (hkept (message [f]) (by rw [hread]; simpa [htag] using hallowed) [] _ [] hread).2
      (fun m heq => hother (Member.mem_fieldTags_iff.mpr ⟨m, htag.symm.trans heq⟩))
    rw [messageOf_eq, messageOf_eq, List.nil_append, List.map_singleton, htag] at hsame
    exact ofTagged_sampleValue_ne hmod (congrArg FixMessage.finish hsame)
  · intro hown buf hallowed before f after hread
    have hf : f ∈ fieldsRead buf := by
      rw [hread]
      simp
    have hown' := hown _ (hallowed f hf)
    rw [messageOf_concat]
    refine ⟨fun m hchanged => ?_, fun hne => ?_⟩
    · have hnames : names m.tag (number f.1) = true := by
        by_contra hno
        exact hchanged (same_applyField (Bool.eq_false_of_not_eq_true hno) _ _)
      have htag := tag_of_names hown' hnames
      refine ⟨?_, isDigit_of_mem_leadingFields hf, htag⟩
      -- no text is the number 0, which is no member's tag
      intro hnil
      rw [hnil] at htag
      cases m <;> cases htag
    · refine applyField_other (fun m => ?_) _ _
      refine Bool.eq_false_of_not_eq_true fun hnames => ?_
      exact hne m (tag_of_names hown' hnames)

/-- A quantity under the tag `2^32 + 38`. -/
theorem wrapped_tag_confused :
    ∃ before f, fieldsRead (bytes "35=D\x014294967334=5\x01") = before ++ [f] ∧
      number f.1 = 2 ^ 32 + 38 ∧
      ¬ Member.orderQty.Same (messageOf before) (messageOf (before ++ [f])) ∧
      ∃ msg, parse (some (bytes "35=D\x014294967334=5\x01")) 18 = some msg ∧ msg.valid = true ∧
        msg.orderQty = 5 := by
  refine ⟨[(bytes "35", bytes "D")], (bytes "4294967334", bytes "5"), rfl, rfl, ?_, _,
    parse_eq (bytes "35=D\x014294967334=5\x01") [], rfl, rfl⟩
  show ¬ (0 : UInt32) = 5
  decide

end HftEngine.Fix
