import HftEngine.Lib.Fields
import HftEngine.Fix.Message

/-!
# The grammar of a FIX message

The reference that `parse` is to meet, in terms of fields and not of
positions: the buffer is cut at each separator, each field into a tag and a
value, and the fields are applied from left to right.  The first field that
is not a tag and a value ends it, and the message is not valid.

`parse_grammar` says that the parser computes this, for every buffer and
whatever lies behind it in memory.  Its proof is one induction over the
windows the cursor moves through, for any `switch` (`parseFieldsWith_window`);
what is specific to the scan of a tag is in `splitField_eq` and
`splitField_none`.
-/

namespace HftEngine.Fix

open Lib

/-- The number a string of digits denotes, modulo `2^32`. -/
def tagOf (digits : List UInt8) : UInt32 := digits.foldl tagDigit 0

/-- The text of a field's tag, and the value: digits, possibly none, then `=`, then
the value. -/
def tagText (field : List UInt8) : Option (List UInt8 × List UInt8) :=
  match field.dropWhile isDigit with
  | [] => none
  | c :: value => if c = '='.toUInt8 then some (field.takeWhile isDigit, value) else none

/-- The tag as the parser reads it, and the value. -/
def splitField (field : List UInt8) : Option (UInt32 × List UInt8) :=
  (tagText field).map fun f => (tagOf f.1, f.2)

/-- The fields from left to right, up to the first that is malformed. -/
def applyFields : List (List UInt8) → FixMessage → FixMessage
  | [], msg => { msg with valid := msg.msgType.code ≠ 0 }
  | field :: fs, msg =>
    match splitField field with
    | none => { msg with valid := false }
    | some (tag, value) => applyFields fs (applyField tag value msg)

/-- The message a buffer stands for. -/
def grammar (buf : List UInt8) : FixMessage := applyFields (fields SOH buf) {}

/-! ## Fields -/

section Fields

variable {digits : List UInt8} (hdigits : ∀ c ∈ digits, isDigit c = true)

include hdigits

theorem tagText_eq (value : List UInt8) :
    tagText (digits ++ '='.toUInt8 :: value) = some (digits, value) := by
  have heq : isDigit '='.toUInt8 = false := by decide
  unfold tagText
  rw [List.dropWhile_append_of_pos hdigits, List.takeWhile_append_of_pos hdigits,
    List.dropWhile_cons_of_neg (by simp [heq]), List.takeWhile_cons_of_neg (by simp [heq]),
    List.append_nil]
  simp

theorem tagText_digits : tagText digits = none := by
  unfold tagText
  have hnil : digits.dropWhile isDigit = [] := List.dropWhile_eq_nil_iff.mpr hdigits
  rw [hnil]

theorem splitField_eq (value : List UInt8) :
    splitField (digits ++ '='.toUInt8 :: value) = some (tagOf digits, value) := by
  rw [splitField, tagText_eq hdigits]
  rfl

theorem splitField_digits : splitField digits = none := by
  rw [splitField, tagText_digits hdigits]
  rfl

theorem splitField_none {c : UInt8} (hc : isDigit c = false) (hne : c ≠ '='.toUInt8)
    (more : List UInt8) : splitField (digits ++ c :: more) = none := by
  unfold splitField tagText
  rw [List.dropWhile_append_of_pos hdigits, List.dropWhile_cons_of_neg (by simp [hc])]
  simp [hne]

/-- A field is free of separators if its value is. -/
theorem soh_not_mem_tagged {value : List UInt8} (hvalue : SOH ∉ value) :
    SOH ∉ digits ++ '='.toUInt8 :: value := by
  intro hmem
  rcases List.mem_append.mp hmem with hmem | hmem
  · exact absurd (hdigits SOH hmem) (by decide)
  · rcases List.mem_cons.mp hmem with heq | hmem
    · exact absurd heq (by decide)
    · exact hvalue hmem

/-- No digit is a separator: the field goes on behind its tag. -/
theorem takeWhile_digits (xs : List UInt8) :
    (digits ++ xs).takeWhile (fun c => c ≠ SOH) = digits ++ xs.takeWhile (fun c => c ≠ SOH) ∧
      (digits ++ xs).dropWhile (fun c => c ≠ SOH) = xs.dropWhile (fun c => c ≠ SOH) := by
  have hkeep : ∀ c ∈ digits, decide (c ≠ SOH) = true := by
    intro c hc
    refine decide_eq_true ?_
    rintro rfl
    exact absurd (hdigits SOH hc) (by decide)
  exact ⟨List.takeWhile_append_of_pos hkeep, List.dropWhile_append_of_pos hkeep⟩

end Fields

/-- No field touches `valid`. -/
theorem applyField_valid (tag : UInt32) (value : List UInt8) (msg : FixMessage) :
    (applyField tag value msg).valid = msg.valid := by
  unfold applyField
  split
  all_goals first | rfl | (split <;> rfl)

/-! ## The parser -/

theorem finish_eq (msg : FixMessage) : msg.finish = applyFields [] msg := by
  have hcode : msg.msgType = .unknown ↔ msg.msgType.code = 0 := by
    refine ⟨fun h => by rw [h]; rfl, fun h => ?_⟩
    show msg.msgType = ⟨0⟩
    rw [← h]
  simp only [FixMessage.finish, applyFields, ne_eq, hcode]

section Parser

variable {mem rest : List UInt8} {len pos : Nat} {digits : List UInt8} {msg : FixMessage}
  {apply : UInt32 → List UInt8 → FixMessage → Option FixMessage}

/-- The scan of a tag: it stops behind the digits, where `after` begins. -/
theorem scanTag_window {after : List UInt8} (hw : Window mem len pos (digits ++ after))
    (hdigits : ∀ c ∈ digits, isDigit c = true)
    (hafter : ∀ c more, after = c :: more → isDigit c = false) :
    ∃ s, scanTag mem len pos = some s ∧ s.pos = pos + digits.length ∧ s.acc = tagOf digits := by
  have htake : (digits ++ after).takeWhile isDigit = digits := by
    rw [List.takeWhile_append_of_pos hdigits]
    cases after with
    | nil => simp
    | cons c more =>
      have hc := hafter c more rfl
      rw [List.takeWhile_cons_of_neg (by simp [hc]), List.append_nil]
  obtain ⟨s, hs, hpos, hacc⟩ := scanWhile_window tagDigit 0 (p := isDigit) hw
  rw [htake] at hpos hacc
  exact ⟨s, hs, hpos, hacc⟩

/-- The scan of a value: it stops at the separator or at the end. -/
theorem scanValue_window (hw : Window mem len pos rest) :
    ∃ s, scanValue mem len pos = some s ∧
      slice mem pos s.pos = some (rest.takeWhile fun c => c ≠ SOH) ∧
      Window mem len s.pos (rest.dropWhile fun c => c ≠ SOH) := by
  obtain ⟨s, hs, hpos, _⟩ := scanWhile_window (fun _ _ => ()) () (p := fun c => c ≠ SOH) hw
  have hvalue : Window mem len pos
      (rest.takeWhile (fun c => c ≠ SOH) ++ rest.dropWhile fun c => c ≠ SOH) := by
    rw [List.takeWhile_append_dropWhile]
    exact hw
  refine ⟨s, hs, ?_, ?_⟩
  · rw [hpos]
    exact hvalue.slice_eq
  · rw [hpos]
    exact hvalue.advance

/-- At the end of the buffer, right behind a separator, the loop ends. -/
theorem parseFieldsWith_end (hw : Window mem len pos []) :
    parseFieldsWith apply mem len pos msg = some msg.finish := by
  have hlen := hw.length_eq
  rw [List.length_nil] at hlen
  rw [parseFieldsWith, if_neg (by omega)]
  rfl

/-- Digits up to the end of the buffer. -/
theorem parseFieldsWith_digits (hw : Window mem len pos digits)
    (hdigits : ∀ c ∈ digits, isDigit c = true) (hne : digits ≠ []) :
    parseFieldsWith apply mem len pos msg = some msg := by
  have hlen := hw.length_eq
  have hpos := List.length_pos_of_ne_nil hne
  have hw' : Window mem len pos (digits ++ []) := by rwa [List.append_nil]
  obtain ⟨⟨tagEnd, tag, hle⟩, hs, htagEnd, _⟩ :=
    scanTag_window hw' hdigits (fun c more h => by cases h)
  have htagEnd : tagEnd = pos + digits.length := htagEnd
  rw [parseFieldsWith, if_pos (by omega)]
  simp only [hs, Option.bind_eq_bind, Option.bind_some]
  rw [if_pos (by omega)]
  rfl

/-- Digits and then something other than `=`. -/
theorem parseFieldsWith_malformed {c : UInt8} {more : List UInt8}
    (hw : Window mem len pos (digits ++ c :: more)) (hdigits : ∀ c ∈ digits, isDigit c = true)
    (hc : isDigit c = false) (hne : c ≠ '='.toUInt8) :
    parseFieldsWith apply mem len pos msg = some msg := by
  have hlen := hw.length_eq
  rw [List.length_append, List.length_cons] at hlen
  obtain ⟨⟨tagEnd, tag, hle⟩, hs, htagEnd, _⟩ :=
    scanTag_window hw hdigits (fun c' more' h => by cases h; exact hc)
  have htagEnd : tagEnd = pos + digits.length := htagEnd
  have hread : mem[tagEnd]? = some c := by
    rw [htagEnd]
    exact hw.advance.read
  rw [parseFieldsWith, if_pos (by omega)]
  simp only [hs, Option.bind_eq_bind, Option.bind_some]
  rw [if_neg (by omega)]
  simp only [hread, Option.bind_some, Option.pure_def]
  rw [if_pos hne]

/-- A tag and a value: the value is applied, and the loop ends or goes on
behind the separator. -/
theorem parseFieldsWith_field (msg : FixMessage) {more : List UInt8}
    (hw : Window mem len pos (digits ++ '='.toUInt8 :: more))
    (hdigits : ∀ c ∈ digits, isDigit c = true) :
    (more.dropWhile (fun c => c ≠ SOH) = [] ∧ parseFieldsWith apply mem len pos msg =
      (apply (tagOf digits) (more.takeWhile fun c => c ≠ SOH) msg).map FixMessage.finish) ∨
    ∃ pos' rest, more.dropWhile (fun c => c ≠ SOH) = SOH :: rest ∧ Window mem len pos' rest ∧
      parseFieldsWith apply mem len pos msg =
        (apply (tagOf digits) (more.takeWhile fun c => c ≠ SOH) msg).bind
          (parseFieldsWith apply mem len pos') := by
  have hlen := hw.length_eq
  rw [List.length_append, List.length_cons] at hlen
  obtain ⟨⟨tagEnd, tag, hle⟩, hs, htagEnd, htag⟩ :=
    scanTag_window hw hdigits (fun c' more' h => by cases h; decide)
  have htagEnd : tagEnd = pos + digits.length := htagEnd
  have htag : tag = tagOf digits := htag
  have hread : mem[tagEnd]? = some '='.toUInt8 := by
    rw [htagEnd]
    exact hw.advance.read
  have hmore : Window mem len (tagEnd + 1) more := by
    rw [htagEnd]
    exact hw.advance.next
  obtain ⟨⟨valEnd, u, hle'⟩, hs', hslice, hafter⟩ := scanValue_window hmore
  have hslice : slice mem (tagEnd + 1) valEnd = some (more.takeWhile fun c => c ≠ SOH) := hslice
  have hafter : Window mem len valEnd (more.dropWhile fun c => c ≠ SOH) := hafter
  -- one turn of the loop, up to the test for the end behind the value
  have hstep : parseFieldsWith apply mem len pos msg =
      (apply (tagOf digits) (more.takeWhile fun c => c ≠ SOH) msg).bind fun msg =>
        if valEnd ≥ len then some msg.finish
        else parseFieldsWith apply mem len (valEnd + 1) msg := by
    rw [parseFieldsWith, if_pos (by omega)]
    simp only [hs, Option.bind_eq_bind, Option.bind_some]
    rw [if_neg (by omega)]
    simp only [hread, Option.bind_some, hs', hslice, htag]
    rfl
  have hend := hafter.length_eq
  cases hdrop : more.dropWhile fun c => c ≠ SOH with
  | nil =>
    rw [hdrop, List.length_nil] at hend
    refine .inl ⟨rfl, ?_⟩
    simp only [hstep, if_pos (show valEnd ≥ len by omega)]
    exact Option.map_eq_bind.symm
  | cons c rest =>
    rw [hdrop] at hafter hend
    rw [List.length_cons] at hend
    refine .inr ⟨valEnd + 1, rest, by rw [eq_of_dropWhile hdrop], hafter.next, ?_⟩
    simp only [hstep, if_neg (show ¬ valEnd ≥ len by omega)]

end Parser

/-- A list is its leading digits and something that begins with none. -/
theorem split_digits (rest : List UInt8) :
    ∃ digits after, rest = digits ++ after ∧ (∀ c ∈ digits, isDigit c = true) ∧
      ∀ c more, after = c :: more → isDigit c = false := by
  refine ⟨_, _, List.takeWhile_append_dropWhile.symm, fun c hc => List.mem_takeWhile_imp hc, ?_⟩
  intro c more hafter
  have hhead := List.head?_dropWhile_not isDigit rest
  rw [hafter] at hhead
  exact hhead

/-- The fields from left to right, up to the first that is malformed or that
the `switch` fails on. -/
def applyFieldsWith (apply : UInt32 → List UInt8 → FixMessage → Option FixMessage) :
    List (List UInt8) → FixMessage → Option FixMessage
  | [], msg => some msg.finish
  | field :: fs, msg =>
    match splitField field with
    | none => some msg
    | some (tag, value) => (apply tag value msg).bind (applyFieldsWith apply fs)

/-- From any position, the loop applies the fields of what is left. -/
theorem parseFieldsWith_window (apply : UInt32 → List UInt8 → FixMessage → Option FixMessage)
    {mem rest : List UInt8} {len pos : Nat} (hw : Window mem len pos rest) (msg : FixMessage) :
    parseFieldsWith apply mem len pos msg = applyFieldsWith apply (fields SOH rest) msg := by
  by_cases hnil : rest = []
  · subst hnil
    rw [parseFieldsWith_end hw, fields_nil, applyFieldsWith]
  · obtain ⟨digits, after, rfl, hdigits, hafter⟩ := split_digits rest
    obtain ⟨htake, hdrop⟩ := takeWhile_digits hdigits after
    rw [fields_of_ne_nil hnil, htake, hdrop]
    cases after with
    | nil =>
      rw [List.append_nil] at hw hnil
      rw [parseFieldsWith_digits hw hdigits hnil, List.takeWhile_nil, List.append_nil,
        applyFieldsWith, splitField_digits hdigits]
    | cons c more =>
      have hc := hafter c more rfl
      by_cases heq : c = '='.toUInt8
      · subst heq
        rw [List.takeWhile_cons_of_pos (by decide), List.dropWhile_cons_of_pos (by decide),
          applyFieldsWith, splitField_eq hdigits]
        rcases parseFieldsWith_field msg hw hdigits with ⟨hend, hp⟩ | ⟨pos', rest, hend, hw', hp⟩
        · rw [hp, hend, List.tail_nil, fields_nil, Option.map_eq_bind]
          rfl
        · -- the rest behind the separator is shorter, so the recursion ends
          have hshort : rest.length < (digits ++ '='.toUInt8 :: more).length := by
            have hle := (List.dropWhile_sublist (l := more) fun c => c ≠ SOH).length_le
            rw [hend, List.length_cons] at hle
            rw [List.length_append, List.length_cons]
            omega
          rw [hp, hend, List.tail_cons]
          congr 1
          funext msg
          exact parseFieldsWith_window apply hw' msg
      · rw [parseFieldsWith_malformed hw hdigits hc heq, applyFieldsWith]
        by_cases hsoh : c = SOH
        · rw [hsoh, List.takeWhile_cons_of_neg (by simp), List.append_nil,
            splitField_digits hdigits]
        · rw [List.takeWhile_cons_of_pos (by simp [hsoh]), splitField_none hdigits hc heq]
termination_by rest.length

/-! ## The parser's own `switch` -/

theorem parseFields_eq_with (mem : List UInt8) (len pos : Nat) (msg : FixMessage) :
    parseFields mem len pos msg =
      parseFieldsWith (fun tag value msg => some (applyField tag value msg)) mem len pos msg := by
  fun_induction parseFields mem len pos msg with
  | case1 pos msg hlt ih =>
    rw [parseFieldsWith, if_pos hlt]
    refine bind_congr fun ⟨tagEnd, tag, hle⟩ => ?_
    dsimp only
    split
    · rfl
    · refine bind_congr fun c => ?_
      split
      · rfl
      · refine bind_congr fun ⟨valEnd, u, hle'⟩ => bind_congr fun value => ?_
        by_cases hend : valEnd ≥ len
        · simp only [if_pos hend]
          rfl
        · simp only [if_neg hend]
          exact ih tagEnd tag hle valEnd hle' value hend
  | case2 pos msg hge => rw [parseFieldsWith, if_neg hge]

/-- With no field malformed so far, what an early return hands back is not yet
valid. -/
theorem applyFieldsWith_applyField (fs : List (List UInt8)) {msg : FixMessage}
    (hvalid : msg.valid = false) :
    applyFieldsWith (fun tag value msg => some (applyField tag value msg)) fs msg =
      some (applyFields fs msg) := by
  induction fs generalizing msg with
  | nil => rw [applyFieldsWith, finish_eq]
  | cons field fs ih =>
    rw [applyFieldsWith, applyFields]
    cases splitField field with
    | none => rw [← hvalid]
    | some f => exact ih ((applyField_valid f.1 f.2 msg).trans hvalid)

theorem parse_eq (buf tail : List UInt8) :
    parse (some (buf ++ tail)) buf.length = some (grammar buf) := by
  unfold parse grammar
  by_cases hnil : buf = []
  · subst hnil
    rfl
  · have hpos := List.length_pos_of_ne_nil hnil
    show (if buf.length = 0 then _ else _) = _
    rw [if_neg (by omega)]
    rw [parseFields_eq_with, parseFieldsWith_window _ (window_start buf tail)]
    exact applyFieldsWith_applyField _ rfl

/-- **The parser computes the grammar**, for every buffer and whatever lies
behind it in memory (nothing at all included, so that a read past the buffer
would fail).  A null pointer is an empty buffer. -/
theorem parse_grammar (buf tail : List UInt8) (len : Nat) :
    parse (some (buf ++ tail)) buf.length = some (grammar buf) ∧
      parse none len = some (grammar []) := by
  refine ⟨parse_eq buf tail, ?_⟩
  rfl

end HftEngine.Fix
