import HftEngine.Rtl.FixParser
import Mathlib.Data.Nat.Digits.Defs

/-!
# What the hardware parser makes of a message

The format is `tag=value|`, field after field, with the tags 8, 35, 49, 56 and
34; `Decoded` says what the output registers should hold after it.  The parser
does none of it.

* A tag is kept as its last characters, not as a number: after a reset, tag 8
  is the character `'8'`, that is 56, and is taken for the TargetCompID; the
  other tags leave a second digit that is no tag at all (`decode_first`).
* The byte behind a `|` is used up by `PROCESS_FIELD`, and the character of the
  old tag moves to the high byte of the next one, where it makes every
  comparison fail: from the second field on nothing is written (`Past`).

`message_misread` puts this together, for every message and every schedule
with an idle cycle behind each byte.
-/

namespace HftEngine.Rtl

open Lib FixParser

/-! ## The format -/

inductive Tag where
  | beginString
  | msgType
  | senderCompId
  | targetCompId
  | sequence
deriving Repr, DecidableEq

/-- The tag in ASCII: 8, 35, 49, 56 or 34. -/
def Tag.text : Tag → List Byte
  | .beginString => [0x38]
  | .msgType => [0x33, 0x35]
  | .senderCompId => [0x34, 0x39]
  | .targetCompId => [0x35, 0x36]
  | .sequence => [0x33, 0x34]

structure Field where
  tag : Tag
  value : List Byte
  value_ne_nil : value ≠ []
  bar_not_mem : 124 ∉ value

/-- `tag=value|`. -/
def Field.bytes (f : Field) : List Byte := f.tag.text ++ 61 :: (f.value ++ [124])

def message (fields : List Field) : List Byte := fields.flatMap Field.bytes

/-- The last value sent under a tag. -/
def lastValue (tag : Tag) (fields : List Field) : Option (List Byte) :=
  (fields.reverse.find? (·.tag = tag)).map (·.value)

/-- The last `n` bytes of a value, or all of them if it is shorter, as a
number. -/
def lastBytes (n : Nat) (value : List Byte) : Nat :=
  Nat.ofDigits 256 ((value.reverse.map (·.toNat)).take n)

/-- The registers as they should be after a message. -/
structure Decoded (fields : List Field) (out : Outputs) : Prop where
  beginString : ∀ v, lastValue .beginString fields = some v →
    out.oBeginString.toNat = lastBytes 4 v
  msgType : ∀ v, lastValue .msgType fields = some v → out.oMsgType.toNat = lastBytes 2 v
  senderCompId : ∀ v, lastValue .senderCompId fields = some v →
    out.oSenderCompId.toNat = lastBytes 4 v
  targetCompId : ∀ v, lastValue .targetCompId fields = some v →
    out.oTargetCompId.toNat = lastBytes 4 v
  sequence : ∀ v, lastValue .sequence fields = some v → out.oSequence.toNat = lastBytes 4 v
  valid : out.oMsgValid = true

/-! ## The first field -/

/-- The value register holds the last four bytes shifted into it. -/
theorem toNat_shiftIn_value (value : List Byte) :
    (value.foldl shiftIn 0).toNat = lastBytes 4 value := by
  induction value using List.reverseRecOn with
  | nil => rfl
  | append_singleton value b ih =>
    have hlow : lastBytes 4 value % 256 ^ 3 = lastBytes 3 value := by
      rw [lastBytes, Nat.ofDigits_mod_pow_eq_ofDigits_take 3 (by omega), List.take_take]
      · rfl
      · intro x hx
        obtain ⟨c, _, rfl⟩ := List.mem_map.mp (List.mem_of_mem_take hx)
        exact c.isLt
    have hb := b.isLt
    rw [List.foldl_append, List.foldl_cons, List.foldl_nil, shiftIn, BitVec.toNat_append,
      ← Nat.shiftLeft_add_eq_or_of_lt hb, BitVec.toNat_setWidth, ih, Nat.shiftLeft_eq]
    rw [show 2 ^ 24 = 256 ^ 3 by norm_num, hlow]
    simp only [lastBytes, List.reverse_append, List.reverse_singleton, List.singleton_append,
      List.map_cons, List.take_succ_cons, Nat.ofDigits_cons]
    omega

/-- The digit of a tag that stays in the low byte. -/
def Tag.digit : Tag → Byte
  | .beginString => 0x38
  | .msgType => 0x35
  | .senderCompId => 0x39
  | .targetCompId => 0x36
  | .sequence => 0x34

/-- Value bytes are shifted in one by one. -/
theorem absorb_value {s : FixParser} (hstate : s.state = .parseValue)
    (hnext : s.nextState = .parseValue) {value : List Byte} (hbar : 124 ∉ value) :
    absorb clock settle s value =
      { s with
        currentValue := value.foldl shiftIn s.currentValue
        byteCount := s.byteCount + BitVec.ofNat 8 value.length } := by
  induction value generalizing s with
  | nil => simp [absorb]
  | cons b value ih =>
    rw [List.mem_cons, not_or] at hbar
    have hstep : settle (clock s true b) =
        { s with
          currentValue := shiftIn s.currentValue b
          byteCount := s.byteCount + 1 } := by
      show settle (s.take b) = _
      rw [take_parseValue hstate, if_neg (Ne.symm hbar.1), settle, hnext]
      simp [hstate]
    have hrest := ih (s := settle (clock s true b)) (by rw [hstep]; exact hstate)
      (by rw [hstep]; exact hnext) hbar.2
    show absorb clock settle (settle (clock s true b)) value = _
    rw [hrest, hstep]
    simp [BitVec.add_assoc, BitVec.ofNat_add, BitVec.add_comm]

/-- After a reset, the first field is read up to its `|`. -/
theorem absorb_first (s : FixParser) (hnext : s.nextState = .idle) (f : Field) :
    absorb clock settle s.reset f.bytes =
      { s.reset with
        state := .processField
        nextState := .processField
        currentTag := (0 : Byte) ++ f.tag.digit
        currentValue := f.value.foldl shiftIn 0
        byteCount := BitVec.ofNat 8 f.value.length } := by
  have htag : absorb clock settle s.reset (f.tag.text ++ [61]) =
      { s.reset with
        state := .parseValue
        nextState := .parseValue
        currentTag := (0 : Byte) ++ f.tag.digit } := by
    obtain ⟨st, nx, tag, value, count, out⟩ := s
    cases hnext
    cases f.tag <;> simp [absorb, clock, take, settle, reset, isDigit, Tag.text, Tag.digit]
  have hsplit : f.bytes = (f.tag.text ++ [61]) ++ f.value ++ [124] := by simp [Field.bytes]
  rw [hsplit, absorb_append, absorb_append, htag, absorb_value rfl rfl f.bar_not_mem]
  show settle _ = _
  rw [settle]
  simp [reset, clock, take]

/-- After a reset, tag 8 is taken for tag 56 and the other tags for none. -/
theorem decode_first (out : Outputs) (tag : Tag) (value : BitVec 32) :
    out.decode ((0 : Byte) ++ tag.digit) value =
      if tag = .beginString then { out with oTargetCompId := value.setWidth 48 } else out := by
  cases tag <;> simp [Outputs.decode, Tag.digit]

/-! ## The fields behind it -/

/-- The first field is behind: the digit it left in the tag is where the next
digit will push it up, or has been pushed up. -/
structure Past (s : FixParser) : Prop where
  settled : s.nextState = s.state
  state : s.state ≠ .msgComplete
  low : isDigit (s.currentTag.setWidth 8) = true
  high : s.state ≠ .idle → isDigit (s.currentTag.extractLsb 15 8) = true

/-- A tag with a digit in its high byte is none of those looked for. -/
theorem decode_of_high {tag : BitVec 16} (htag : isDigit (tag.extractLsb 15 8) = true)
    (out : Outputs) (value : BitVec 32) : out.decode tag value = out := by
  have hne : ∀ x : BitVec 16, isDigit (x.extractLsb 15 8) = false → tag ≠ x := by
    rintro x hx rfl
    rw [hx] at htag
    cases htag
  rw [Outputs.decode, if_neg (hne 8 (by decide)), if_neg (hne 35 (by decide)),
    if_neg (hne 49 (by decide)), if_neg (hne 56 (by decide)), if_neg (hne 34 (by decide))]

/-- A digit behind a digit. -/
theorem isDigit_append {high b : Byte} (hhigh : isDigit high = true) (hb : isDigit b = true) :
    isDigit ((high ++ b : BitVec 16).setWidth 8) = true ∧
      isDigit ((high ++ b : BitVec 16).extractLsb 15 8) = true := by
  rw [low_append, high_append]
  exact ⟨hb, hhigh⟩

/-- A settled byte keeps `Past` and writes no output. -/
theorem past_byte {s : FixParser} (h : Past s) (b : Byte) :
    Past (settle (clock s true b)) ∧ (settle (clock s true b)).out = s.out := by
  show Past (s.take b).settle ∧ (s.take b).out = s.out
  cases hstate : s.state with
  | idle =>
    rw [take_idle hstate]
    by_cases hdigit : isDigit b = true
    · obtain ⟨hlow, hhigh⟩ := isDigit_append h.low hdigit
      rw [if_pos hdigit]
      exact ⟨⟨rfl, nofun, hlow, fun _ => hhigh⟩, rfl⟩
    · rw [if_neg hdigit]
      have hnext : s.nextState = .idle := h.settled.trans hstate
      refine ⟨⟨rfl, ?_, h.low, fun hne => absurd hnext hne⟩, rfl⟩
      show s.nextState ≠ .msgComplete
      rw [hnext]
      exact nofun
  | parseTag =>
    have hhigh := h.high (by rw [hstate]; exact nofun)
    have hnext : s.nextState ≠ .msgComplete := by rw [h.settled]; exact h.state
    rw [take_parseTag hstate]
    by_cases heq : b = 61
    · rw [if_pos heq]
      exact ⟨⟨rfl, nofun, h.low, fun _ => hhigh⟩, rfl⟩
    rw [if_neg heq]
    by_cases hdigit : isDigit b = true
    · obtain ⟨hlow', hhigh'⟩ := isDigit_append hhigh hdigit
      rw [if_pos hdigit]
      exact ⟨⟨rfl, hnext, hlow', fun _ => hhigh'⟩, rfl⟩
    · rw [if_neg hdigit]
      exact ⟨⟨rfl, hnext, h.low, fun _ => hhigh⟩, rfl⟩
  | parseValue =>
    have hhigh := h.high (by rw [hstate]; exact nofun)
    have hnext : s.nextState ≠ .msgComplete := by rw [h.settled]; exact h.state
    rw [take_parseValue hstate]
    by_cases hbar : b = 124
    · rw [if_pos hbar]
      exact ⟨⟨rfl, nofun, h.low, fun _ => hhigh⟩, rfl⟩
    · rw [if_neg hbar]
      exact ⟨⟨rfl, hnext, h.low, fun _ => hhigh⟩, rfl⟩
  | processField =>
    have hhigh := h.high (by rw [hstate]; exact nofun)
    rw [take_processField hstate, decode_of_high hhigh]
    exact ⟨⟨rfl, nofun, h.low, fun hne => absurd rfl hne⟩, rfl⟩
  | msgComplete => exact absurd hstate h.state

theorem past_absorb {s : FixParser} (h : Past s) (bs : List Byte) :
    (absorb clock settle s bs).out = s.out := by
  induction bs generalizing s with
  | nil => rfl
  | cons b bs ih =>
    obtain ⟨hpast, hout⟩ := past_byte h b
    exact (ih hpast).trans hout

/-! ## A whole message -/

/-- The outputs after a message and one byte more, the parser settled after
each byte. -/
theorem out_absorb_message (s : FixParser) (hnext : s.nextState = .idle) (f : Field)
    (fields : List Field) (last : Byte) :
    (absorb clock settle s.reset (message (f :: fields) ++ [last])).out =
      s.reset.out.decode ((0 : Byte) ++ f.tag.digit) (f.value.foldl shiftIn 0) := by
  obtain ⟨b, bs, hbs⟩ : ∃ b bs, message fields ++ [last] = b :: bs :=
    List.exists_cons_of_ne_nil (by simp)
  have hsplit : message (f :: fields) ++ [last] = f.bytes ++ (b :: bs) := by
    rw [← hbs]
    simp [message]
  rw [hsplit, absorb_append, absorb_first s hnext f]
  -- the byte `b` is used up by `PROCESS_FIELD`
  have hidle : ParseState.idle ≠ .msgComplete := nofun
  refine past_absorb ⟨rfl, hidle, ?_, fun hne => absurd rfl hne⟩ bs
  show isDigit ((_ ++ f.tag.digit : BitVec 16).setWidth 8) = true
  rw [low_append]
  cases f.tag <;> rfl

/-- **No message is decoded.** A message of one or more fields is delivered
after a reset, any number of idle cycles later, with at least one idle cycle
behind each byte, and one valid byte more.  Then `o_msg_valid` is down, and of
the other outputs only `o_target_comp_id` can have been written: by a first
field with tag 8, with the last bytes of its value. -/
theorem message_misread (s : FixParser) (hnext : s.nextState = .idle) (f : Field)
    (fields : List Field) (lead : List Byte) (ds : List (Delivery Byte))
    (hds : ds.map (·.byte) = message (f :: fields)) (hidle : ∀ d ∈ ds, d.idles ≠ [])
    (last : Byte) :
    let out := ((deliver clock (s.afterReset lead) ds).clock true last).out
    ¬ Decoded (f :: fields) out ∧
      out =
        { s.out with
          oMsgValid := false
          oTargetCompId :=
            if f.tag = .beginString then BitVec.ofNat 48 (lastBytes 4 f.value)
            else s.out.oTargetCompId } := by
  have hout : ((deliver clock s.reset ds).clock true last).out =
      { s.out with
        oMsgValid := false
        oTargetCompId :=
          if f.tag = .beginString then BitVec.ofNat 48 (lastBytes 4 f.value)
          else s.out.oTargetCompId } := by
    have habsorb := out_absorb_message s hnext f fields last
    rw [absorb_append, ← hds, ← deliver_spaced settles (spaced_of_idles hidle), decode_first]
      at habsorb
    have hvalue : (f.value.foldl shiftIn 0).setWidth 48 = BitVec.ofNat 48 (lastBytes 4 f.value) := by
      rw [← toNat_shiftIn_value, BitVec.ofNat_toNat]
    rw [hvalue] at habsorb
    refine Eq.trans habsorb ?_
    split <;> rfl
  simp only [afterReset_eq hnext]
  refine ⟨fun hdecoded => ?_, hout⟩
  have hvalid := hdecoded.valid
  rw [hout] at hvalid
  cases hvalid

/-! ### The message of the test bench -/

/-- Each byte with one idle cycle behind it, as `send_byte` sends them. -/
def spacedOut (bytes : List Byte) : List (Delivery Byte) := bytes.map fun b => ⟨b, [b]⟩

theorem spacedOut_bytes (bytes : List Byte) : (spacedOut bytes).map (·.byte) = bytes := by
  rw [spacedOut, List.map_map]
  exact List.map_id bytes

theorem spacedOut_idles (bytes : List Byte) : ∀ d ∈ spacedOut bytes, d.idles ≠ [] := by
  intro d hd
  obtain ⟨b, _, rfl⟩ := List.mem_map.mp hd
  simp

/-- `8=FIX|35=D|34=SEN|`. -/
def testFields : List Field :=
  [⟨.beginString, [0x46, 0x49, 0x58], by decide, by decide⟩,
    ⟨.msgType, [0x44], by decide, by decide⟩,
    ⟨.sequence, [0x53, 0x45, 0x4e], by decide, by decide⟩]

/-- The test bench's message, and a `'1'` behind it: BeginString is found in
`o_target_comp_id`, everything else is as it was. -/
theorem message_misread_test_bench :
    (spacedOut (message testFields)).map (·.byte) = message testFields ∧
      ((deliver clock (blank.afterReset []) (spacedOut (message testFields))).clock true 0x31).out =
        ⟨0, 0, 0, 0x464958, 0, false⟩ := by
  have hbytes := spacedOut_bytes (message testFields)
  refine ⟨hbytes, ?_⟩
  exact (message_misread blank rfl _ _ [] _ hbytes (spacedOut_idles _) 0x31).2

/-- The same run: the outputs are not those of the message. -/
theorem test_bench_not_decoded :
    ¬ Decoded testFields
      ((deliver clock (blank.afterReset []) (spacedOut (message testFields))).clock true 0x31).out := by
  intro h
  exact Bool.false_ne_true h.valid

end HftEngine.Rtl
