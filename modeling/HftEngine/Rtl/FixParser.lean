import HftEngine.Lib.Clocked
import Mathlib.Data.BitVec

/-!
# The hardware parser (`fix_parser.v`)

One `always` block: at every clock edge all registers are assigned at once,
from the values they had before.  `clock` is that assignment with `rst_n` up,
`reset` the one with `rst_n` down.

`next_state` is a register like the others, written by the byte that moves the
parser and copied to `state` at the following edge.  A byte is read in `state`,
so one that comes right behind such a byte is still read in the old state; an
idle cycle in between lets `state` catch up (`settles`).

* `Quiet` — what holds of every run after a reset, however the bytes are
  spaced: `MSG_COMPLETE` is never entered, so `o_msg_valid` stays down; the low
  byte of `current_tag` is an ASCII digit or 0, and the constants 8, 35 and 34
  it is compared with are neither, so three of the five fields are never
  written (`run_quiet`).
-/

namespace HftEngine.Rtl

open Lib

abbrev Byte := BitVec 8

inductive ParseState where
  | idle
  | parseTag
  | parseValue
  | processField
  | msgComplete
deriving Repr, DecidableEq

/-- The output registers. -/
structure Outputs where
  oBeginString : BitVec 32
  oMsgType : BitVec 16
  oSenderCompId : BitVec 48
  oTargetCompId : BitVec 48
  oSequence : BitVec 32
  oMsgValid : Bool
deriving Repr, DecidableEq

structure FixParser where
  state : ParseState
  nextState : ParseState
  currentTag : BitVec 16
  currentValue : BitVec 32
  byteCount : BitVec 8
  out : Outputs
deriving Repr, DecidableEq

/-- `i_data >= 8'd48 && i_data <= 8'd57`. -/
def isDigit (b : Byte) : Bool := 48 ≤ b && b ≤ 57

/-- `{current_value[23:0], i_data}`. -/
def shiftIn (value : BitVec 32) (b : Byte) : BitVec 32 := value.setWidth 24 ++ b

/-- The inner `case` of `PROCESS_FIELD`. -/
def Outputs.decode (out : Outputs) (tag : BitVec 16) (value : BitVec 32) : Outputs :=
  if tag = 8 then { out with oBeginString := value }
  else if tag = 35 then { out with oMsgType := value.setWidth 16 }
  else if tag = 49 then { out with oSenderCompId := value.setWidth 48 }
  else if tag = 56 then { out with oTargetCompId := value.setWidth 48 }
  else if tag = 34 then { out with oSequence := value }
  else out

namespace FixParser

/-- A clock edge with `rst_n` down; `next_state` and the decoded fields are not
reset. -/
def reset (s : FixParser) : FixParser :=
  { s with
    state := .idle
    currentTag := 0
    currentValue := 0
    byteCount := 0
    out := { s.out with oMsgValid := false } }

/-- What a valid byte assigns, by the state it is read in. -/
def take (s : FixParser) (iData : Byte) : FixParser :=
  match s.state with
  | .idle =>
    if isDigit iData then
      { s with
        byteCount := 0
        currentTag := s.currentTag.setWidth 8 ++ iData
        nextState := .parseTag }
    else { s with byteCount := 0 }
  | .parseTag =>
    if iData = 61 then { s with nextState := .parseValue, byteCount := 0 }
    else if isDigit iData then
      { s with currentTag := s.currentTag.extractLsb 15 8 ++ iData }
    else s
  | .parseValue =>
    if iData = 124 then { s with nextState := .processField }
    else
      { s with
        currentValue := shiftIn s.currentValue iData
        byteCount := s.byteCount + 1 }
  | .processField =>
    { s with out := s.out.decode s.currentTag s.currentValue, nextState := .idle }
  | .msgComplete => { s with out := { s.out with oMsgValid := true }, nextState := .idle }

section Take

variable {s : FixParser}

theorem take_idle (h : s.state = .idle) (b : Byte) :
    s.take b =
      if isDigit b then
        { s with
          byteCount := 0
          currentTag := s.currentTag.setWidth 8 ++ b
          nextState := .parseTag }
      else { s with byteCount := 0 } := by
  simp only [take, h]

theorem take_parseTag (h : s.state = .parseTag) (b : Byte) :
    s.take b =
      if b = 61 then { s with nextState := .parseValue, byteCount := 0 }
      else if isDigit b then { s with currentTag := s.currentTag.extractLsb 15 8 ++ b }
      else s := by
  simp only [take, h]

theorem take_parseValue (h : s.state = .parseValue) (b : Byte) :
    s.take b =
      if b = 124 then { s with nextState := .processField }
      else
        { s with
          currentValue := shiftIn s.currentValue b
          byteCount := s.byteCount + 1 } := by
  simp only [take, h]

theorem take_processField (h : s.state = .processField) (b : Byte) :
    s.take b =
      { s with out := s.out.decode s.currentTag s.currentValue, nextState := .idle } := by
  simp only [take, h]

end Take

/-- A clock edge with `rst_n` up. -/
def clock (s : FixParser) (iValid : Bool) (iData : Byte) : FixParser :=
  { (if iValid then s.take iData else s) with state := s.nextState }

def oReady (s : FixParser) : Bool := s.state == .idle

/-- `state` caught up with `next_state`. -/
def settle (s : FixParser) : FixParser := { s with state := s.nextState }

theorem settles : Settles clock settle := ⟨fun _ _ => rfl, fun _ => rfl⟩

@[simp] theorem out_settle (s : FixParser) : s.settle.out = s.out := rfl

/-- Idle cycles write no output. -/
theorem out_idles (s : FixParser) (xs : List Byte) :
    (clocks clock s (xs.map fun x => (false, x))).out = s.out := by
  by_cases hxs : xs = []
  · rw [hxs]
    rfl
  · rw [settles.idles s hxs]
    rfl

/-- Resets agree where the registers that are not reset do. -/
theorem reset_eq {s s' : FixParser} (hnext : s.nextState = s'.nextState) (hout : s.out = s'.out) :
    s.reset = s'.reset := by
  rw [reset, reset, hnext, hout]

/-- A reset, and any number of idle cycles. -/
def afterReset (s : FixParser) (lead : List Byte) : FixParser :=
  clocks clock s.reset (lead.map fun x => (false, x))

theorem afterReset_eq {s : FixParser} (hnext : s.nextState = .idle) (lead : List Byte) :
    s.afterReset lead = s.reset := by
  by_cases hlead : lead = []
  · rw [hlead]
    rfl
  · rw [afterReset, settles.idles _ hlead, settle]
    simp [reset, hnext]

/-- Power-up with every register 0. -/
def blank : FixParser := ⟨.idle, .idle, 0, 0, 0, ⟨0, 0, 0, 0, 0, false⟩⟩

/-! ## Every run after a reset -/

/-- Never on the way to `MSG_COMPLETE`, and nothing but digits in the tag. -/
structure Quiet (start : Outputs) (s : FixParser) : Prop where
  state : s.state ≠ .msgComplete
  nextState : s.nextState ≠ .msgComplete
  tag : s.currentTag.setWidth 8 = 0 ∨ isDigit (s.currentTag.setWidth 8) = true
  valid : s.out.oMsgValid = start.oMsgValid
  beginString : s.out.oBeginString = start.oBeginString
  msgType : s.out.oMsgType = start.oMsgType
  sequence : s.out.oSequence = start.oSequence

theorem low_append (x : Byte) (b : Byte) : (x ++ b : BitVec 16).setWidth 8 = b :=
  BitVec.setWidth_append_eq_right

theorem high_append (x : Byte) (b : Byte) : (x ++ b : BitVec 16).extractLsb 15 8 = x :=
  BitVec.extractLsb'_append_eq_left

/-- A tag whose low byte is a digit or 0 is none of 8, 35 and 34. -/
theorem decode_of_low {tag : BitVec 16} (htag : tag.setWidth 8 = 0 ∨ isDigit (tag.setWidth 8) = true)
    (out : Outputs) (value : BitVec 32) :
    out.decode tag value =
      if tag = 49 then { out with oSenderCompId := value.setWidth 48 }
      else if tag = 56 then { out with oTargetCompId := value.setWidth 48 }
      else out := by
  have hne : ∀ x : BitVec 16, ¬(x.setWidth 8 = 0 ∨ isDigit (x.setWidth 8) = true) → tag ≠ x := by
    rintro x hx rfl
    exact hx htag
  rw [Outputs.decode, if_neg (hne 8 (by decide)), if_neg (hne 35 (by decide)),
    if_neg (hne 34 (by decide))]

section Quiet

variable {start : Outputs} {s : FixParser}

theorem quiet_reset (s : FixParser) (h : s.nextState ≠ .msgComplete) :
    Quiet { s.out with oMsgValid := false } s.reset :=
  ⟨nofun, h, .inl rfl, rfl, rfl, rfl, rfl⟩

theorem quiet_settle (h : Quiet start s) : Quiet start s.settle :=
  ⟨h.nextState, h.nextState, h.tag, h.valid, h.beginString, h.msgType, h.sequence⟩

theorem quiet_take (h : Quiet start s) (iData : Byte) : Quiet start (s.take iData) := by
  cases hstate : s.state with
  | idle =>
    rw [take_idle hstate]
    by_cases hdigit : isDigit iData = true
    · rw [if_pos hdigit]
      refine ⟨h.state, nofun, .inr ?_, h.valid, h.beginString, h.msgType, h.sequence⟩
      rw [low_append]
      exact hdigit
    · rw [if_neg hdigit]
      exact ⟨h.state, h.nextState, h.tag, h.valid, h.beginString, h.msgType, h.sequence⟩
  | parseTag =>
    rw [take_parseTag hstate]
    by_cases heq : iData = 61
    · rw [if_pos heq]
      exact ⟨h.state, nofun, h.tag, h.valid, h.beginString, h.msgType, h.sequence⟩
    rw [if_neg heq]
    by_cases hdigit : isDigit iData = true
    · rw [if_pos hdigit]
      refine ⟨h.state, h.nextState, .inr ?_, h.valid, h.beginString, h.msgType, h.sequence⟩
      rw [low_append]
      exact hdigit
    · rw [if_neg hdigit]
      exact h
  | parseValue =>
    rw [take_parseValue hstate]
    by_cases hbar : iData = 124
    · rw [if_pos hbar]
      exact ⟨h.state, nofun, h.tag, h.valid, h.beginString, h.msgType, h.sequence⟩
    · rw [if_neg hbar]
      exact ⟨h.state, h.nextState, h.tag, h.valid, h.beginString, h.msgType, h.sequence⟩
  | processField =>
    rw [take_processField hstate, decode_of_low h.tag]
    split
    · exact ⟨h.state, nofun, h.tag, h.valid, h.beginString, h.msgType, h.sequence⟩
    · split
      · exact ⟨h.state, nofun, h.tag, h.valid, h.beginString, h.msgType, h.sequence⟩
      · exact ⟨h.state, nofun, h.tag, h.valid, h.beginString, h.msgType, h.sequence⟩
  | msgComplete => exact absurd hstate h.state

theorem quiet_clock (h : Quiet start s) (iValid : Bool) (iData : Byte) :
    Quiet start (s.clock iValid iData) := by
  cases iValid with
  | false => exact quiet_settle h
  | true =>
    have ht := quiet_take h iData
    exact ⟨h.nextState, ht.nextState, ht.tag, ht.valid, ht.beginString, ht.msgType, ht.sequence⟩

end Quiet

/-- **The parser never reports a message.** Whatever is delivered after a
reset and however it is spaced, `o_msg_valid` stays down and the registers for
tags 8, 35 and 34 keep what they held. -/
theorem run_quiet (s : FixParser) (h : s.nextState ≠ .msgComplete) (cycles : List (Bool × Byte)) :
    Quiet { s.out with oMsgValid := false } (clocks clock s.reset cycles) :=
  clocks_invariant (Quiet _) (fun _ v x hs => quiet_clock hs v x) (quiet_reset s h) cycles

end FixParser

end HftEngine.Rtl
