import HftEngine.Rtl.Decode

/-!
# The hardware parser under any input

`Rtl.Decode` is about messages with idle cycles between their bytes.  Here the
input is arbitrary, and then that of a source that heeds `o_ready`.

* `run_writes_once` — after a reset, `o_msg_valid` never rises, and of the five
  fields one at most is ever written: a tag comes out right only while its high
  byte is still that of the reset, and the first digit of the second tag ends
  that.
* `handshake_deadlocks` — a source that presents a byte only when `o_ready` is
  up never sees a field written.  `o_ready` is down from the second cycle behind
  the first digit on, and only a further byte could bring it up again.
-/

namespace HftEngine.Rtl

open Lib

namespace FixParser

variable {s : FixParser}

/-! ## One write at most -/

/-- What a run can have written: nothing; the field of the tag that is still
there; or one of two fields, the tag being replaced or past use.  Once a field
is written `next_state` is not `PARSE_TAG` before the next digit in `IDLE`, so
that a tag replaced in `PARSE_TAG` is not decoded. -/
inductive Written (start : Outputs) (s : FixParser) : Prop
  | none : s.out.oSenderCompId = start.oSenderCompId →
      s.out.oTargetCompId = start.oTargetCompId → Written start s
  | once : s.nextState ≠ .parseTag → (s.state = .parseTag → s.nextState = .idle) →
      (s.currentTag = 49 ∧ s.out.oTargetCompId = start.oTargetCompId ∨
        s.currentTag = 56 ∧ s.out.oSenderCompId = start.oSenderCompId) → Written start s
  | replaced : s.state = .idle → s.nextState = .idle →
      isDigit (s.currentTag.setWidth 8) = true →
      (s.out.oTargetCompId = start.oTargetCompId ∨ s.out.oSenderCompId = start.oSenderCompId) →
      Written start s
  | past : isDigit (s.currentTag.setWidth 8) = true →
      isDigit (s.currentTag.extractLsb 15 8) = true →
      (s.out.oTargetCompId = start.oTargetCompId ∨ s.out.oSenderCompId = start.oSenderCompId) →
      Written start s

section Written

variable {start : Outputs}

theorem clock_true (s : FixParser) (b : Byte) :
    s.clock true b = { s.take b with state := s.nextState } := rfl

/-- Only `PROCESS_FIELD` writes a field. -/
theorem out_take (hprocess : s.state ≠ .processField) (hcomplete : s.state ≠ .msgComplete)
    (b : Byte) : (s.take b).out = s.out := by
  cases hstate : s.state with
  | idle =>
    rw [take_idle hstate]
    split <;> rfl
  | parseTag =>
    rw [take_parseTag hstate]
    split
    · rfl
    · split <;> rfl
  | parseValue =>
    rw [take_parseValue hstate]
    split <;> rfl
  | processField => exact absurd hstate hprocess
  | msgComplete => exact absurd hstate hcomplete

theorem written_settle (h : Written start s) : Written start s.settle := by
  cases h with
  | none hsender htarget => exact .none hsender htarget
  | once hnext _ htag => exact .once hnext (fun hstate => absurd hstate hnext) htag
  | replaced _ hnext hlow hout => exact .replaced hnext hnext hlow hout
  | past hlow hhigh hout => exact .past hlow hhigh hout

/-- A byte before anything is written. -/
theorem written_none (hquiet : Quiet start s)
    (hsender : s.out.oSenderCompId = start.oSenderCompId)
    (htarget : s.out.oTargetCompId = start.oTargetCompId) (b : Byte) :
    Written start (s.clock true b) := by
  by_cases hstate : s.state = .processField
  · rw [clock_true, take_processField hstate, decode_of_low hquiet.tag]
    split
    · rename_i htag
      exact .once nofun (fun _ => rfl) (.inl ⟨htag, htarget⟩)
    · split
      · rename_i htag
        exact .once nofun (fun _ => rfl) (.inr ⟨htag, hsender⟩)
      · exact .none hsender htarget
  · have hout : (s.clock true b).out = s.out := out_take hstate hquiet.state b
    refine .none ?_ ?_
    · rw [hout, hsender]
    · rw [hout, htarget]

/-- The first digit of the next tag pushes the last one up. -/
theorem past_of_digit (hstate : s.state = .idle)
    (hlow : isDigit (s.currentTag.setWidth 8) = true) {b : Byte} (hdigit : isDigit b = true)
    (hout : s.out.oTargetCompId = start.oTargetCompId ∨
      s.out.oSenderCompId = start.oSenderCompId) : Written start (s.clock true b) := by
  obtain ⟨hlow', hhigh'⟩ := isDigit_append hlow hdigit
  rw [clock_true, take_idle hstate, if_pos hdigit]
  exact .past hlow' hhigh' hout

/-- A byte while the tag is still there. -/
theorem written_once (hquiet : Quiet start s) (hnext : s.nextState ≠ .parseTag)
    (htagState : s.state = .parseTag → s.nextState = .idle)
    (htag : s.currentTag = 49 ∧ s.out.oTargetCompId = start.oTargetCompId ∨
      s.currentTag = 56 ∧ s.out.oSenderCompId = start.oSenderCompId) (b : Byte) :
    Written start (s.clock true b) := by
  have hkept : s.nextState = .parseTag → s.nextState = .idle := fun hstate => absurd hstate hnext
  have hout := htag.imp And.right And.right
  cases hstate : s.state with
  | idle =>
    by_cases hdigit : isDigit b = true
    · have hlow : isDigit (s.currentTag.setWidth 8) = true := by
        rcases htag with ⟨htag, _⟩ | ⟨htag, _⟩ <;> rw [htag] <;> rfl
      exact past_of_digit hstate hlow hdigit hout
    · rw [clock_true, take_idle hstate, if_neg hdigit]
      exact .once hnext hkept htag
  | parseTag =>
    have hidle := htagState hstate
    rw [clock_true, take_parseTag hstate]
    split
    · exact .once nofun (fun hs => absurd hs hnext) htag
    · split
      · -- the tag is replaced, and nothing is on its way to `PROCESS_FIELD`
        rename_i hdigit
        refine .replaced hidle hidle ?_ hout
        rw [low_append]
        exact hdigit
      · exact .once hnext hkept htag
  | parseValue =>
    rw [clock_true, take_parseValue hstate]
    split
    · exact .once nofun (fun hs => absurd hs hnext) htag
    · exact .once hnext hkept htag
  | processField =>
    -- the field is written once more
    rw [clock_true, take_processField hstate]
    refine .once nofun (fun _ => rfl) ?_
    rcases htag with ⟨htag, htarget⟩ | ⟨htag, hsender⟩
    · refine .inl ⟨htag, ?_⟩
      rw [htag]
      exact htarget
    · refine .inr ⟨htag, ?_⟩
      rw [htag]
      exact hsender
  | msgComplete => exact absurd hstate hquiet.state

/-- A byte when the tag is replaced. -/
theorem written_replaced (hstate : s.state = .idle) (hnext : s.nextState = .idle)
    (hlow : isDigit (s.currentTag.setWidth 8) = true)
    (hout : s.out.oTargetCompId = start.oTargetCompId ∨
      s.out.oSenderCompId = start.oSenderCompId) (b : Byte) :
    Written start (s.clock true b) := by
  by_cases hdigit : isDigit b = true
  · exact past_of_digit hstate hlow hdigit hout
  · rw [clock_true, take_idle hstate, if_neg hdigit]
    exact .replaced hnext hnext hlow hout

/-- A byte when the tag is past use. -/
theorem written_past (hquiet : Quiet start s) (hlow : isDigit (s.currentTag.setWidth 8) = true)
    (hhigh : isDigit (s.currentTag.extractLsb 15 8) = true)
    (hout : s.out.oTargetCompId = start.oTargetCompId ∨
      s.out.oSenderCompId = start.oSenderCompId) (b : Byte) :
    Written start (s.clock true b) := by
  rw [clock_true]
  cases hstate : s.state with
  | idle =>
    by_cases hdigit : isDigit b = true
    · exact past_of_digit hstate hlow hdigit hout
    · rw [take_idle hstate, if_neg hdigit]
      exact .past hlow hhigh hout
  | parseTag =>
    rw [take_parseTag hstate]
    split
    · exact .past hlow hhigh hout
    · split
      · rename_i hdigit
        obtain ⟨hlow', hhigh'⟩ := isDigit_append hhigh hdigit
        exact .past hlow' hhigh' hout
      · exact .past hlow hhigh hout
  | parseValue =>
    rw [take_parseValue hstate]
    split
    · exact .past hlow hhigh hout
    · exact .past hlow hhigh hout
  | processField =>
    rw [take_processField hstate, decode_of_high hhigh]
    exact .past hlow hhigh hout
  | msgComplete => exact absurd hstate hquiet.state

theorem written_clock (hquiet : Quiet start s) (h : Written start s) (iValid : Bool)
    (iData : Byte) : Written start (s.clock iValid iData) := by
  cases iValid with
  | false => exact written_settle h
  | true =>
    cases h with
    | none hsender htarget => exact written_none hquiet hsender htarget iData
    | once hnext hstate htag => exact written_once hquiet hnext hstate htag iData
    | replaced hstate hnext hlow hout => exact written_replaced hstate hnext hlow hout iData
    | past hlow hhigh hout => exact written_past hquiet hlow hhigh hout iData

theorem written_run (hnext : s.nextState ≠ .msgComplete) (cycles : List (Bool × Byte)) :
    Written { s.out with oMsgValid := false } (clocks clock s.reset cycles) := by
  have hreset : Quiet { s.out with oMsgValid := false } s.reset ∧
      Written { s.out with oMsgValid := false } s.reset :=
    ⟨quiet_reset s hnext, .none rfl rfl⟩
  have hrun := clocks_invariant
    (fun s' => Quiet { s.out with oMsgValid := false } s' ∧
      Written { s.out with oMsgValid := false } s')
    (fun s' v x h => ⟨quiet_clock h.1 v x, written_clock h.1 h.2 v x⟩) hreset cycles
  exact hrun.2

end Written

/-- **One output at most is ever written.** Whatever is delivered after a reset
and however it is spaced, `o_msg_valid` stays down, the registers for tags 8, 35
and 34 keep what they held, and so does one of the two for tags 49 and 56.  The
reset leaves `next_state` alone and may come inside a field; nothing but a
power-up makes `next_state` `MSG_COMPLETE`. -/
theorem run_writes_once (s : FixParser) (hnext : s.nextState ≠ .msgComplete)
    (cycles : List (Bool × Byte)) :
    let out := (clocks clock s.reset cycles).out
    out.oMsgValid = false ∧ out.oBeginString = s.out.oBeginString ∧
      out.oMsgType = s.out.oMsgType ∧ out.oSequence = s.out.oSequence ∧
      (out.oSenderCompId = s.out.oSenderCompId ∨ out.oTargetCompId = s.out.oTargetCompId) := by
  have hquiet := run_quiet s hnext cycles
  refine ⟨hquiet.valid, hquiet.beginString, hquiet.msgType, hquiet.sequence, ?_⟩
  cases written_run hnext cycles with
  | none hsender _ => exact .inl hsender
  | once _ _ htag => exact (htag.imp And.right And.right).symm
  | replaced _ _ _ hout => exact hout.symm
  | past _ _ hout => exact hout.symm

/-- A parser that a reset meets inside a tag. -/
def insideTag : FixParser := { blank with nextState := .parseTag, currentTag := 0x35 }

/-- A byte that is lost, a field with tag 1 and one with tag 8 behind it, an
idle cycle after each byte. -/
def twoFields : List (Bool × Byte) :=
  [0x20, 0x31, 0x3d, 0x41, 0x7c, 0x20, 0x38, 0x3d, 0x42, 0x7c, 0x20].flatMap
    fun b => [(true, b), (false, 0)]

/-- The first of them is taken for a sender, the second for nothing. -/
theorem run_writes_once_two_fields :
    (clocks clock insideTag.reset twoFields).out.oSenderCompId = 0x41 ∧
      (clocks clock insideTag.reset twoFields).out.oMsgValid = false ∧
      (clocks clock insideTag.reset twoFields).out.oTargetCompId = blank.out.oTargetCompId := by
  obtain ⟨hvalid, _, _, _, hone⟩ := run_writes_once insideTag nofun twoFields
  have hsender : (clocks clock insideTag.reset twoFields).out.oSenderCompId = 0x41 := by decide
  refine ⟨hsender, hvalid, hone.resolve_left ?_⟩
  rw [hsender]
  decide

/-! ## A source that heeds `o_ready` -/

/-- A byte is presented only in cycles in which `o_ready` is up. -/
def Obeys : FixParser → List (Bool × Byte) → Prop
  | _, [] => True
  | s, (iValid, iData) :: cycles =>
    (iValid = true → s.oReady = true) ∧ Obeys (s.clock iValid iData) cycles

/-- In `IDLE`, in the cycle in which it is left, and from then on. -/
inductive Stalls (s : FixParser) : Prop
  | waiting : s.state = .idle → s.nextState = .idle → Stalls s
  | leaving : s.state = .idle → s.nextState ≠ .idle → Stalls s
  | stuck : s.state ≠ .idle → s.nextState ≠ .idle → Stalls s

theorem oReady_iff : s.oReady = true ↔ s.state = .idle := by
  simp only [oReady, beq_iff_eq]

theorem stalls_reset (s : FixParser) : Stalls s.reset := by
  by_cases hnext : s.nextState = .idle
  · exact .waiting rfl hnext
  · exact .leaving rfl hnext

theorem stalls_clock (h : Stalls s) {iValid : Bool} (hready : iValid = true → s.oReady = true)
    (iData : Byte) : Stalls (s.clock iValid iData) := by
  cases iValid with
  | false =>
    cases h with
    | waiting _ hnext => exact .waiting hnext hnext
    | leaving _ hnext => exact .stuck hnext hnext
    | stuck _ hnext => exact .stuck hnext hnext
  | true =>
    have hstate := oReady_iff.mp (hready rfl)
    rw [clock_true, take_idle hstate]
    cases h with
    | waiting _ hnext =>
      split
      · exact .leaving hnext nofun
      · exact .waiting hnext hnext
    | leaving _ hnext =>
      split
      · exact .stuck hnext nofun
      · exact .stuck hnext hnext
    | stuck hstuck _ => exact absurd hstate hstuck

theorem stalls_run (h : Stalls s) {cycles : List (Bool × Byte)} (hobeys : Obeys s cycles) :
    Stalls (clocks clock s cycles) ∧ (clocks clock s cycles).out = s.out := by
  induction cycles generalizing s with
  | nil => exact ⟨h, rfl⟩
  | cons c cycles ih =>
    obtain ⟨hready, hobeys⟩ := hobeys
    obtain ⟨hrun, hout⟩ := ih (stalls_clock h hready c.2) hobeys
    refine ⟨hrun, hout.trans ?_⟩
    cases hvalid : c.1 with
    | false => rfl
    | true =>
      have hstate := oReady_iff.mp (hready hvalid)
      refine out_take ?_ ?_ c.2 <;> rw [hstate] <;> exact nofun

/-- Stuck for good: nothing more is presented. -/
theorem stuck_run (hstate : s.state ≠ .idle) (hnext : s.nextState ≠ .idle)
    {cycles : List (Bool × Byte)} (hobeys : Obeys s cycles) :
    (∀ c ∈ cycles, c.1 = false) ∧ (clocks clock s cycles).oReady = false := by
  have hready : s.oReady = false := by
    rw [Bool.eq_false_iff, ne_eq, oReady_iff]
    exact hstate
  induction cycles generalizing s with
  | nil => exact ⟨nofun, hready⟩
  | cons c cycles ih =>
    obtain ⟨hpresent, hobeys⟩ := hobeys
    have hvalid : c.1 = false := by
      rw [Bool.eq_false_iff]
      intro htrue
      rw [hready] at hpresent
      exact Bool.false_ne_true (hpresent htrue)
    rw [hvalid] at hobeys
    have hsettled : (s.clock false c.2).state ≠ .idle := hnext
    have hready' : (s.clock false c.2).oReady = false := by
      rw [Bool.eq_false_iff, ne_eq, oReady_iff]
      exact hsettled
    obtain ⟨hrest, hend⟩ := ih hsettled hnext hobeys hready'
    refine ⟨?_, ?_⟩
    · intro c' hc'
      rcases List.mem_cons.mp hc' with rfl | hc'
      · exact hvalid
      · exact hrest c' hc'
    · show (clocks clock (s.clock c.1 c.2) cycles).oReady = false
      rw [hvalid]
      exact hend

theorem obeys_append {before after : List (Bool × Byte)} (h : Obeys s (before ++ after)) :
    Obeys s before ∧ Obeys (clocks clock s before) after := by
  induction before generalizing s with
  | nil => exact ⟨trivial, h⟩
  | cons c before ih =>
    obtain ⟨hready, hrest⟩ := h
    obtain ⟨hbefore, hafter⟩ := ih hrest
    exact ⟨⟨hready, hbefore⟩, hafter⟩

/-- A digit is taken: in the next cycle one more byte can be, then none. -/
theorem stuck_after_digit (h : Stalls s) {d : Byte} (hdigit : isDigit d = true)
    {after : List (Bool × Byte)} (hobeys : Obeys s ((true, d) :: after)) :
    (∀ c ∈ after.tail, c.1 = false) ∧
      (after ≠ [] → (clocks clock s ((true, d) :: after)).oReady = false) := by
  obtain ⟨hready, hobeys⟩ := hobeys
  have hstate := oReady_iff.mp (hready rfl)
  have hnext : (s.clock true d).nextState = .parseTag := by
    rw [clock_true, take_idle hstate, if_pos hdigit]
  cases after with
  | nil => exact ⟨nofun, fun hne => absurd rfl hne⟩
  | cons c after =>
    obtain ⟨hready', hobeys'⟩ := hobeys
    have hstalls := stalls_clock (stalls_clock h hready d) hready' c.2
    have hstate' : ((s.clock true d).clock c.1 c.2).state ≠ .idle := by
      show (s.clock true d).nextState ≠ .idle
      rw [hnext]
      exact nofun
    have hnext' : ((s.clock true d).clock c.1 c.2).nextState ≠ .idle := by
      cases hstalls with
      | waiting hidle _ | leaving hidle _ => exact absurd hidle hstate'
      | stuck _ hstuck => exact hstuck
    obtain ⟨hquiet, hend⟩ := stuck_run hstate' hnext' hobeys'
    exact ⟨hquiet, fun _ => hend⟩

/-- **The handshake deadlocks.** After a reset, whatever it finds in
`next_state`, a source that heeds `o_ready` never sees an output change; behind
the first digit it can deliver one more byte, in the very next cycle, and
`o_ready` then stays down for good. -/
theorem handshake_deadlocks (s : FixParser) (cycles : List (Bool × Byte))
    (hobeys : Obeys s.reset cycles) :
    (clocks clock s.reset cycles).out = { s.out with oMsgValid := false } ∧
    ∀ before d after, cycles = before ++ (true, d) :: after → isDigit d = true →
      (∀ c ∈ after.tail, c.1 = false) ∧
        (after ≠ [] → (clocks clock s.reset cycles).oReady = false) := by
  have hreset := stalls_reset s
  refine ⟨(stalls_run hreset hobeys).2, ?_⟩
  rintro before d after rfl hdigit
  obtain ⟨hbefore, hafter⟩ := obeys_append hobeys
  rw [clocks_append]
  exact stuck_after_digit (stalls_run hreset hbefore).1 hdigit hafter

/-- The first bytes of a message, and two more cycles. -/
theorem handshake_deadlocks_first_tag :
    Obeys blank.reset [(true, 0x38), (true, 0x3d), (false, 0x46), (false, 0x46)] ∧
      (clocks clock blank.reset [(true, 0x38), (true, 0x3d), (false, 0x46), (false, 0x46)]).oReady
        = false := by
  have hobeys :
      Obeys blank.reset [(true, 0x38), (true, 0x3d), (false, 0x46), (false, 0x46)] := by
    refine ⟨fun _ => rfl, fun _ => rfl, ?_, ?_, trivial⟩
    · intro h
      cases h
    · intro h
      cases h
  exact ⟨hobeys, ((handshake_deadlocks blank _ hobeys).2 [] 0x38 _ rfl rfl).2 nofun⟩

end FixParser

end HftEngine.Rtl
