import HftEngine.Rtl.FixParser

/-!
# Idle cycles between the bytes

Two schedules for the same bytes.  `state` follows `next_state` one clock late,
so the byte behind one that moves the parser is read in the new state after an
idle cycle and in the old state without one.  Schedules that leave an idle
cycle wherever the parser moves (`Spaced`) all have the same effect; with and
without one, the effects differ.

`schedules_agree_iff` says it of the numbers of idle cycles a source may leave
between its bytes: the outputs depend on its choice exactly if it may leave
none and may leave some.
-/

namespace HftEngine.Rtl

open Lib FixParser

/-- The outputs after a schedule and idle cycles behind it. -/
def outputs (s : FixParser) (ds : List (Delivery Byte)) (trail : List Byte) : Outputs :=
  (clocks clock (deliver clock s ds) (trail.map fun x => (false, x))).out

theorem outputs_eq (s : FixParser) (ds : List (Delivery Byte)) (trail : List Byte) :
    outputs s ds trail = (deliver clock s ds).out := out_idles _ trail

/-- Schedules that leave the parser time wherever it moves agree. -/
theorem outputs_spaced {s : FixParser} {ds ds' : List (Delivery Byte)}
    (hbytes : ds.map (·.byte) = ds'.map (·.byte)) (h : Spaced clock settle s ds)
    (h' : Spaced clock settle s ds') (trail trail' : List Byte) :
    outputs s ds trail = outputs s ds' trail' := by
  rw [outputs_eq, outputs_eq, deliver_spaced settles h, deliver_spaced settles h', hbytes]

/-- Each byte with `gap` idle cycles behind it. -/
def evenly (gap : Nat) (bytes : List Byte) : List (Delivery Byte) :=
  bytes.map fun b => ⟨b, List.replicate gap 0⟩

theorem evenly_bytes (gap : Nat) (bytes : List Byte) :
    (evenly gap bytes).map (·.byte) = bytes := by
  rw [evenly, List.map_map]
  exact List.map_id bytes

theorem evenly_idles {gap : Nat} {bytes : List Byte} {d : Delivery Byte}
    (hd : d ∈ evenly gap bytes) : d.idles.length = gap := by
  obtain ⟨b, _, rfl⟩ := List.mem_map.mp hd
  exact List.length_replicate

/-- `1=X|Y`. -/
def sample : List Byte := [0x31, 0x3d, 0x58, 0x7c, 0x59]

/-- With idle cycles, the field is read and its value taken for a SenderCompID
(the character `'1'` is 49). -/
theorem outputs_sample_spaced {gap : Nat} (hgap : 0 < gap) :
    (outputs (blank.afterReset []) (evenly gap sample) []).oSenderCompId = 0x58 := by
  have hidles : ∀ d ∈ evenly gap sample, d.idles ≠ [] := by
    intro d hd hnil
    have hlen := evenly_idles hd
    rw [hnil, List.length_nil] at hlen
    omega
  rw [outputs_eq, deliver_spaced settles (spaced_of_idles hidles), evenly_bytes]
  rfl

/-- Without, the `=` comes while the parser is still in `IDLE`, and the field
is never read. -/
theorem outputs_sample_dense :
    (outputs (blank.afterReset []) (evenly 0 sample) []).oSenderCompId = 0 := rfl

/-- **When idle cycles do not matter.** A source that may leave the numbers
`gapOk` of idle cycles behind its bytes gets the same outputs for the same
bytes whatever it does, exactly if it never sends bytes back to back or never
does anything else. -/
theorem schedules_agree_iff (gapOk : Nat → Prop) :
    (∀ (s s' : FixParser) (lead lead' : List Byte) (ds ds' : List (Delivery Byte))
        (trail trail' : List Byte), s.nextState = .idle → s'.nextState = .idle → s.out = s'.out →
      ds.map (·.byte) = ds'.map (·.byte) → (∀ d ∈ ds, gapOk d.idles.length) →
      (∀ d ∈ ds', gapOk d.idles.length) →
      outputs (s.afterReset lead) ds trail = outputs (s'.afterReset lead') ds' trail') ↔
    ¬ (gapOk 0 ∧ ∃ gap, 0 < gap ∧ gapOk gap) := by
  constructor
  · rintro hagree ⟨hzero, gap, hgap, hok⟩
    have hsame := hagree blank blank [] [] (evenly 0 sample) (evenly gap sample) [] [] rfl rfl rfl
      (by rw [evenly_bytes, evenly_bytes]) (fun d hd => by rwa [evenly_idles hd])
      (fun d hd => by rwa [evenly_idles hd])
    have hsender := congrArg Outputs.oSenderCompId hsame
    rw [outputs_sample_dense, outputs_sample_spaced hgap] at hsender
    exact absurd hsender (by decide)
  · intro hgaps s s' lead lead' ds ds' trail trail' hs hs' hout hbytes hok hok'
    rw [afterReset_eq hs, afterReset_eq hs', reset_eq (hs.trans hs'.symm) hout]
    by_cases hzero : gapOk 0
    · -- only back to back: the two schedules are the same cycles
      have hnone : ∀ ds : List (Delivery Byte), (∀ d ∈ ds, gapOk d.idles.length) →
          ds = (ds.map (·.byte)).map fun b => ⟨b, []⟩ := by
        intro ds hds
        rw [List.map_map, eq_comm]
        refine (List.map_congr_left fun d hd => ?_).trans (List.map_id ds)
        have hnil : d.idles = [] := by
          by_contra hne
          exact hgaps ⟨hzero, _, List.length_pos_of_ne_nil hne, hds d hd⟩
        show (⟨d.byte, []⟩ : Delivery Byte) = d
        rw [← hnil]
      rw [outputs_eq, outputs_eq, hnone ds hok, hnone ds' hok', hbytes]
    · have hidles : ∀ ds : List (Delivery Byte), (∀ d ∈ ds, gapOk d.idles.length) →
          ∀ d ∈ ds, d.idles ≠ [] := by
        intro ds hds d hd hnil
        have hd' := hds d hd
        rw [hnil] at hd'
        exact hzero hd'
      exact outputs_spaced hbytes (spaced_of_idles (hidles ds hok))
        (spaced_of_idles (hidles ds' hok')) trail trail'

/-- The bytes `1=X|Y` back to back and with one idle cycle behind each. -/
theorem spacing_changes_outputs :
    (evenly 0 sample).map (·.byte) = (evenly 1 sample).map (·.byte) ∧
      outputs (blank.afterReset []) (evenly 0 sample) [] ≠
        outputs (blank.afterReset []) (evenly 1 sample) [] := by
  refine ⟨rfl, fun hsame => ?_⟩
  have hsender := congrArg Outputs.oSenderCompId hsame
  rw [outputs_sample_dense, outputs_sample_spaced Nat.one_pos] at hsender
  exact absurd hsender (by decide)

end HftEngine.Rtl
