import Mathlib.Data.Option.Basic
import Mathlib.Logic.Relation

/-!
# Fuelled loops

A loop body is a function `step : σ → Option σ`: `none` when the guard fails
(or the body breaks), `some s'` when one iteration leads to `s'`.
`loop step fuel s` runs it from `s`; `none` means the fuel ran out, so a loop
that does not end is a loop that answers `none` at every fuel.

The rules below are the ones a proof about a loop needs:

* `loop_mono` — fuel is a resource bound and nothing else;
* `loop_invariant` — what every iteration keeps holds at the exit, where the
  guard fails;
* `loop_diverges` — a set of states that is never left and never exits;
* `loop_simulates` — a view that commutes with the body commutes with the loop.
-/

namespace HftEngine.Lib

variable {σ τ : Type*}

/-- Run the loop body `step` from `s` until it answers `none`, for at most
`fuel` tests of the guard. -/
def loop (step : σ → Option σ) : Nat → σ → Option σ
  | 0, _ => none
  | fuel + 1, s =>
    match step s with
    | none => some s
    | some s' => loop step fuel s'

/-- The states at which the guard is tested. -/
def Reaches (step : σ → Option σ) : σ → σ → Prop :=
  Relation.ReflTransGen fun s s' => step s = some s'

section Rules

variable {step : σ → Option σ}

theorem loop_exit {s : σ} (h : step s = none) (fuel : Nat) :
    loop step (fuel + 1) s = some s := by
  simp only [loop, h]

theorem loop_next {s s' : σ} (h : step s = some s') (fuel : Nat) :
    loop step (fuel + 1) s = loop step fuel s' := by
  simp only [loop, h]

/-- A loop that ended within `fuel` ends in the same state with more fuel. -/
theorem loop_mono {fuel fuel' : Nat} (hle : fuel ≤ fuel') {s r : σ}
    (h : loop step fuel s = some r) : loop step fuel' s = some r := by
  induction fuel generalizing fuel' s with
  | zero => simp [loop] at h
  | succ n ih =>
    obtain ⟨m, rfl⟩ : ∃ m, fuel' = m + 1 := ⟨fuel' - 1, by omega⟩
    cases hs : step s with
    | none =>
      rw [loop_exit hs] at h ⊢
      exact h
    | some s' =>
      rw [loop_next hs] at h ⊢
      exact ih (by omega) h

/-- The result does not depend on the fuel. -/
theorem loop_unique {fuel fuel' : Nat} {s r r' : σ} (h : loop step fuel s = some r)
    (h' : loop step fuel' s = some r') : r = r' := by
  have hmax := loop_mono (Nat.le_max_left fuel fuel') h
  rw [loop_mono (Nat.le_max_right fuel fuel') h'] at hmax
  injection hmax with hmax
  exact hmax.symm

/-- The invariant rule: `inv` holds at the exit, and the guard fails there. -/
theorem loop_invariant {inv : σ → Prop}
    (hstep : ∀ s s', inv s → step s = some s' → inv s')
    {fuel : Nat} {s r : σ} (hs : inv s) (h : loop step fuel s = some r) :
    inv r ∧ step r = none := by
  induction fuel generalizing s with
  | zero => simp [loop] at h
  | succ n ih =>
    cases hn : step s with
    | none =>
      rw [loop_exit hn] at h
      injection h with h
      subst h
      exact ⟨hs, hn⟩
    | some s' =>
      rw [loop_next hn] at h
      exact ih (hstep s s' hs hn) h

/-- The divergence rule: a set of states in which the guard holds and which
no iteration leaves is never left by the loop. -/
theorem loop_diverges (bad : σ → Prop)
    (hstep : ∀ s, bad s → ∃ s', step s = some s' ∧ bad s')
    (fuel : Nat) {s : σ} (hs : bad s) : loop step fuel s = none := by
  induction fuel generalizing s with
  | zero => rfl
  | succ n ih =>
    obtain ⟨s', hn, hbad⟩ := hstep s hs
    rw [loop_next hn]
    exact ih hbad

/-- A loop ends from `s` exactly when it ends from the state one iteration
later. -/
theorem loop_returns_next {s s' : σ} (h : step s = some s') {r : σ} :
    (∃ fuel, loop step fuel s = some r) ↔ ∃ fuel, loop step fuel s' = some r := by
  constructor
  · rintro ⟨fuel, hf⟩
    cases fuel with
    | zero => simp [loop] at hf
    | succ n => exact ⟨n, by rw [← loop_next h]; exact hf⟩
  · rintro ⟨fuel, hf⟩
    exact ⟨fuel + 1, by rw [loop_next h]; exact hf⟩

/-- A loop that ends from `s` ends, in the same state, from each state it gets to. -/
theorem loop_reached {s s' r : σ} (h : Reaches step s s') {fuel : Nat}
    (hr : loop step fuel s = some r) : ∃ fuel', loop step fuel' s' = some r := by
  induction h with
  | refl => exact ⟨fuel, hr⟩
  | tail _ hs ih => exact (loop_returns_next hs).mp ih

end Rules

/-- The simulation rule: if, on the states of an invariant, one iteration
seen through `view` is one iteration of `step'`, then the loop seen through
`view` is the loop of `step'`, at the same fuel. -/
theorem loop_simulates {step : σ → Option σ} {step' : τ → Option τ} (view : σ → τ)
    {inv : σ → Prop} (hinv : ∀ s s', inv s → step s = some s' → inv s')
    (hview : ∀ s, inv s → (step s).map view = step' (view s))
    (fuel : Nat) {s : σ} (hs : inv s) :
    (loop step fuel s).map view = loop step' fuel (view s) := by
  induction fuel generalizing s with
  | zero => rfl
  | succ n ih =>
    have hv := hview s hs
    cases hn : step s with
    | none =>
      rw [hn] at hv
      rw [loop_exit hn, loop_exit hv.symm]
      rfl
    | some s' =>
      rw [hn] at hv
      rw [loop_next hn, loop_next hv.symm]
      exact ih (hinv s s' hs hn)

end HftEngine.Lib
