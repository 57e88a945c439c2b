import Mathlib.Data.Nat.Basic
import Mathlib.Data.List.Basic

/-!
# Taking from the front of a queue

`drain stop q xs` takes `q` units off the front of a queue of keyed amounts:
entries that are used up leave, an entry with a key at which to `stop` and all
behind it are left alone.

Draining is an action of the additive monoid of amounts on queues
(`drain_zero`, `drain_add`): taking `a` and then `c` is taking `a + c`,
wherever the first of the two stopped.
-/

namespace HftEngine.Lib

variable {κ : Type*}

def drain (stop : κ → Bool) : Nat → List (κ × Nat) → List (κ × Nat)
  | 0, xs => xs
  | _ + 1, [] => []
  | q + 1, (k, v) :: xs =>
    if stop k then (k, v) :: xs
    else if q + 1 < v then (k, v - (q + 1)) :: xs
    else drain stop (q + 1 - v) xs

section Rules

variable {stop : κ → Bool} {q v : Nat} {k : κ}

theorem drain_zero (xs : List (κ × Nat)) : drain stop 0 xs = xs := by
  unfold drain
  rfl

theorem drain_nil (q : Nat) : drain stop q ([] : List (κ × Nat)) = [] := by
  cases q <;> simp [drain]

theorem drain_stop (q v : Nat) (xs : List (κ × Nat)) (hk : stop k = true) :
    drain stop q ((k, v) :: xs) = (k, v) :: xs := by
  cases q <;> simp [drain, hk]

/-- The front entry is more than enough. -/
theorem drain_within (xs : List (κ × Nat)) (hk : stop k = false) (hq : q < v) :
    drain stop q ((k, v) :: xs) = (k, v - q) :: xs := by
  cases q with
  | zero => exact drain_zero _
  | succ q => simp [drain, hk, hq]

/-- The front entry is used up. -/
theorem drain_whole (xs : List (κ × Nat)) (hk : stop k = false) (hpos : q ≠ 0) (hq : v ≤ q) :
    drain stop q ((k, v) :: xs) = drain stop (q - v) xs := by
  obtain ⟨q, rfl⟩ := Nat.exists_eq_succ_of_ne_zero hpos
  have hle : ¬ q + 1 < v := by omega
  simp [drain, hk, hle]

theorem drain_add (a c : Nat) (xs : List (κ × Nat)) :
    drain stop (a + c) xs = drain stop c (drain stop a xs) := by
  induction xs generalizing a with
  | nil => simp only [drain_nil]
  | cons x xs ih =>
    obtain ⟨k, v⟩ := x
    cases hk : stop k with
    | true => simp only [drain_stop _ _ _ hk]
    | false =>
      by_cases ha : a = 0
      · rw [ha, Nat.zero_add, drain_zero]
      by_cases hpart : a < v
      · -- the first amount ends inside the front entry
        rw [drain_within xs hk hpart]
        by_cases hsum : a + c < v
        · rw [drain_within xs hk hsum, drain_within xs hk (by omega), Nat.sub_add_eq]
        · have hrest : a + c - v = c - (v - a) := by omega
          rw [drain_whole xs hk (by omega) (by omega), drain_whole xs hk (by omega) (by omega),
            hrest]
      · have hrest : a + c - v = a - v + c := by omega
        rw [drain_whole xs hk ha (by omega), drain_whole xs hk (by omega) (by omega), hrest, ih]

/-- No entry grows. -/
theorem drain_lt {bound : Nat} {xs : List (κ × Nat)} (h : ∀ x ∈ xs, x.2 < bound) :
    ∀ x ∈ drain stop q xs, x.2 < bound := by
  induction xs generalizing q with
  | nil =>
    rw [drain_nil]
    exact h
  | cons x xs ih =>
    obtain ⟨k, v⟩ := x
    obtain ⟨hhead, hrest⟩ := List.forall_mem_cons.mp h
    have hhead : v < bound := hhead
    cases hk : stop k with
    | true =>
      rw [drain_stop _ _ _ hk]
      exact h
    | false =>
      by_cases hzero : q = 0
      · rw [hzero, drain_zero]
        exact h
      by_cases hpart : q < v
      · rw [drain_within xs hk hpart]
        exact List.forall_mem_cons.mpr ⟨by omega, hrest⟩
      · rw [drain_whole xs hk hzero (by omega)]
        exact ih hrest

end Rules

end HftEngine.Lib
