import Mathlib.Data.Finsupp.Order
import Mathlib.Data.Finsupp.Weight
import Mathlib.Order.Defs.Unbundled

/-!
# Execution by priority

A demand `q` is served from a supply at keys that are ranked by a strict total
order `r`: `r k k'` says that `k` comes before `k'`.  Only keys `within` a limit
may be used.

`ByPriority` says what serving by priority means: nothing is taken beyond the
supply or beyond the limit, a key is touched only when all before it are used
up, and as much is taken as the demand and the supply allow.  This leaves no
choice: `allot` gives each key the smaller of its supply and of what the keys
before it have left of the demand, and whatever is taken by priority is
allotted so (`ByPriority.eq_allot`).

`tally` adds up a list of amounts by key; it is how a list of entries is read
as a supply.
-/

namespace HftEngine.Lib

open Finsupp

variable {κ : Type*}

/-! ## Adding up by key -/

/-- The amounts of a list, added up by key. -/
noncomputable def tally (xs : List (κ × ℕ)) : κ →₀ ℕ := (xs.map fun x => single x.1 x.2).sum

@[simp] theorem tally_nil : tally ([] : List (κ × ℕ)) = 0 := rfl

@[simp] theorem tally_cons (x : κ × ℕ) (xs : List (κ × ℕ)) :
    tally (x :: xs) = single x.1 x.2 + tally xs := rfl

theorem tally_eq_zero {xs : List (κ × ℕ)} {k : κ} (h : ∀ x ∈ xs, x.1 ≠ k) : tally xs k = 0 := by
  induction xs with
  | nil => rfl
  | cons x xs ih =>
    obtain ⟨hx, hxs⟩ := List.forall_mem_cons.mp h
    rw [tally_cons, Finsupp.add_apply, single_eq_of_ne hx.symm, ih hxs]

theorem tally_apply [DecidableEq κ] (xs : List (κ × ℕ)) (k : κ) :
    tally xs k = ((xs.filter fun x => x.1 = k).map Prod.snd).sum := by
  induction xs with
  | nil => rfl
  | cons x xs ih =>
    rw [tally_cons, Finsupp.add_apply, ih, List.filter_cons, single_apply]
    by_cases hx : x.1 = k
    · rw [if_pos hx, if_pos (decide_eq_true hx)]
      rfl
    · rw [if_neg hx, if_neg (by simpa using hx), Nat.zero_add]

theorem degree_filter_tally (kind : κ → Prop) [DecidablePred kind] (xs : List (κ × ℕ)) :
    ((tally xs).filter kind).degree = ((xs.filter fun x => kind x.1).map Prod.snd).sum := by
  induction xs with
  | nil => rw [tally_nil, filter_zero, map_zero]; rfl
  | cons x xs ih =>
    rw [tally_cons, filter_add, map_add, ih, List.filter_cons]
    by_cases hx : kind x.1
    · rw [filter_single_of_pos kind hx, degree_single, if_pos (decide_eq_true hx)]
      rfl
    · rw [filter_single_of_neg kind hx, map_zero, Nat.zero_add, if_neg (by simpa using hx)]

theorem degree_tally (xs : List (κ × ℕ)) : (tally xs).degree = (xs.map Prod.snd).sum := by
  induction xs with
  | nil => rfl
  | cons x xs ih => rw [tally_cons, map_add, degree_single, ih]; rfl

/-! ## Serving by priority -/

variable (r : κ → κ → Prop) [DecidableRel r] (within : κ → Prop) [DecidablePred within]

/-- The demand `q` is served by priority: `taken` of the `supply`. -/
structure ByPriority (q : ℕ) (supply taken : κ →₀ ℕ) : Prop where
  le : ∀ k, taken k ≤ supply k
  limit : ∀ k, taken k ≠ 0 → within k
  first : ∀ k k', r k k' → taken k' ≠ 0 → taken k = supply k
  total : taken.degree = min q (supply.filter within).degree

/-- What is allotted to a key. -/
noncomputable def share (q : ℕ) (supply : κ →₀ ℕ) (k : κ) : ℕ :=
  if within k then min (supply k) (q - (supply.filter fun k' => r k' k).degree) else 0

/-- Each key within the limit serves what the keys before it have left. -/
noncomputable def allot (q : ℕ) (supply : κ →₀ ℕ) : κ →₀ ℕ :=
  onFinset supply.support (share r within q supply) fun k hk => by
    rw [mem_support_iff]
    intro hzero
    rw [share, hzero, Nat.zero_min, ite_self] at hk
    exact hk rfl

variable {r within} {q : ℕ} {supply taken : κ →₀ ℕ}

/-- An amount is what lies before a key, at it and behind it. -/
theorem degree_split [IsStrictTotalOrder κ r] (t : κ →₀ ℕ) (k : κ) :
    (t.filter fun k' => r k' k).degree + t k + (t.filter fun k' => r k k').degree = t.degree := by
  have hsplit : t.filter (fun k' => r k' k) + single k (t k) + t.filter (fun k' => r k k') = t := by
    ext k'
    rw [Finsupp.add_apply, Finsupp.add_apply, filter_apply, filter_apply]
    rcases trichotomous_of r k' k with hlt | rfl | hgt
    · rw [if_pos hlt, if_neg (asymm hlt), single_eq_of_ne (ne_of_irrefl hlt)]
      omega
    · rw [if_neg (irrefl k'), single_eq_same]
      omega
    · rw [if_pos hgt, if_neg (asymm hgt), single_eq_of_ne (ne_of_irrefl' hgt)]
      omega
  conv_rhs => rw [← hsplit]
  rw [map_add, map_add, degree_single]

theorem filter_mono {s t : κ →₀ ℕ} (h : s ≤ t) (kind : κ → Prop) [DecidablePred kind] :
    s.filter kind ≤ t.filter kind := by
  intro k
  rw [filter_apply, filter_apply]
  split
  · exact h k
  · exact le_rfl

namespace ByPriority

variable (h : ByPriority r within q supply taken)
include h

/-- A key that is not used up has nothing taken behind it. -/
theorem behind_eq_zero {k : κ} (hlt : taken k < supply k) :
    (taken.filter fun k' => r k k').degree = 0 := by
  rw [degree_eq_zero_iff, filter_eq_zero_iff]
  intro k' hk'
  by_contra hne
  exact hlt.ne (h.first k k' hk' hne)

/-- The keys before one that is touched are used up. -/
theorem before_eq {k : κ} (hne : taken k ≠ 0) :
    taken.filter (fun k' => r k' k) = supply.filter fun k' => r k' k := by
  ext k'
  rw [filter_apply, filter_apply]
  split
  next hk' => exact h.first k' k hk' hne
  next => rfl

variable [IsStrictTotalOrder κ r]

/-- A key within the limit that is not used up leaves no demand. -/
theorem served {k : κ} (hk : within k) (hlt : taken k < supply k) : taken.degree = q := by
  have htotal := h.total
  have hall : taken ≤ supply.filter within := by
    have hfilter := filter_mono (fun k => h.le k) within
    rwa [(filter_eq_self_iff _ _).mpr h.limit] at hfilter
  have hmore : taken.degree < (supply.filter within).degree := by
    have hsupply := degree_split (r := r) (supply.filter within) k
    have htaken := degree_split (r := r) taken k
    have hbefore := degree_mono (filter_mono hall fun k' => r k' k)
    have hbehind := degree_mono (filter_mono hall fun k' => r k k')
    rw [filter_apply, if_pos hk] at hsupply
    omega
  omega

/-- Serving by priority leaves no choice. -/
theorem eq_allot : taken = allot r within q supply := by
  ext k
  show taken k = share r within q supply k
  unfold share
  split
  next hk =>
    have hle := h.le k
    have hsplit := degree_split (r := r) taken k
    have hbefore := degree_mono (filter_mono (fun k => h.le k : taken ≤ supply) fun k' => r k' k)
    have htotal := h.total
    by_cases hlt : taken k < supply k
    · -- the demand ends here
      have hserved := h.served hk hlt
      rw [h.behind_eq_zero hlt] at hsplit
      by_cases hne : taken k = 0
      · omega
      · rw [h.before_eq hne] at hsplit
        omega
    · by_cases hne : taken k = 0
      · omega
      · rw [h.before_eq hne] at hsplit
        omega
  next hk =>
    by_contra hne
    exact hk (h.limit k hne)

end ByPriority

end HftEngine.Lib
