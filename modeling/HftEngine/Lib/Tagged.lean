import Mathlib.Data.List.Basic
import Mathlib.Data.List.Induction

/-!
# Tagged updates

A list of values, each under a tag, is applied to a state from left to right.
Where every component of the state belongs to some tags, and an update either
replaces it or leaves it, the component at the end is the latest replacement
among the values under its tags (`foldl_latest`): it depends on these values
and on nothing else.
-/

namespace HftEngine.Lib

variable {κ ν β σ : Type*}

/-- The values under the tags of a kind, in their order. -/
def under (kind : κ → Bool) (l : List (κ × ν)) : List ν :=
  (l.filter fun x => kind x.1).map Prod.snd

/-- What the last of the values that `read` accepts reads as. -/
def latest (read : ν → Option β) (vs : List ν) : Option β := (vs.filterMap read).getLast?

theorem under_append (kind : κ → Bool) (l l' : List (κ × ν)) :
    under kind (l ++ l') = under kind l ++ under kind l' := by
  simp [under]

theorem under_singleton (kind : κ → Bool) (x : κ × ν) :
    under kind [x] = if kind x.1 then [x.2] else [] := by
  cases h : kind x.1 <;> simp [under, h]

theorem latest_append (read : ν → Option β) (vs ws : List ν) :
    latest read (vs ++ ws) = (latest read ws).or (latest read vs) := by
  rw [latest, List.filterMap_append, List.getLast?_append]
  rfl

theorem latest_singleton (read : ν → Option β) (v : ν) : latest read [v] = read v := by
  unfold latest
  cases h : read v with
  | none => simp [h]
  | some b => simp [h]

/-- Kinds that agree on the tags of a list select the same values. -/
theorem under_congr {kind kind' : κ → Bool} {l : List (κ × ν)}
    (h : ∀ x ∈ l, kind x.1 = kind' x.1) : under kind l = under kind' l := by
  unfold under
  rw [List.filter_congr h]

/-- A component that every update replaces or leaves. -/
theorem foldl_latest {step : σ → κ × ν → σ} (component : σ → β) (kind : κ → Bool)
    (read : ν → Option β)
    (h : ∀ s x, component (step s x) =
      if kind x.1 then (read x.2).getD (component s) else component s)
    (l : List (κ × ν)) (s : σ) :
    component (l.foldl step s) = (latest read (under kind l)).getD (component s) := by
  induction l using List.reverseRecOn with
  | nil => rfl
  | append_singleton l x ih =>
    rw [List.foldl_append, List.foldl_cons, List.foldl_nil, h, under_append, under_singleton, ih]
    cases kind x.1 with
    | false => simp
    | true =>
      simp only [if_true]
      rw [latest_append, latest_singleton]
      cases read x.2 <;> simp

end HftEngine.Lib
