import Mathlib.Data.List.Basic

/-!
# First-in first-out logs

What a queue is for, seen from its log: elements are put in at one end and
taken out at the other.  `Fifo log q` says that the log is one of a queue that
started empty and now holds `q`, oldest element first.  A queue is first-in
first-out when what is observed of it is such a log.

* `Fifo.puts_eq` — what was put in is what was taken out and what is left, in
  that order;
* `Fifo.takes_prefix` — nothing is lost, doubled or reordered;
* `Fifo.taken_since` — an element that is no longer there was taken out after
  it was put in.
-/

namespace HftEngine.Lib

variable {α : Type*}

inductive FifoEvent (α : Type*) where
  | put (x : α)
  | take (x : α)
deriving Repr, DecidableEq

/-- The element put in, if the event is of that kind. -/
@[simp] def FifoEvent.put? : FifoEvent α → Option α
  | .put x => some x
  | .take _ => none

/-- The element taken out, if the event is of that kind. -/
@[simp] def FifoEvent.take? : FifoEvent α → Option α
  | .put _ => none
  | .take x => some x

inductive Fifo : List (FifoEvent α) → List α → Prop
  | nil : Fifo [] []
  | put {log : List (FifoEvent α)} {q : List α} (x : α) :
      Fifo log q → Fifo (log ++ [.put x]) (q ++ [x])
  | take {log : List (FifoEvent α)} {q : List α} {x : α} :
      Fifo log (x :: q) → Fifo (log ++ [.take x]) q

namespace Fifo

/-- The elements put in, oldest first. -/
def puts (log : List (FifoEvent α)) : List α := log.filterMap FifoEvent.put?

/-- The elements taken out, oldest first. -/
def takes (log : List (FifoEvent α)) : List α := log.filterMap FifoEvent.take?

variable {log : List (FifoEvent α)} {q : List α}

theorem puts_eq (h : Fifo log q) : puts log = takes log ++ q := by
  induction h with
  | nil => rfl
  | put x _ ih =>
    unfold puts takes at ih ⊢
    simp [ih]
  | take _ ih =>
    unfold puts takes at ih ⊢
    simp [ih]

theorem takes_prefix (h : Fifo log q) : takes log <+: puts log := by
  rw [h.puts_eq]
  exact List.prefix_append _ _

/-- A log cut in two: the queue held something in between. -/
theorem of_append {before after : List (FifoEvent α)} (h : Fifo (before ++ after) q) :
    ∃ q', Fifo before q' := by
  generalize hlog : before ++ after = log at h
  induction h generalizing after with
  | nil => exact ⟨[], by rw [(List.append_eq_nil_iff.mp hlog).1]; exact .nil⟩
  | @put log q x hq ih =>
    rcases List.eq_nil_or_concat after with rfl | ⟨after, last, rfl⟩
    · rw [List.append_nil] at hlog
      exact ⟨_, hlog ▸ hq.put x⟩
    · rw [List.concat_eq_append, ← List.append_assoc] at hlog
      exact ih (List.append_inj' hlog rfl).1
  | @take log q x hq ih =>
    rcases List.eq_nil_or_concat after with rfl | ⟨after, last, rfl⟩
    · rw [List.append_nil] at hlog
      exact ⟨_, hlog ▸ hq.take⟩
    · rw [List.concat_eq_append, ← List.append_assoc] at hlog
      exact ih (List.append_inj' hlog rfl).1

theorem mem_takes {x : α} (h : x ∈ takes log) : .take x ∈ log := by
  obtain ⟨e, he, hx⟩ := List.mem_filterMap.mp h
  cases e with
  | put y => cases hx
  | take y =>
    injection hx with hx
    rwa [← hx]

theorem taken_since {before mid : List (FifoEvent α)} {x : α}
    (h : Fifo (before ++ .put x :: mid) q) (hx : x ∉ q) : .take x ∈ mid := by
  obtain ⟨q', hbefore⟩ := of_append h
  have hold := hbefore.puts_eq
  have hnew := h.puts_eq
  apply mem_takes
  -- the takes of `mid` are what was left then, `x`, and so on, as far as they go
  have hcut : q' ++ x :: puts mid = takes mid ++ q := by
    simp only [puts, takes, List.filterMap_append, FifoEvent.put?, FifoEvent.take?,
      List.filterMap_cons] at hold hnew ⊢
    rw [hold, List.append_assoc, List.append_assoc] at hnew
    exact List.append_cancel_left hnew
  rcases List.append_eq_append_iff.mp hcut with ⟨mid', htakes, hq⟩ | ⟨mid', _, hq⟩
  · cases mid' with
    | nil =>
      rw [List.nil_append] at hq
      exact absurd (hq ▸ List.mem_cons_self) hx
    | cons y mid' =>
      injection hq with hy _
      rw [htakes, hy]
      simp
  · exact absurd (by rw [hq]; simp) hx

end Fifo

end HftEngine.Lib
