import Mathlib.Data.List.Basic
import Mathlib.Data.List.Nodup

/-!
# Neighbours in a list

`Adjacent l a b`: somewhere in `l`, `b` comes right after `a`.  In a list
without repetitions every element but the last has one successor, and the
last has none.  These are the facts an invariant about a linked list needs:
the list of its nodes, whose neighbours the links are to join.
-/

namespace HftEngine.Lib

variable {α : Type*} {l : List α} {a b c x : α}

def Adjacent : List α → α → α → Prop
  | [], _, _ => False
  | x :: l, a, b => (x = a ∧ l.head? = some b) ∨ Adjacent l a b

theorem adjacent_cons_cons {y : α} (l : List α) :
    Adjacent (x :: y :: l) a b ↔ (x = a ∧ y = b) ∨ Adjacent (y :: l) a b := by
  simp [Adjacent]

/-- An element put at the end follows the one that was last. -/
theorem adjacent_concat (l : List α) :
    Adjacent (l ++ [x]) a b ↔ Adjacent l a b ∨ (l.getLast? = some a ∧ x = b) := by
  induction l with
  | nil => simp [Adjacent]
  | cons y l ih =>
    cases l with
    | nil => simp [Adjacent]
    | cons z l =>
      rw [List.cons_append, List.cons_append, adjacent_cons_cons, adjacent_cons_cons,
        ← List.cons_append, ih, List.getLast?_cons_cons, or_assoc]

theorem Adjacent.left_mem (h : Adjacent l a b) : a ∈ l := by
  induction l with
  | nil => exact h.elim
  | cons x l ih =>
    rcases h with ⟨rfl, _⟩ | h
    · exact List.mem_cons_self
    · exact List.mem_cons_of_mem _ (ih h)

theorem Adjacent.right_mem_tail (h : Adjacent l a b) : b ∈ l.tail := by
  induction l with
  | nil => exact h.elim
  | cons x l ih =>
    rcases h with ⟨rfl, hhead⟩ | h
    · exact List.mem_of_mem_head? hhead
    · exact List.mem_of_mem_tail (ih h)

theorem Adjacent.right_mem (h : Adjacent l a b) : b ∈ l := List.mem_of_mem_tail h.right_mem_tail

/-- An element has a successor, or it is the last. -/
theorem adjacent_or_last (h : a ∈ l) : (∃ b, Adjacent l a b) ∨ l.getLast? = some a := by
  induction l with
  | nil => cases h
  | cons x l ih =>
    cases l with
    | nil =>
      rw [List.mem_singleton] at h
      exact .inr (by rw [h]; rfl)
    | cons y l =>
      rcases List.mem_cons.mp h with rfl | h
      · exact .inl ⟨y, .inl ⟨rfl, rfl⟩⟩
      · rcases ih h with ⟨b, hb⟩ | hlast
        · exact .inl ⟨b, .inr hb⟩
        · exact .inr (by rw [List.getLast?_cons_cons]; exact hlast)

theorem Adjacent.unique (hl : l.Nodup) (h : Adjacent l a b) (h' : Adjacent l a c) : b = c := by
  induction l with
  | nil => exact h.elim
  | cons x l ih =>
    obtain ⟨hx, hl⟩ := List.nodup_cons.mp hl
    rcases h with ⟨rfl, hb⟩ | h
    · rcases h' with ⟨_, hc⟩ | h'
      · rw [hb] at hc
        injection hc
      · exact absurd h'.left_mem hx
    · rcases h' with ⟨rfl, _⟩ | h'
      · exact absurd h.left_mem hx
      · exact ih hl h h'

theorem Adjacent.unique_left (hl : l.Nodup) (h : Adjacent l a c) (h' : Adjacent l b c) :
    a = b := by
  induction l with
  | nil => exact h.elim
  | cons x l ih =>
    obtain ⟨_, hl⟩ := List.nodup_cons.mp hl
    -- the first of `l` is the successor of nothing in `l`
    have hfirst : ∀ d, l.head? = some c → ¬ Adjacent l d c := by
      intro d hhead hadj
      cases l with
      | nil => exact hadj.elim
      | cons y l =>
        injection hhead with hyc
        exact (List.nodup_cons.mp hl).1 (hyc ▸ hadj.right_mem_tail)
    rcases h with ⟨rfl, hhead⟩ | h
    · rcases h' with ⟨rfl, _⟩ | h'
      · rfl
      · exact absurd h' (hfirst b hhead)
    · rcases h' with ⟨rfl, hhead⟩ | h'
      · exact absurd h (hfirst a hhead)
      · exact ih hl h h'

/-- The last element has no successor. -/
theorem Adjacent.ne_last (hl : l.Nodup) (h : Adjacent l a b) : l.getLast? ≠ some a := by
  induction l with
  | nil => exact h.elim
  | cons x l ih =>
    obtain ⟨hx, hl⟩ := List.nodup_cons.mp hl
    cases l with
    | nil =>
      rcases h with ⟨_, hhead⟩ | h
      · cases hhead
      · exact h.elim
    | cons y l =>
      rw [List.getLast?_cons_cons]
      rcases h with ⟨rfl, _⟩ | h
      · exact fun hlast => hx (List.mem_of_getLast? hlast)
      · exact ih hl h

end HftEngine.Lib
