import Mathlib.Data.List.Range
import Mathlib.Logic.Function.Basic
import Mathlib.Tactic

/-!
# Ring indexing

The elements of a ring of `cap` cells, read from position `tail` on.  The
ring is a function from positions to elements; only positions below `cap`
are ever used, through `% cap`.
-/

namespace HftEngine.Lib.Ring

variable {α : Type*}

/-- The `len` elements from position `tail` on, oldest first. -/
def elems (data : Nat → α) (cap tail len : Nat) : List α :=
  (List.range len).map fun i => data ((tail + i) % cap)

/-- The number of elements between `tail` and `head`. -/
def used (cap head tail : Nat) : Nat := (head + cap - tail) % cap

@[simp] theorem length_elems (data : Nat → α) (cap tail len : Nat) :
    (elems data cap tail len).length = len := by
  simp [elems]

@[simp] theorem elems_zero (data : Nat → α) (cap tail : Nat) : elems data cap tail 0 = [] := rfl

theorem elems_succ (data : Nat → α) (cap tail len : Nat) :
    elems data cap tail (len + 1) = elems data cap tail len ++ [data ((tail + len) % cap)] := by
  unfold elems
  rw [List.range_succ, List.map_append]
  rfl

/-- The cell after the last element is not one of the elements' cells. -/
theorem cell_ne_end (tail : Nat) {cap len i : Nat} (hlen : len < cap) (hi : i < len) :
    (tail + i) % cap ≠ (tail + len) % cap := by
  intro heq
  have hmod : i ≡ len [MOD cap] := Nat.ModEq.add_left_cancel' tail heq
  have := Nat.ModEq.eq_of_lt_of_lt hmod (by omega) hlen
  omega

/-- Writing the cell after the last element touches no element. -/
theorem elems_write (data : Nat → α) (tail : Nat) {cap len : Nat} (hlen : len < cap) (x : α) :
    elems (Function.update data ((tail + len) % cap) x) cap tail len =
      elems data cap tail len := by
  apply List.map_congr_left
  intro i hi
  rw [List.mem_range] at hi
  rw [Function.update_of_ne (cell_ne_end tail hlen hi)]

/-- Writing the cell after the last element appends to the ring. -/
theorem elems_push (data : Nat → α) (tail : Nat) {cap len : Nat} (hlen : len < cap) (x : α) :
    elems (Function.update data ((tail + len) % cap) x) cap tail (len + 1) =
      elems data cap tail len ++ [x] := by
  rw [elems_succ, elems_write data tail hlen, Function.update_self]

/-- The oldest element of a ring whose positions run on freely. -/
theorem elems_cons (data : Nat → α) (cap tail len : Nat) :
    elems data cap tail (len + 1) = data (tail % cap) :: elems data cap (tail + 1) len := by
  unfold elems
  rw [List.range_succ_eq_map, List.map_cons, List.map_map]
  congr 1
  apply List.map_congr_left
  intro i _
  show data ((tail + (i + 1)) % cap) = data ((tail + 1 + i) % cap)
  rw [Nat.add_assoc, Nat.add_comm 1 i]

/-- Positions count modulo the size of the ring. -/
theorem elems_mod (data : Nat → α) (cap tail len : Nat) :
    elems data cap (tail % cap) len = elems data cap tail len := by
  unfold elems
  apply List.map_congr_left
  intro i _
  rw [Nat.mod_add_mod]

/-- Stepping over the oldest element drops it from the ring. -/
theorem elems_pop (data : Nat → α) {cap tail : Nat} (htail : tail < cap) (len : Nat) :
    elems data cap tail (len + 1) = data tail :: elems data cap ((tail + 1) % cap) len := by
  rw [elems_cons, elems_mod, Nat.mod_eq_of_lt htail]

/-! ## The two ends -/

section Ends

variable {cap head tail : Nat}

theorem used_lt (hcap : 0 < cap) (head tail : Nat) : used cap head tail < cap :=
  Nat.mod_lt _ hcap

/-- `head` is the position after the last element. -/
theorem tail_add_used (hhead : head < cap) (htail : tail < cap) :
    (tail + used cap head tail) % cap = head := by
  unfold used
  rw [Nat.add_mod_mod, show tail + (head + cap - tail) = head + cap by omega,
    Nat.add_mod_right, Nat.mod_eq_of_lt hhead]

theorem used_eq_zero_iff (hhead : head < cap) (htail : tail < cap) :
    used cap head tail = 0 ↔ tail = head := by
  constructor
  · intro h
    have hend := tail_add_used hhead htail
    rw [h, Nat.add_zero, Nat.mod_eq_of_lt htail] at hend
    exact hend
  · intro h
    subst h
    simp [used]

/-- The next `head` meets `tail` exactly when all cells but one are taken. -/
theorem next_eq_tail_iff (hhead : head < cap) (htail : tail < cap) :
    (head + 1) % cap = tail ↔ used cap head tail + 1 = cap := by
  have hlt := used_lt (by omega : 0 < cap) head tail
  have hend := tail_add_used hhead htail
  constructor
  · intro h
    by_contra hne
    have hnext : (tail + (used cap head tail + 1)) % cap = tail := by
      rw [← Nat.add_assoc, Nat.add_mod, hend, Nat.add_mod_mod, h]
    have hmod : used cap head tail + 1 ≡ 0 [MOD cap] := by
      apply Nat.ModEq.add_left_cancel' tail
      show (tail + (used cap head tail + 1)) % cap = (tail + 0) % cap
      rw [hnext, Nat.add_zero, Nat.mod_eq_of_lt htail]
    have := Nat.ModEq.eq_of_lt_of_lt hmod (by omega) (by omega)
    omega
  · intro h
    rw [← hend, Nat.mod_add_mod, Nat.add_assoc, h, Nat.add_mod_right, Nat.mod_eq_of_lt htail]

/-- Below the limit, advancing `head` adds one element. -/
theorem used_push (hhead : head < cap) (htail : tail < cap)
    (hroom : used cap head tail + 1 < cap) :
    used cap ((head + 1) % cap) tail = used cap head tail + 1 := by
  have hnext : (head + 1) % cap < cap := Nat.mod_lt _ (by omega)
  have hmod : used cap ((head + 1) % cap) tail ≡ used cap head tail + 1 [MOD cap] := by
    apply Nat.ModEq.add_left_cancel' tail
    show (tail + used cap ((head + 1) % cap) tail) % cap = (tail + (used cap head tail + 1)) % cap
    rw [tail_add_used hnext htail, ← Nat.add_assoc,
      ← Nat.mod_add_mod (tail + used cap head tail) cap 1, tail_add_used hhead htail]
  exact Nat.ModEq.eq_of_lt_of_lt hmod (used_lt (by omega) _ _) hroom

/-- Advancing `tail` over an element removes one. -/
theorem used_pop (hhead : head < cap) (htail : tail < cap) (hne : used cap head tail ≠ 0) :
    used cap head tail = used cap head ((tail + 1) % cap) + 1 := by
  have hnext : (tail + 1) % cap < cap := Nat.mod_lt _ (by omega)
  have hlt := used_lt (by omega : 0 < cap) head tail
  have hmod : used cap head tail - 1 ≡ used cap head ((tail + 1) % cap) [MOD cap] := by
    apply Nat.ModEq.add_left_cancel' (tail + 1)
    show (tail + 1 + (used cap head tail - 1)) % cap =
      (tail + 1 + used cap head ((tail + 1) % cap)) % cap
    rw [← Nat.mod_add_mod (tail + 1) cap (used cap head ((tail + 1) % cap)),
      tail_add_used hhead hnext,
      show tail + 1 + (used cap head tail - 1) = tail + used cap head tail by omega,
      tail_add_used hhead htail]
  have := Nat.ModEq.eq_of_lt_of_lt hmod (by omega) (used_lt (by omega) _ _)
  omega

end Ends

end HftEngine.Lib.Ring
