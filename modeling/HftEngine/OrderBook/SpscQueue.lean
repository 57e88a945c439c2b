import HftEngine.Lib.Ring

/-!
# The single-producer single-consumer ring (`spsc_queue.hpp`)

The queue called without overlap, as the order book calls its free list:
`push` and `pop` as state transformers over `head_`, `tail_` and `data_`.
`contents` is the list of elements between the two positions; `push_eq` and
`pop_eq` say that the ring is a first-in first-out list of at most
`Capacity - 1` elements.
-/

namespace HftEngine

open Lib

/-- `SpscQueue<T, Capacity>` with `Capacity = 2^k`, the powers of two being
what the `requires` clause admits.  Both positions lie inside the ring. -/
structure SpscQueue (α : Type) (k : Nat) where
  head : Nat
  tail : Nat
  data : Nat → α
  head_lt : head < 2 ^ k
  tail_lt : tail < 2 ^ k

namespace SpscQueue

variable {α : Type} {k : Nat}

/-- `mask_`. -/
def mask (k : Nat) : Nat := 2 ^ k - 1

theorem and_mask (n k : Nat) : n &&& mask k = n % 2 ^ k := Nat.and_two_pow_sub_one_eq_mod n k

theorem and_mask_lt (n k : Nat) : n &&& mask k < 2 ^ k := by
  rw [and_mask]
  exact Nat.mod_lt _ (Nat.two_pow_pos k)

/-- The constructor; `data_` starts with whatever its memory holds. -/
def new (k : Nat) (data : Nat → α) : SpscQueue α k :=
  ⟨0, 0, data, Nat.two_pow_pos k, Nat.two_pow_pos k⟩

def push (q : SpscQueue α k) (item : α) : Bool × SpscQueue α k :=
  let next := (q.head + 1) &&& mask k
  if next = q.tail then (false, q)
  else (true, { q with
    head := next
    data := Function.update q.data q.head item
    head_lt := and_mask_lt _ k })

def pop (q : SpscQueue α k) : Option α × SpscQueue α k :=
  if q.tail = q.head then (none, q)
  else (some (q.data q.tail), { q with
    tail := (q.tail + 1) &&& mask k
    tail_lt := and_mask_lt _ k })

/-- `empty()`. -/
def empty (q : SpscQueue α k) : Bool := q.head == q.tail

/-- `size()`; the `std::size_t` subtraction wraps before it is masked. -/
def size (q : SpscQueue α k) : Nat := (q.head + 2 ^ 64 - q.tail) % 2 ^ 64 &&& mask k

/-! ## The list in the ring -/

/-- The queued elements, oldest first. -/
def contents (q : SpscQueue α k) : List α :=
  Ring.elems q.data (2 ^ k) q.tail (Ring.used (2 ^ k) q.head q.tail)

theorem length_contents (q : SpscQueue α k) :
    q.contents.length = Ring.used (2 ^ k) q.head q.tail := by
  simp [contents]

theorem length_contents_lt (q : SpscQueue α k) : q.contents.length < 2 ^ k := by
  rw [length_contents]
  exact Ring.used_lt (Nat.two_pow_pos k) _ _

/-- The masked difference of two positions, before which a 64-bit subtraction
may have wrapped, is the number of elements between them. -/
theorem sub_and_mask (hk : k ≤ 64) (head : Nat) {tail : Nat} (htail : tail < 2 ^ k) :
    (head + 2 ^ 64 - tail) % 2 ^ 64 &&& mask k = Ring.used (2 ^ k) head tail := by
  obtain ⟨m, hm⟩ : 2 ^ k ∣ 2 ^ 64 - 2 ^ k := Nat.dvd_sub (Nat.pow_dvd_pow 2 hk) (dvd_refl _)
  have hle : 2 ^ k ≤ 2 ^ 64 := Nat.pow_le_pow_right (by omega) hk
  have hsplit : head + 2 ^ 64 - tail = head + 2 ^ k - tail + 2 ^ k * m := by
    rw [← hm]
    omega
  rw [and_mask, Nat.mod_mod_of_dvd _ (Nat.pow_dvd_pow 2 hk), hsplit, Nat.add_mul_mod_self_left]
  rfl

theorem size_eq (hk : k ≤ 64) (q : SpscQueue α k) : q.size = q.contents.length := by
  rw [length_contents]
  exact sub_and_mask hk q.head q.tail_lt

theorem empty_iff (q : SpscQueue α k) : q.empty = true ↔ q.contents = [] := by
  rw [← List.length_eq_zero_iff, length_contents, Ring.used_eq_zero_iff q.head_lt q.tail_lt, empty,
    beq_iff_eq, eq_comm]

@[simp] theorem contents_new (k : Nat) (data : Nat → α) : (new k data).contents = [] := by
  simp [contents, new, Ring.used]

/-- `push` refuses a ring with `Capacity - 1` elements and appends to any
other. -/
theorem push_eq (q : SpscQueue α k) (item : α) :
    (q.contents.length + 1 = 2 ^ k ∧ q.push item = (false, q)) ∨
    (q.contents.length + 1 < 2 ^ k ∧ (q.push item).1 = true ∧
      (q.push item).2.contents = q.contents ++ [item]) := by
  have hlt := q.length_contents_lt
  have hfull := Ring.next_eq_tail_iff q.head_lt q.tail_lt
  rw [← length_contents] at hfull
  by_cases hnext : (q.head + 1) % 2 ^ k = q.tail
  · refine .inl ⟨hfull.mp hnext, ?_⟩
    simp only [push, and_mask, if_pos hnext]
  · have hroom : q.contents.length + 1 < 2 ^ k := by
      have := fun h => hnext (hfull.mpr h)
      omega
    refine .inr ⟨hroom, ?_, ?_⟩
    · simp only [push, and_mask, if_neg hnext]
    · rw [length_contents] at hroom
      simp only [push, and_mask, if_neg hnext, contents]
      rw [Ring.used_push q.head_lt q.tail_lt hroom]
      -- the cell written is the one after the last element
      have hcell := Ring.elems_push q.data q.tail (Nat.lt_of_succ_lt hroom) item
      rw [Ring.tail_add_used q.head_lt q.tail_lt] at hcell
      exact hcell

/-- `pop` takes the oldest element, and finds nothing only in an empty ring. -/
theorem pop_eq (q : SpscQueue α k) :
    (q.contents = [] ∧ q.pop = (none, q)) ∨
    (∃ item q', q.pop = (some item, q') ∧ q.contents = item :: q'.contents) := by
  have hempty := Ring.used_eq_zero_iff q.head_lt q.tail_lt
  by_cases heq : q.tail = q.head
  · refine .inl ⟨?_, ?_⟩
    · rw [contents, hempty.mpr heq, Ring.elems_zero]
    · simp only [pop, if_pos heq]
  · refine .inr ⟨q.data q.tail, q.pop.2, ?_, ?_⟩
    · simp only [pop, if_neg heq]
    · have hused := Ring.used_pop q.head_lt q.tail_lt (fun h => heq (hempty.mp h))
      simp only [pop, if_neg heq, contents, and_mask]
      rw [hused]
      exact Ring.elems_pop q.data q.tail_lt _

theorem pop_of_nil {q : SpscQueue α k} (h : q.contents = []) : q.pop = (none, q) := by
  obtain ⟨_, hpop⟩ | ⟨_, _, _, hcons⟩ := q.pop_eq
  · exact hpop
  · rw [h] at hcons
    cases hcons

theorem contents_of_pop {q q' : SpscQueue α k} {item : α} (h : q.pop = (some item, q')) :
    q.contents = item :: q'.contents := by
  obtain ⟨_, hnone⟩ | ⟨item', q'', hpop, hcons⟩ := q.pop_eq
  · rw [h] at hnone
    cases hnone
  · rw [h] at hpop
    cases hpop
    exact hcons

theorem pop_of_contents {q : SpscQueue α k} {item : α} {rest : List α}
    (h : q.contents = item :: rest) : ∃ q', q.pop = (some item, q') ∧ q'.contents = rest := by
  obtain ⟨hnil, _⟩ | ⟨item', q', hpop, hcons⟩ := q.pop_eq
  · rw [h] at hnil
    cases hnil
  · rw [h] at hcons
    injection hcons with hitem hrest
    subst hitem
    exact ⟨q', hpop, hrest.symm⟩

/-- Pushing a list of items that fits appends it. -/
theorem contents_foldl_push (items : List α) (q : SpscQueue α k)
    (hroom : q.contents.length + items.length < 2 ^ k) :
    (items.foldl (fun q item => (q.push item).2) q).contents = q.contents ++ items := by
  induction items generalizing q with
  | nil => simp
  | cons item items ih =>
    rw [List.length_cons] at hroom
    obtain ⟨hfull, _⟩ | ⟨_, _, hpush⟩ := q.push_eq item
    · omega
    · rw [List.foldl_cons, ih (q.push item).2 (by simp [hpush]; omega), hpush]
      simp

end SpscQueue

end HftEngine
