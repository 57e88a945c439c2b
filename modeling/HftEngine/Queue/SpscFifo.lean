import HftEngine.Lib.Calls
import HftEngine.OrderBook.SpscQueue

/-!
# The ring is a bounded first-in first-out list

What a queue is for, called without overlap: a list of at most so many
elements, that takes elements at one end and gives them back at the other
(`BoundedFifo`).  A ring of `Capacity` cells is such a list of at most
`Capacity - 1` elements: `call_toFifo` says so of one call, `spsc_refines_fifo`
of every sequence of them.  With a capacity of 1 the list has room for nothing.
-/

namespace HftEngine

open Lib

inductive QueueCall (α : Type) where
  | push (item : α)
  | pop
  | size
  | empty
deriving Repr, DecidableEq

inductive QueueAnswer (α : Type) where
  | pushed (ok : Bool)
  | popped (item : Option α)
  | size (n : Nat)
  | empty (b : Bool)
deriving Repr, DecidableEq

/-! ## The list -/

/-- At most `limit` elements, oldest first. -/
@[ext] structure BoundedFifo (α : Type) (limit : Nat) where
  items : List α
  bounded : items.length ≤ limit

namespace BoundedFifo

variable {α : Type} {limit : Nat}

def new : BoundedFifo α limit := ⟨[], Nat.zero_le _⟩

def push (l : BoundedFifo α limit) (item : α) : Bool × BoundedFifo α limit :=
  if h : l.items.length < limit then (true, ⟨l.items ++ [item], by simpa using h⟩) else (false, l)

def pop (l : BoundedFifo α limit) : Option α × BoundedFifo α limit :=
  (l.items.head?, ⟨l.items.tail, by rw [List.length_tail]; have := l.bounded; omega⟩)

def call (l : BoundedFifo α limit) : QueueCall α → QueueAnswer α × BoundedFifo α limit
  | .push item => (.pushed (l.push item).1, (l.push item).2)
  | .pop => (.popped l.pop.1, l.pop.2)
  | .size => (.size l.items.length, l)
  | .empty => (.empty (l.items.length = 0), l)

end BoundedFifo

/-! ## The ring -/

namespace SpscQueue

variable {α : Type} {k : Nat}

def call (q : SpscQueue α k) : QueueCall α → QueueAnswer α × SpscQueue α k
  | .push item => (.pushed (q.push item).1, (q.push item).2)
  | .pop => (.popped q.pop.1, q.pop.2)
  | .size => (.size q.size, q)
  | .empty => (.empty q.empty, q)

/-- The list in the ring. -/
def toFifo (q : SpscQueue α k) : BoundedFifo α (2 ^ k - 1) :=
  ⟨q.contents, by have := q.length_contents_lt; omega⟩

theorem toFifo_eq_of_contents {q : SpscQueue α k} {l : BoundedFifo α (2 ^ k - 1)}
    (h : q.contents = l.items) : q.toFifo = l :=
  BoundedFifo.ext h

theorem push_toFifo (q : SpscQueue α k) (item : α) :
    q.toFifo.push item = ((q.push item).1, (q.push item).2.toFifo) := by
  have hitems : q.toFifo.items = q.contents := rfl
  rcases q.push_eq item with ⟨hfull, hpush⟩ | ⟨hroom, htrue, hcontents⟩
  · rw [BoundedFifo.push, dif_neg (by rw [hitems]; omega), hpush]
  · rw [BoundedFifo.push, dif_pos (by rw [hitems]; omega), htrue]
    exact Prod.ext rfl (toFifo_eq_of_contents hcontents).symm

theorem pop_toFifo (q : SpscQueue α k) : q.toFifo.pop = (q.pop.1, q.pop.2.toFifo) := by
  have hitems : q.toFifo.items = q.contents := rfl
  rcases q.pop_eq with ⟨hnil, hpop⟩ | ⟨item, q', hpop, hcons⟩
  · rw [hpop]
    refine Prod.ext ?_ (BoundedFifo.ext ?_)
    · show q.toFifo.items.head? = none
      rw [hitems, hnil]
      rfl
    · show q.toFifo.items.tail = q.contents
      rw [hitems, hnil]
      rfl
  · rw [hpop]
    refine Prod.ext ?_ (BoundedFifo.ext ?_)
    · show q.toFifo.items.head? = some item
      rw [hitems, hcons]
      rfl
    · show q.toFifo.items.tail = q'.contents
      rw [hitems, hcons]
      rfl

/-- One call: the ring answers and changes as the list in it. -/
theorem call_toFifo (hk : k < 64) (q : SpscQueue α k) (c : QueueCall α) :
    q.toFifo.call c = ((q.call c).1, (q.call c).2.toFifo) := by
  cases c with
  | push item => simp only [BoundedFifo.call, call, push_toFifo]
  | pop => simp only [BoundedFifo.call, call, pop_toFifo]
  | size =>
    simp only [BoundedFifo.call, call, size_eq hk.le]
    rfl
  | empty =>
    have hempty : decide (q.contents.length = 0) = q.empty := by
      rw [Bool.eq_iff_iff, decide_eq_true_iff, empty_iff, List.length_eq_zero_iff]
    simp only [BoundedFifo.call, call, ← hempty]
    rfl

end SpscQueue

/-- **The ring is a bounded first-in first-out list.** For every capacity that
`std::size_t` has room for, each sequence of calls gets the answers of a list
of at most `Capacity - 1` elements, and leaves that list in the ring; a push is
refused, and then changes nothing, exactly if the list has `Capacity - 1`
elements. -/
theorem spsc_refines_fifo {α : Type} {k : Nat} (hk : k < 64) (data : Nat → α)
    (calls : List (QueueCall α)) :
    let q := after SpscQueue.call (.new k data) calls
    let l := after BoundedFifo.call (.new : BoundedFifo α (2 ^ k - 1)) calls
    replies SpscQueue.call (.new k data) calls =
        replies BoundedFifo.call (.new : BoundedFifo α (2 ^ k - 1)) calls ∧
      q.contents = l.items ∧
      ∀ item, ((q.push item).1 = false ↔ l.items.length = 2 ^ k - 1) ∧
        ((q.push item).1 = false → (q.push item).2 = q) := by
  intro q l
  have hnew : (SpscQueue.new k data).toFifo = .new :=
    SpscQueue.toFifo_eq_of_contents (SpscQueue.contents_new k data)
  have hcall : ∀ (q : SpscQueue α k) (l : BoundedFifo α (2 ^ k - 1)) (c : QueueCall α),
      q.toFifo = l → (q.call c).1 = (l.call c).1 ∧ (q.call c).2.toFifo = (l.call c).2 := by
    rintro q _ c rfl
    rw [SpscQueue.call_toFifo hk]
    exact ⟨rfl, rfl⟩
  obtain ⟨hreplies, hafter⟩ := replies_of_simulation hcall hnew calls
  have hitems : q.contents = l.items := congrArg BoundedFifo.items hafter
  refine ⟨hreplies, hitems, fun item => ?_⟩
  rw [← hitems]
  have hcap := Nat.two_pow_pos k
  rcases q.push_eq item with ⟨hfull, hpush⟩ | ⟨hroom, htrue, _⟩
  · rw [hpush]
    exact ⟨⟨fun _ => by omega, fun _ => rfl⟩, fun _ => rfl⟩
  · rw [htrue]
    exact ⟨⟨nofun, fun hfull => by omega⟩, nofun⟩

/-- A ring of one cell, and one of two cells that is filled, drained and filled
again across its end. -/
theorem spsc_refines_fifo_small :
    replies SpscQueue.call (.new 0 fun _ => 0) [.push 7, .size, .empty, .pop] =
        [.pushed false, .size 0, .empty true, .popped none] ∧
      replies SpscQueue.call (.new 1 fun _ => 0)
          [.push 7, .push 8, .size, .pop, .push 9, .size, .empty, .pop, .pop] =
        [.pushed true, .pushed false, .size 1, .popped (some 7), .pushed true, .size 1,
          .empty false, .popped (some 9), .popped none] :=
  ⟨(spsc_refines_fifo (by omega) _ _).1.trans rfl, (spsc_refines_fifo (by omega) _ _).1.trans rfl⟩

end HftEngine
