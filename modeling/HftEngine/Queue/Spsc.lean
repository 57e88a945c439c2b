import HftEngine.Lib.Fifo
import HftEngine.Lib.Trace
import HftEngine.OrderBook.SpscQueue

/-!
# The single-producer single-consumer ring, step by step (`spsc_queue.hpp`)

`push` and `pop` running at the same time.  Each load or store of `head_` and
`tail_` and each access to `data_` is one step, of the producer or of the
consumer, and steps of the two come in any order.  Between its steps a thread
knows only what it has loaded: the index of the other side that it tests may be
out of date by the time it acts on the test.

`size` and `empty` may be called by either thread between its other calls;
the two loads of `empty` are the operands of one `==` and come in either order.

What a step lets an observer see is an `Event`.  A `push` that succeeds is
seen at its store to `head_`, a `pop` that succeeds at its store to `tail_`,
which are the last steps before they return.
-/

namespace HftEngine

open Lib

namespace SpscQueue

variable {α : Type} {k : Nat}

/-- `data_[slot] = item`. -/
def write (q : SpscQueue α k) (slot : Nat) (item : α) : SpscQueue α k :=
  { q with data := Function.update q.data slot item }

/-- `head_.store((head + 1) & mask_)`. -/
def storeHead (q : SpscQueue α k) (head : Nat) : SpscQueue α k :=
  { q with head := (head + 1) &&& mask k, head_lt := and_mask_lt _ k }

/-- `tail_.store((tail + 1) & mask_)`. -/
def storeTail (q : SpscQueue α k) (tail : Nat) : SpscQueue α k :=
  { q with tail := (tail + 1) &&& mask k, tail_lt := and_mask_lt _ k }

end SpscQueue

namespace Spsc

variable {α : Type} {k : Nat}

inductive Thread where
  | producer
  | consumer
deriving Repr, DecidableEq

/-- A call of `size` or `empty` after its first load. -/
inductive Asking where
  | sizeHead (head : Nat)
  | emptyHead (head : Nat)
  | emptyTail (tail : Nat)
deriving Repr, DecidableEq

/-- Where the producer stands, and its local variables. -/
inductive Producer (α : Type) where
  | idle
  | headLoaded (item : α) (head : Nat)
  | roomFound (item : α) (head : Nat)
  | itemWritten (item : α) (head : Nat)
  | asking (a : Asking)
deriving Repr, DecidableEq

/-- Where the consumer stands, and its local variables. -/
inductive Consumer (α : Type) where
  | idle
  | tailLoaded (tail : Nat)
  | itemFound (tail : Nat)
  | itemRead (tail : Nat) (item : α)
  | asking (a : Asking)
deriving Repr, DecidableEq

structure State (α : Type) (k : Nat) where
  queue : SpscQueue α k
  producer : Producer α
  consumer : Consumer α

/-- The constructor; no call has been made. -/
def State.new (k : Nat) (data : Nat → α) : State α k := ⟨.new k data, .idle, .idle⟩

/-- A thread begins a call with its first load, or takes the next step of the
call it is in. -/
inductive Act (α : Type) where
  | push (item : α)
  | pop
  | size (thread : Thread)
  | empty (thread : Thread) (tailFirst : Bool)
  | next (thread : Thread)
deriving Repr, DecidableEq

inductive Event (α : Type) where
  | wrote (slot : Nat) (item : α)
  | pushed (slot : Nat) (item : α)
  | refused (item : α)
  | popped (slot : Nat) (item : α)
  | missed
  | asked (thread : Thread)
  | sized (thread : Thread) (n : Nat)
  | emptied (thread : Thread) (answer : Bool)
deriving Repr, DecidableEq

/-- The second load of `size` or `empty`, and the answer. -/
def answer (q : SpscQueue α k) (thread : Thread) : Asking → Event α
  | .sizeHead head =>
    .sized thread ((head + 2 ^ 64 - q.tail) % 2 ^ 64 &&& SpscQueue.mask k)
  | .emptyHead head => .emptied thread (head == q.tail)
  | .emptyTail tail => .emptied thread (q.head == tail)

namespace State

/-- The next step of the producer. -/
def produce (s : State α k) : Option (State α k × Option (Event α)) :=
  match s.producer with
  | .idle => none
  | .headLoaded item head =>
    if (head + 1) &&& SpscQueue.mask k = s.queue.tail then
      some ({ s with producer := .idle }, some (.refused item))
    else some ({ s with producer := .roomFound item head }, none)
  | .roomFound item head =>
    some ({ s with queue := s.queue.write head item, producer := .itemWritten item head },
      some (.wrote head item))
  | .itemWritten item head =>
    some ({ s with queue := s.queue.storeHead head, producer := .idle },
      some (.pushed head item))
  | .asking a => some ({ s with producer := .idle }, some (answer s.queue .producer a))

/-- The next step of the consumer. -/
def consume (s : State α k) : Option (State α k × Option (Event α)) :=
  match s.consumer with
  | .idle => none
  | .tailLoaded tail =>
    if tail = s.queue.head then some ({ s with consumer := .idle }, some .missed)
    else some ({ s with consumer := .itemFound tail }, none)
  | .itemFound tail => some ({ s with consumer := .itemRead tail (s.queue.data tail) }, none)
  | .itemRead tail item =>
    some ({ s with queue := s.queue.storeTail tail, consumer := .idle },
      some (.popped tail item))
  | .asking a => some ({ s with consumer := .idle }, some (answer s.queue .consumer a))

/-- The first load of `size` or `empty`, by a thread that is in no call. -/
def ask (s : State α k) (thread : Thread) (a : Asking) :
    Option (State α k × Option (Event α)) :=
  match thread, s.producer, s.consumer with
  | .producer, .idle, _ => some ({ s with producer := .asking a }, some (.asked .producer))
  | .consumer, _, .idle => some ({ s with consumer := .asking a }, some (.asked .consumer))
  | _, _, _ => none

def step (s : State α k) : Act α → Option (State α k × Option (Event α))
  | .push item =>
    match s.producer with
    | .idle => some ({ s with producer := .headLoaded item s.queue.head }, none)
    | _ => none
  | .pop =>
    match s.consumer with
    | .idle => some ({ s with consumer := .tailLoaded s.queue.tail }, none)
    | _ => none
  | .size thread => s.ask thread (.sizeHead s.queue.head)
  | .empty thread tailFirst =>
    s.ask thread (if tailFirst then .emptyTail s.queue.tail else .emptyHead s.queue.head)
  | .next .producer => s.produce
  | .next .consumer => s.consume

end State

/-! ## What one step can do -/

/-- What a call knows after its first load, made of `q`. -/
def Asking.LoadedFrom (q : SpscQueue α k) : Asking → Prop
  | .sizeHead head => head = q.head
  | .emptyHead head => head = q.head
  | .emptyTail tail => tail = q.tail

inductive Stepped (s : State α k) : Option (Event α) → State α k → Prop
  | push (item : α) : s.producer = .idle →
      Stepped s none { s with producer := .headLoaded item s.queue.head }
  | refused {item : α} {head : Nat} : s.producer = .headLoaded item head →
      (head + 1) &&& SpscQueue.mask k = s.queue.tail →
      Stepped s (some (.refused item)) { s with producer := .idle }
  | roomFound {item : α} {head : Nat} : s.producer = .headLoaded item head →
      (head + 1) &&& SpscQueue.mask k ≠ s.queue.tail →
      Stepped s none { s with producer := .roomFound item head }
  | wrote {item : α} {head : Nat} : s.producer = .roomFound item head →
      Stepped s (some (.wrote head item))
        { s with queue := s.queue.write head item, producer := .itemWritten item head }
  | pushed {item : α} {head : Nat} : s.producer = .itemWritten item head →
      Stepped s (some (.pushed head item))
        { s with queue := s.queue.storeHead head, producer := .idle }
  | pop : s.consumer = .idle → Stepped s none { s with consumer := .tailLoaded s.queue.tail }
  | missed {tail : Nat} : s.consumer = .tailLoaded tail → tail = s.queue.head →
      Stepped s (some .missed) { s with consumer := .idle }
  | itemFound {tail : Nat} : s.consumer = .tailLoaded tail → tail ≠ s.queue.head →
      Stepped s none { s with consumer := .itemFound tail }
  | itemRead {tail : Nat} : s.consumer = .itemFound tail →
      Stepped s none { s with consumer := .itemRead tail (s.queue.data tail) }
  | popped {tail : Nat} {item : α} : s.consumer = .itemRead tail item →
      Stepped s (some (.popped tail item))
        { s with queue := s.queue.storeTail tail, consumer := .idle }
  | producerAsked {a : Asking} : s.producer = .idle → a.LoadedFrom s.queue →
      Stepped s (some (.asked .producer)) { s with producer := .asking a }
  | consumerAsked {a : Asking} : s.consumer = .idle → a.LoadedFrom s.queue →
      Stepped s (some (.asked .consumer)) { s with consumer := .asking a }
  | producerAnswered {a : Asking} : s.producer = .asking a →
      Stepped s (some (answer s.queue .producer a)) { s with producer := .idle }
  | consumerAnswered {a : Asking} : s.consumer = .asking a →
      Stepped s (some (answer s.queue .consumer a)) { s with consumer := .idle }

section Steps

variable {s s' : State α k} {o : Option (Event α)}

theorem produce_stepped (hs : s.produce = some (s', o)) : Stepped s o s' := by
  unfold State.produce at hs
  cases hpc : s.producer with
  | idle =>
    rw [hpc] at hs
    cases hs
  | headLoaded item head =>
    rw [hpc] at hs
    simp only at hs
    split at hs
    · rename_i hfull
      cases hs
      exact .refused hpc hfull
    · rename_i hroom
      cases hs
      exact .roomFound hpc hroom
  | roomFound item head =>
    rw [hpc] at hs
    cases hs
    exact .wrote hpc
  | itemWritten item head =>
    rw [hpc] at hs
    cases hs
    exact .pushed hpc
  | asking a =>
    rw [hpc] at hs
    cases hs
    exact .producerAnswered hpc

theorem consume_stepped (hs : s.consume = some (s', o)) : Stepped s o s' := by
  unfold State.consume at hs
  cases hpc : s.consumer with
  | idle =>
    rw [hpc] at hs
    cases hs
  | tailLoaded tail =>
    rw [hpc] at hs
    simp only at hs
    split at hs
    · rename_i hempty
      cases hs
      exact .missed hpc hempty
    · rename_i hitem
      cases hs
      exact .itemFound hpc hitem
  | itemFound tail =>
    rw [hpc] at hs
    cases hs
    exact .itemRead hpc
  | itemRead tail item =>
    rw [hpc] at hs
    cases hs
    exact .popped hpc
  | asking a =>
    rw [hpc] at hs
    cases hs
    exact .consumerAnswered hpc

theorem ask_stepped {thread : Thread} {a : Asking} (hload : a.LoadedFrom s.queue)
    (hs : s.ask thread a = some (s', o)) : Stepped s o s' := by
  unfold State.ask at hs
  split at hs
  · rename_i hpc
    cases hs
    exact .producerAsked hpc hload
  · rename_i hpc
    cases hs
    exact .consumerAsked hpc hload
  · cases hs

/-- The inversion lemma of a step. -/
theorem step_stepped {act : Act α} (hs : s.step act = some (s', o)) : Stepped s o s' := by
  cases act with
  | push item =>
    simp only [State.step] at hs
    split at hs
    · rename_i hpc
      cases hs
      exact .push item hpc
    · cases hs
  | pop =>
    simp only [State.step] at hs
    split at hs
    · rename_i hpc
      cases hs
      exact .pop hpc
    · cases hs
  | size thread => exact ask_stepped (a := .sizeHead s.queue.head) rfl hs
  | empty thread tailFirst =>
    refine ask_stepped ?_ hs
    cases tailFirst <;> rfl
  | next thread =>
    cases thread with
    | producer => exact produce_stepped hs
    | consumer => exact consume_stepped hs

end Steps

end Spsc

/-! ## The list in the ring, with its slots -/

namespace SpscQueue

variable {α : Type} {k : Nat}

/-- The queued elements and the slots they lie in, oldest first. -/
def slotted (q : SpscQueue α k) : List (Nat × α) :=
  Ring.elems (fun slot => (slot, q.data slot)) (2 ^ k) q.tail (Ring.used (2 ^ k) q.head q.tail)

theorem slotted_new (k : Nat) (data : Nat → α) : (new k data).slotted = [] := by
  simp [slotted, new, Ring.used]

theorem length_slotted (q : SpscQueue α k) :
    q.slotted.length = Ring.used (2 ^ k) q.head q.tail := by
  simp [slotted]

theorem length_slotted_lt (q : SpscQueue α k) : q.slotted.length < 2 ^ k := by
  rw [length_slotted]
  exact Ring.used_lt (Nat.two_pow_pos k) _ _

/-- The slot the producer writes next is not in use. -/
theorem head_not_mem_slotted (q : SpscQueue α k) (item : α) : (q.head, item) ∉ q.slotted := by
  intro hmem
  obtain ⟨i, hi, heq⟩ := List.mem_map.mp hmem
  injection heq with hslot _
  have hne := Ring.cell_ne_end q.tail (Ring.used_lt (Nat.two_pow_pos k) q.head q.tail)
    (List.mem_range.mp hi)
  rw [Ring.tail_add_used q.head_lt q.tail_lt] at hne
  exact hne hslot

/-- The test of `push`, made on the indices as they are. -/
theorem room_iff (q : SpscQueue α k) :
    (q.head + 1) &&& mask k ≠ q.tail ↔ q.slotted.length + 1 < 2 ^ k := by
  have hlt := q.length_slotted_lt
  rw [and_mask, ne_eq, Ring.next_eq_tail_iff q.head_lt q.tail_lt, ← length_slotted]
  omega

/-- The test of `pop`, made on the indices as they are. -/
theorem slotted_eq_nil_iff (q : SpscQueue α k) : q.slotted = [] ↔ q.tail = q.head := by
  rw [← List.length_eq_zero_iff, length_slotted, Ring.used_eq_zero_iff q.head_lt q.tail_lt]

theorem slotted_write (q : SpscQueue α k) (item : α) :
    (q.write q.head item).slotted = q.slotted := by
  have hcell : (fun slot => (slot, Function.update q.data q.head item slot)) =
      Function.update (fun slot => (slot, q.data slot)) q.head (q.head, item) := by
    funext slot
    by_cases hslot : slot = q.head
    · subst hslot
      simp
    · simp [hslot]
  have hwrite := Ring.elems_write (fun slot => (slot, q.data slot)) q.tail
    (Ring.used_lt (Nat.two_pow_pos k) q.head q.tail) (q.head, item)
  rw [Ring.tail_add_used q.head_lt q.tail_lt, ← hcell] at hwrite
  exact hwrite

theorem slotted_storeHead {q : SpscQueue α k} (hroom : q.slotted.length + 1 < 2 ^ k) :
    (q.storeHead q.head).slotted = q.slotted ++ [(q.head, q.data q.head)] := by
  rw [length_slotted] at hroom
  have hsucc := Ring.elems_succ (fun slot => (slot, q.data slot)) (2 ^ k) q.tail
    (Ring.used (2 ^ k) q.head q.tail)
  rw [Ring.tail_add_used q.head_lt q.tail_lt] at hsucc
  simp only [slotted, storeHead, and_mask]
  rw [Ring.used_push q.head_lt q.tail_lt hroom, hsucc]

theorem slotted_storeTail {q : SpscQueue α k} (hne : q.slotted ≠ []) :
    q.slotted = (q.tail, q.data q.tail) :: (q.storeTail q.tail).slotted := by
  have hused : Ring.used (2 ^ k) q.head q.tail ≠ 0 := by
    rw [← length_slotted]
    exact fun h => hne (List.length_eq_zero_iff.mp h)
  simp only [slotted, storeTail, and_mask]
  rw [Ring.used_pop q.head_lt q.tail_lt hused]
  exact Ring.elems_pop (fun slot => (slot, q.data slot)) q.tail_lt _

end SpscQueue

end HftEngine
