import HftEngine.Lib.ReleaseAcquire
import HftEngine.Lib.Trace
import HftEngine.OrderBook.SpscQueue
import HftEngine.Queue.Spsc

/-!
# The single-producer single-consumer ring with its memory orders

`push` and `pop` of `spsc_queue.hpp` on release/acquire memory: `head_` and
`tail_` are atomic locations, the slots of `data_` are plain cells.  A thread
loads its own index relaxed and the other's with acquire, and may read any store
of it that is not older than what it knows of; it publishes with a release
store.

`size` and `empty` store nothing and may be called by either thread; what they
add are two acquire loads, which may come at any time between the calls
(`Act.peek`).

A thread knows its own position in the stream of items and a position that the
other has passed.  The ring's room is measured against what is known, not
against what is true, and this suffices: `Inv` is kept by every step, and

* `ordered_write`, `ordered_read` — no access to a slot is a data race;
* `spsc_weak_fifo` — pops return the pushed items in order.
-/

namespace HftEngine

inductive SpscWeak.Index where
  | head
  | tail
deriving Repr, DecidableEq

namespace Spsc.Thread

/-- The index a thread stores to. -/
def own : Thread → SpscWeak.Index
  | .producer => .head
  | .consumer => .tail

def other : Thread → Thread
  | .producer => .consumer
  | .consumer => .producer

end Spsc.Thread

namespace SpscWeak

open Lib

open Spsc (Thread)

variable {α : Type} {k : ℕ}

abbrev Mem (α : Type) := Memory Thread Index ℕ ℕ α

inductive Producer (α : Type) where
  | idle
  | headLoaded (item : α) (head : ℕ)
  | roomFound (item : α) (head : ℕ)
  | itemWritten (item : α) (head : ℕ)

inductive Consumer (α : Type) where
  | idle
  | tailLoaded (tail : ℕ)
  | itemFound (tail : ℕ)
  | itemRead (tail : ℕ) (item : α)

structure State (α : Type) where
  mem : Mem α
  producer : Producer α
  consumer : Consumer α

/-- The constructor; both indices are 0. -/
def State.new (data : ℕ → α) : State α := ⟨.new (fun _ => 0) data, .idle, .idle⟩

/-- A thread begins a call, or takes the next step of the call it is in, or
loads an index in `size` or `empty`.  A load reads store number `i`. -/
inductive Act (α : Type) where
  | push (item : α) (i : ℕ)
  | pop (i : ℕ)
  | next (thread : Thread) (i : ℕ)
  | peek (thread : Thread) (index : Index) (i : ℕ)

inductive Event (α : Type) where
  | pushed (item : α)
  | refused (item : α)
  | popped (item : α)
  | missed
deriving Repr, DecidableEq

namespace State

/-- The next step of the producer. -/
def produce (k : ℕ) (s : State α) (i : ℕ) : Option (State α × Option (Event α)) :=
  match s.producer with
  | .idle => none
  | .headLoaded item head => do
    let (tail, mem) ← s.mem.acquire .producer .tail i
    if (head + 1) &&& SpscQueue.mask k = tail then
      some ({ s with mem := mem, producer := .idle }, some (.refused item))
    else some ({ s with mem := mem, producer := .roomFound item head }, none)
  | .roomFound item head =>
    some ({ s with
      mem := s.mem.write .producer head item
      producer := .itemWritten item head }, none)
  | .itemWritten item head =>
    some ({ s with
      mem := s.mem.release .producer .head ((head + 1) &&& SpscQueue.mask k)
      producer := .idle }, some (.pushed item))

/-- The next step of the consumer. -/
def consume (k : ℕ) (s : State α) (i : ℕ) : Option (State α × Option (Event α)) :=
  match s.consumer with
  | .idle => none
  | .tailLoaded tail => do
    let (head, mem) ← s.mem.acquire .consumer .head i
    if tail = head then some ({ s with mem := mem, consumer := .idle }, some .missed)
    else some ({ s with mem := mem, consumer := .itemFound tail }, none)
  | .itemFound tail =>
    let (item, mem) := s.mem.read .consumer tail
    some ({ s with mem := mem, consumer := .itemRead tail item }, none)
  | .itemRead tail item =>
    some ({ s with
      mem := s.mem.release .consumer .tail ((tail + 1) &&& SpscQueue.mask k)
      consumer := .idle }, some (.popped item))

/-- The thread is in no call of `push` or `pop`. -/
def Idle (s : State α) : Thread → Bool
  | .producer => match s.producer with | .idle => true | _ => false
  | .consumer => match s.consumer with | .idle => true | _ => false

def step (k : ℕ) (s : State α) : Act α → Option (State α × Option (Event α))
  | .push item i =>
    match s.producer with
    | .idle => do
      let (head, mem) ← s.mem.relaxed .producer .head i
      some ({ s with mem := mem, producer := .headLoaded item head }, none)
    | _ => none
  | .pop i =>
    match s.consumer with
    | .idle => do
      let (tail, mem) ← s.mem.relaxed .consumer .tail i
      some ({ s with mem := mem, consumer := .tailLoaded tail }, none)
    | _ => none
  | .next .producer i => s.produce k i
  | .next .consumer i => s.consume k i
  | .peek thread index i =>
    if s.Idle thread then do
      let (_, mem) ← s.mem.acquire thread index i
      some ({ s with mem := mem }, none)
    else none

end State

/-! ## What one step can do -/

inductive Stepped (k : ℕ) (s : State α) : Option (Event α) → State α → Prop
  | push {item : α} {i head : ℕ} {mem : Mem α} : s.producer = .idle →
      s.mem.relaxed .producer .head i = some (head, mem) →
      Stepped k s none { s with mem := mem, producer := .headLoaded item head }
  | refused {item : α} {i head tail : ℕ} {mem : Mem α} : s.producer = .headLoaded item head →
      s.mem.acquire .producer .tail i = some (tail, mem) →
      (head + 1) &&& SpscQueue.mask k = tail →
      Stepped k s (some (.refused item)) { s with mem := mem, producer := .idle }
  | roomFound {item : α} {i head tail : ℕ} {mem : Mem α} : s.producer = .headLoaded item head →
      s.mem.acquire .producer .tail i = some (tail, mem) →
      (head + 1) &&& SpscQueue.mask k ≠ tail →
      Stepped k s none { s with mem := mem, producer := .roomFound item head }
  | wrote {item : α} {head : ℕ} : s.producer = .roomFound item head →
      Stepped k s none { s with
        mem := s.mem.write .producer head item
        producer := .itemWritten item head }
  | pushed {item : α} {head : ℕ} : s.producer = .itemWritten item head →
      Stepped k s (some (.pushed item)) { s with
        mem := s.mem.release .producer .head ((head + 1) &&& SpscQueue.mask k)
        producer := .idle }
  | pop {i tail : ℕ} {mem : Mem α} : s.consumer = .idle →
      s.mem.relaxed .consumer .tail i = some (tail, mem) →
      Stepped k s none { s with mem := mem, consumer := .tailLoaded tail }
  | missed {i head tail : ℕ} {mem : Mem α} : s.consumer = .tailLoaded tail →
      s.mem.acquire .consumer .head i = some (head, mem) → tail = head →
      Stepped k s (some .missed) { s with mem := mem, consumer := .idle }
  | itemFound {i head tail : ℕ} {mem : Mem α} : s.consumer = .tailLoaded tail →
      s.mem.acquire .consumer .head i = some (head, mem) → tail ≠ head →
      Stepped k s none { s with mem := mem, consumer := .itemFound tail }
  | itemRead {tail : ℕ} : s.consumer = .itemFound tail →
      Stepped k s none { s with
        mem := s.mem.touch .consumer tail false
        consumer := .itemRead tail (s.mem.cells tail) }
  | popped {tail : ℕ} {item : α} : s.consumer = .itemRead tail item →
      Stepped k s (some (.popped item)) { s with
        mem := s.mem.release .consumer .tail ((tail + 1) &&& SpscQueue.mask k)
        consumer := .idle }
  | peek {thread : Thread} {index : Index} {i value : ℕ} {mem : Mem α} : s.Idle thread = true →
      s.mem.acquire thread index i = some (value, mem) → Stepped k s none { s with mem := mem }

section Steps

variable {s s' : State α} {o : Option (Event α)}

theorem produce_stepped {i : ℕ} (hs : s.produce k i = some (s', o)) : Stepped k s o s' := by
  unfold State.produce at hs
  cases hpc : s.producer with
  | idle =>
    rw [hpc] at hs
    cases hs
  | headLoaded item head =>
    rw [hpc] at hs
    obtain ⟨⟨tail, mem⟩, hload, hs⟩ := Option.bind_eq_some_iff.mp hs
    simp only at hs
    split at hs
    · rename_i hfull
      cases hs
      exact .refused hpc hload hfull
    · rename_i hroom
      cases hs
      exact .roomFound hpc hload hroom
  | roomFound item head =>
    rw [hpc] at hs
    cases hs
    exact .wrote hpc
  | itemWritten item head =>
    rw [hpc] at hs
    cases hs
    exact .pushed hpc

theorem consume_stepped {i : ℕ} (hs : s.consume k i = some (s', o)) : Stepped k s o s' := by
  unfold State.consume at hs
  cases hpc : s.consumer with
  | idle =>
    rw [hpc] at hs
    cases hs
  | tailLoaded tail =>
    rw [hpc] at hs
    obtain ⟨⟨head, mem⟩, hload, hs⟩ := Option.bind_eq_some_iff.mp hs
    simp only at hs
    split at hs
    · rename_i hempty
      cases hs
      exact .missed hpc hload hempty
    · rename_i hitem
      cases hs
      exact .itemFound hpc hload hitem
  | itemFound tail =>
    rw [hpc] at hs
    cases hs
    exact .itemRead hpc
  | itemRead tail item =>
    rw [hpc] at hs
    cases hs
    exact .popped hpc

/-- The inversion lemma of a step. -/
theorem step_stepped {act : Act α} (hs : s.step k act = some (s', o)) : Stepped k s o s' := by
  cases act with
  | push item i =>
    simp only [State.step] at hs
    split at hs
    · rename_i hpc
      obtain ⟨⟨head, mem⟩, hload, hs⟩ := Option.bind_eq_some_iff.mp hs
      cases hs
      exact .push hpc hload
    · cases hs
  | pop i =>
    simp only [State.step] at hs
    split at hs
    · rename_i hpc
      obtain ⟨⟨tail, mem⟩, hload, hs⟩ := Option.bind_eq_some_iff.mp hs
      cases hs
      exact .pop hpc hload
    · cases hs
  | next thread i =>
    cases thread with
    | producer => exact produce_stepped hs
    | consumer => exact consume_stepped hs
  | peek thread index i =>
    simp only [State.step] at hs
    split at hs
    · rename_i hidle
      obtain ⟨⟨value, mem⟩, hload, hs⟩ := Option.bind_eq_some_iff.mp hs
      cases hs
      exact .peek hidle hload
    · cases hs

end Steps

/-! ## What the threads rely on -/

/-- The items whose push has stored `head_`, in order. -/
def pushedItems (log : List (Event α)) : List α :=
  log.filterMap fun
    | .pushed item => some item
    | _ => none

/-- The items pops have returned, in order. -/
def poppedItems (log : List (Event α)) : List α :=
  log.filterMap fun
    | .popped item => some item
    | _ => none

theorem pushedItems_append (log log' : List (Event α)) :
    pushedItems (log ++ log') = pushedItems log ++ pushedItems log' := List.filterMap_append

theorem poppedItems_append (log log' : List (Event α)) :
    poppedItems (log ++ log') = poppedItems log ++ poppedItems log' := List.filterMap_append

/-- The position of a thread in the stream of items: its stores to its index. -/
def position (m : Mem α) (t : Thread) : ℕ := (m.views t).1 t.own

/-- What a thread knows of the other's position. -/
def known (m : Mem α) (t : Thread) : ℕ := (m.views t).1 t.other.own

/-- The accesses a thread has made to slots. -/
def touched (m : Mem α) (t : Thread) : ℕ := (m.views t).2 t

/-- Each index has one writer, and a thread accesses the slots one after the
other. -/
structure Discipline (k : ℕ) (m : Mem α) : Prop where
  causal : m.Causal
  /-- A thread knows of all stores to its index. -/
  latest : ∀ t, position m t + 1 = (m.history t.own).length
  /-- A store to an index tells the position, and hands on the accesses made up
  to there. -/
  stores : ∀ (t : Thread) (i : ℕ) (store : Store Thread Index ℕ),
    (m.history t.own)[i]? = some store → store.value = i % 2 ^ k ∧ i ≤ store.view.2 t
  accesses : ∀ a ∈ m.accesses, 1 ≤ a.index ∧ a.cell = (a.index - 1) % 2 ^ k

def Producer.Ok (k : ℕ) (m : Mem α) : Producer α → Prop
  | .idle => touched m .producer = position m .producer
  | .headLoaded _ head =>
    touched m .producer = position m .producer ∧ head = position m .producer % 2 ^ k
  | .roomFound _ head =>
    touched m .producer = position m .producer ∧ head = position m .producer % 2 ^ k ∧
      position m .producer + 1 < known m .producer + 2 ^ k
  | .itemWritten item head =>
    touched m .producer = position m .producer + 1 ∧ head = position m .producer % 2 ^ k ∧
      position m .producer + 1 < known m .producer + 2 ^ k ∧ m.cells head = item

def Consumer.Ok (k : ℕ) (m : Mem α) (pushed : List α) : Consumer α → Prop
  | .idle => touched m .consumer = position m .consumer
  | .tailLoaded tail =>
    touched m .consumer = position m .consumer ∧ tail = position m .consumer % 2 ^ k
  | .itemFound tail =>
    touched m .consumer = position m .consumer ∧ tail = position m .consumer % 2 ^ k ∧
      position m .consumer < known m .consumer
  | .itemRead tail item =>
    touched m .consumer = position m .consumer + 1 ∧ tail = position m .consumer % 2 ^ k ∧
      position m .consumer < known m .consumer ∧ pushed[position m .consumer]? = some item

/-- The invariant, for what has been pushed and popped so far. -/
structure Inv (k : ℕ) (pushed popped : List α) (s : State α) : Prop where
  mem : Discipline k s.mem
  room : position s.mem .producer < known s.mem .producer + 2 ^ k
  item : position s.mem .consumer ≤ known s.mem .consumer
  producer : s.producer.Ok k s.mem
  consumer : s.consumer.Ok k s.mem pushed
  stored : pushed.length = position s.mem .producer
  taken : popped = pushed.take (position s.mem .consumer)
  cells : ∀ (j : ℕ) (item : α), position s.mem .consumer ≤ j →
    pushed[j]? = some item → s.mem.cells (j % 2 ^ k) = item

theorem inv_new (k : ℕ) (data : ℕ → α) : Inv k [] [] (State.new data) where
  mem := by
    refine ⟨Memory.causal_new _ _, fun _ => rfl, fun t i store hstore => ?_,
      fun a ha => absurd ha List.not_mem_nil⟩
    have hi : i < 1 := (List.getElem?_eq_some_iff.mp hstore).1
    obtain rfl : i = 0 := by omega
    rw [List.mem_singleton.mp (List.mem_of_getElem? hstore)]
    exact ⟨(Nat.zero_mod _).symm, le_rfl⟩
  room := Nat.lt_add_of_pos_right (Nat.two_pow_pos k)
  item := le_rfl
  producer := rfl
  consumer := rfl
  stored := rfl
  taken := rfl
  cells j item _ hj := by cases hj

/-- Items less than a round apart lie in different slots. -/
theorem slot_ne {i j : ℕ} (hlt : i < j) (hround : j < i + 2 ^ k) : i % 2 ^ k ≠ j % 2 ^ k := by
  have hne := Ring.cell_ne_end i (by omega : j - i < 2 ^ k) (by omega : 0 < j - i)
  rwa [Nat.add_zero, Nat.add_sub_cancel' hlt.le] at hne

theorem own_injective : Function.Injective Thread.own := by
  intro t t' h
  cases t <;> cases t' <;> first | rfl | cases h

theorem consumer_ne_producer : Thread.consumer ≠ Thread.producer := by decide

theorem own_other_ne (t : Thread) : t.other.own ≠ t.own := by
  cases t <;> exact nofun

section Discipline

variable {m : Mem α} (hm : Discipline k m)
include hm

/-- What is known has happened. -/
theorem known_le (t : Thread) : known m t ≤ position m t.other := by
  have hknown := (hm.causal.views t).known t.other.own
  rw [← hm.latest] at hknown
  exact Nat.le_of_lt_succ hknown

/-- A thread that knows of a position knows of the accesses made up to there. -/
theorem known_le_accesses (t : Thread) : known m t ≤ (m.views t).2 t.other := by
  have hviews := hm.causal.views t
  obtain ⟨store, hstore⟩ : ∃ store, (m.history t.other.own)[known m t]? = some store :=
    ⟨_, List.getElem?_eq_getElem (hviews.known t.other.own)⟩
  have hhanded := hviews.handed t.other.own _ store hstore le_rfl
  exact (hm.stores t.other _ store hstore).2.trans (hhanded.2 t.other)

end Discipline

section Facts

variable {pushed popped : List α} {s : State α} (hinv : Inv k pushed popped s)
include hinv

/-- The consumer has touched no item that it does not know to be there. -/
theorem touched_le : touched s.mem .consumer ≤ known s.mem .consumer := by
  have hok := hinv.consumer
  have hitem := hinv.item
  cases hpc : s.consumer with
  | idle =>
    rw [hpc] at hok
    exact hok.le.trans hitem
  | tailLoaded tail =>
    rw [hpc] at hok
    exact hok.1.le.trans hitem
  | itemFound tail =>
    rw [hpc] at hok
    exact hok.1.le.trans hitem
  | itemRead tail item =>
    rw [hpc] at hok
    exact hok.1.le.trans hok.2.2.1

/-- The producer has touched no item further on than a round from what it knows
to be popped. -/
theorem touched_lt : touched s.mem .producer < known s.mem .producer + 2 ^ k := by
  have hok := hinv.producer
  have hroom := hinv.room
  cases hpc : s.producer with
  | idle =>
    rw [hpc] at hok
    exact hok.le.trans_lt hroom
  | headLoaded item head =>
    rw [hpc] at hok
    exact hok.1.le.trans_lt hroom
  | roomFound item head =>
    rw [hpc] at hok
    exact hok.1.le.trans_lt hroom
  | itemWritten item head =>
    rw [hpc] at hok
    exact hok.1.le.trans_lt hok.2.2.1

/-- The write of a slot is not a race: the consumer's accesses that the producer
does not know of are to items less than a round back. -/
theorem ordered_write {item : α} {head : ℕ} (hpc : s.producer = .roomFound item head) :
    s.mem.Ordered .producer head true := by
  have hok := hinv.producer
  rw [hpc] at hok
  obtain ⟨_, rfl, hroom⟩ := hok
  intro a ha hcell _
  obtain ⟨hpos, hslot⟩ := hinv.mem.accesses a ha
  have htouched : a.index ≤ touched s.mem a.thread := hinv.mem.causal.made a ha
  cases hthread : a.thread with
  | producer =>
    rw [hthread] at htouched
    exact htouched
  | consumer =>
    rw [hthread] at htouched
    have hseen : known s.mem .producer ≤ (s.mem.views .producer).2 .consumer :=
      known_le_accesses hinv.mem .producer
    have hread := touched_le hinv
    have hknown : known s.mem .consumer ≤ position s.mem .producer := known_le hinv.mem .consumer
    by_contra hunseen
    rw [hslot] at hcell
    exact slot_ne (by omega) (by omega) hcell

/-- Nor is the read of a slot: the producer's accesses that the consumer does
not know of are to items less than a round ahead. -/
theorem ordered_read {tail : ℕ} (hpc : s.consumer = .itemFound tail) :
    s.mem.Ordered .consumer tail false := by
  have hok := hinv.consumer
  rw [hpc] at hok
  obtain ⟨_, rfl, hitem⟩ := hok
  intro a ha hcell _
  obtain ⟨hpos, hslot⟩ := hinv.mem.accesses a ha
  have htouched : a.index ≤ touched s.mem a.thread := hinv.mem.causal.made a ha
  cases hthread : a.thread with
  | consumer =>
    rw [hthread] at htouched
    exact htouched
  | producer =>
    rw [hthread] at htouched
    have hseen : known s.mem .consumer ≤ (s.mem.views .consumer).2 .producer :=
      known_le_accesses hinv.mem .consumer
    have hwritten := touched_lt hinv
    have hknown : known s.mem .producer ≤ position s.mem .consumer := known_le hinv.mem .producer
    by_contra hunseen
    rw [hslot] at hcell
    exact slot_ne (by omega) (by omega) hcell.symm

end Facts

/-! ## Loads

A thread that loads an index may come to know more, which is no loss. -/

/-- What a thread relies on is kept. -/
structure Kept (m m' : Mem α) (t : Thread) : Prop where
  position : position m' t = position m t
  touched : touched m' t = touched m t
  known : known m t ≤ known m' t

theorem kept_of_views {m m' : Mem α} {t : Thread} (h : m'.views t = m.views t) : Kept m m' t := by
  refine ⟨?_, ?_, ?_⟩
  · rw [position, h, position]
  · rw [touched, h, touched]
  · rw [known, known, h]

theorem Producer.Ok.kept {m m' : Mem α} {p : Producer α} (hp : p.Ok k m)
    (h : Kept m m' .producer) (hcells : m'.cells = m.cells) : p.Ok k m' := by
  have hknown := h.known
  cases p with
  | idle =>
    simp only [Producer.Ok, h.position, h.touched] at hp ⊢
    exact hp
  | headLoaded item head =>
    simp only [Producer.Ok, h.position, h.touched] at hp ⊢
    exact hp
  | roomFound item head =>
    simp only [Producer.Ok, h.position, h.touched] at hp ⊢
    exact ⟨hp.1, hp.2.1, hp.2.2.trans_le (Nat.add_le_add_right hknown _)⟩
  | itemWritten item head =>
    simp only [Producer.Ok, h.position, h.touched, hcells] at hp ⊢
    exact ⟨hp.1, hp.2.1, hp.2.2.1.trans_le (Nat.add_le_add_right hknown _), hp.2.2.2⟩

theorem Consumer.Ok.kept {m m' : Mem α} {c : Consumer α} {pushed pushed' : List α}
    (hc : c.Ok k m pushed) (h : Kept m m' .consumer) (hpre : pushed <+: pushed') :
    c.Ok k m' pushed' := by
  have hknown := h.known
  cases c with
  | idle =>
    simp only [Consumer.Ok, h.position, h.touched] at hc ⊢
    exact hc
  | tailLoaded tail =>
    simp only [Consumer.Ok, h.position, h.touched] at hc ⊢
    exact hc
  | itemFound tail =>
    simp only [Consumer.Ok, h.position, h.touched] at hc ⊢
    exact ⟨hc.1, hc.2.1, hc.2.2.trans_le hknown⟩
  | itemRead tail item =>
    simp only [Consumer.Ok, h.position, h.touched] at hc ⊢
    obtain ⟨rest, rfl⟩ := hpre
    refine ⟨hc.1, hc.2.1, hc.2.2.1.trans_le hknown, ?_⟩
    rw [List.getElem?_append_left (List.getElem?_eq_some_iff.mp hc.2.2.2).1]
    exact hc.2.2.2

section Learn

variable {m m' : Mem α} (hm : Discipline k m) {t : Thread} {l : Index} {i value : ℕ}
  (h : m.acquire t l i = some (value, m'))
include hm h

theorem acquire_kept (t' : Thread) : Kept m m' t' := by
  obtain ⟨store, _, hstore, _, rfl⟩ := Memory.acquire_eq_some h
  by_cases ht : t' = t
  · subst ht
    have hsound := hm.causal.stores l store (List.mem_of_getElem? hstore)
    have hself := m.views_learn_self t' store.view
    refine ⟨?_, ?_, ?_⟩
    · have hle := hsound.known t'.own
      rw [← hm.latest] at hle
      rw [position, hself]
      exact max_eq_left (Nat.le_of_lt_succ hle)
    · rw [touched, hself]
      exact max_eq_left (hsound.counted t')
    · rw [known, known, hself]
      exact le_max_left _ _
  · exact kept_of_views (m.views_learn_of_ne ht _)

theorem discipline_acquire : Discipline k m' := by
  have hkept := acquire_kept hm h
  have hcausal := Memory.causal_acquire hm.causal h
  obtain ⟨store, _, _, _, rfl⟩ := Memory.acquire_eq_some h
  refine ⟨hcausal, fun t' => ?_, hm.stores, hm.accesses⟩
  rw [(hkept t').position]
  exact hm.latest t'

end Learn

/-- A load of the other's index: its value is a position of the other, of which
the thread now knows. -/
theorem acquire_known {m m' : Mem α} (hm : Discipline k m) {t : Thread} {i value : ℕ}
    (h : m.acquire t t.other.own i = some (value, m')) :
    known m' t = i ∧ known m t ≤ i ∧ value = i % 2 ^ k := by
  obtain ⟨store, hle, hstore, hvalue, rfl⟩ := Memory.acquire_eq_some h
  have hstamp := hm.causal.stamp _ _ _ hstore
  refine ⟨?_, hle, ?_⟩
  · rw [known, m.views_learn_self]
    show max _ (store.view.1 t.other.own) = i
    rw [hstamp]
    exact max_eq_right hle
  · rw [← hvalue]
    exact (hm.stores t.other i store hstore).1

/-- A load of the thread's own index. -/
theorem relaxed_position {m m' : Mem α} (hm : Discipline k m) {t : Thread} {i value : ℕ}
    (h : m.relaxed t t.own i = some (value, m')) : m' = m ∧ value = position m t % 2 ^ k := by
  obtain ⟨hsame, store, hstore, hvalue⟩ := Memory.relaxed_latest (hm.latest t) h
  refine ⟨hsame, ?_⟩
  rw [← hvalue]
  exact (hm.stores t _ store hstore).1

section Loads

variable {pushed popped : List α} {s : State α} (hinv : Inv k pushed popped s)
include hinv

theorem inv_acquire {t : Thread} {l : Index} {i value : ℕ} {m' : Mem α}
    (h : s.mem.acquire t l i = some (value, m')) : Inv k pushed popped { s with mem := m' } := by
  have hm := discipline_acquire hinv.mem h
  have hproducer := acquire_kept hinv.mem h .producer
  have hconsumer := acquire_kept hinv.mem h .consumer
  have hcells : m'.cells = s.mem.cells := by
    obtain ⟨store, _, _, _, rfl⟩ := Memory.acquire_eq_some h
    rfl
  constructor
  case mem => exact hm
  case room =>
    rw [hproducer.position]
    exact hinv.room.trans_le (Nat.add_le_add_right hproducer.known _)
  case item =>
    rw [hconsumer.position]
    exact hinv.item.trans hconsumer.known
  case producer => exact hinv.producer.kept hproducer hcells
  case consumer => exact hinv.consumer.kept hconsumer List.prefix_rfl
  case stored =>
    rw [hproducer.position]
    exact hinv.stored
  case taken =>
    rw [hconsumer.position]
    exact hinv.taken
  case cells =>
    rw [hconsumer.position, hcells]
    exact hinv.cells

theorem inv_push {item : α} {i head : ℕ} {m' : Mem α} (hpc : s.producer = .idle)
    (h : s.mem.relaxed .producer .head i = some (head, m')) :
    Inv k pushed popped { s with mem := m', producer := .headLoaded item head } := by
  obtain ⟨rfl, hhead⟩ := relaxed_position hinv.mem h
  have hok := hinv.producer
  rw [hpc] at hok
  exact { hinv with producer := ⟨hok, hhead⟩ }

theorem inv_refused {item : α} {i head tail : ℕ} {m' : Mem α}
    (hpc : s.producer = .headLoaded item head)
    (h : s.mem.acquire .producer .tail i = some (tail, m')) :
    Inv k pushed popped { s with mem := m', producer := .idle } := by
  have hinv' := inv_acquire hinv h
  have hok := hinv'.producer
  simp only [hpc] at hok
  exact { hinv' with producer := hok.1 }

/-- The position of the consumer that the producer has read is less than a round
back, so it is told from the next one by the index. -/
theorem inv_roomFound {item : α} {i head tail : ℕ} {m' : Mem α}
    (hpc : s.producer = .headLoaded item head)
    (h : s.mem.acquire .producer .tail i = some (tail, m'))
    (hroom : (head + 1) &&& SpscQueue.mask k ≠ tail) :
    Inv k pushed popped { s with mem := m', producer := .roomFound item head } := by
  have hinv' := inv_acquire hinv h
  have hok := hinv'.producer
  simp only [hpc] at hok
  obtain ⟨htouched, hhead⟩ := hok
  obtain ⟨hknown, _, htail⟩ := acquire_known hinv.mem h
  have hround : position m' .producer < known m' .producer + 2 ^ k := hinv'.room
  have hne : known m' .producer + 2 ^ k ≠ position m' .producer + 1 := by
    intro heq
    apply hroom
    rw [SpscQueue.and_mask, hhead, htail, Nat.mod_add_mod, ← heq, Nat.add_mod_right, hknown]
  have hfree : position m' .producer + 1 < known m' .producer + 2 ^ k := by omega
  exact { hinv' with producer := ⟨htouched, hhead, hfree⟩ }

theorem inv_pop {i tail : ℕ} {m' : Mem α} (hpc : s.consumer = .idle)
    (h : s.mem.relaxed .consumer .tail i = some (tail, m')) :
    Inv k pushed popped { s with mem := m', consumer := .tailLoaded tail } := by
  obtain ⟨rfl, htail⟩ := relaxed_position hinv.mem h
  have hok := hinv.consumer
  rw [hpc] at hok
  exact { hinv with consumer := ⟨hok, htail⟩ }

theorem inv_missed {i head tail : ℕ} {m' : Mem α} (hpc : s.consumer = .tailLoaded tail)
    (h : s.mem.acquire .consumer .head i = some (head, m')) :
    Inv k pushed popped { s with mem := m', consumer := .idle } := by
  have hinv' := inv_acquire hinv h
  have hok := hinv'.consumer
  simp only [hpc] at hok
  exact { hinv' with consumer := hok.1 }

theorem inv_itemFound {i head tail : ℕ} {m' : Mem α} (hpc : s.consumer = .tailLoaded tail)
    (h : s.mem.acquire .consumer .head i = some (head, m')) (hitem : tail ≠ head) :
    Inv k pushed popped { s with mem := m', consumer := .itemFound tail } := by
  have hinv' := inv_acquire hinv h
  have hok := hinv'.consumer
  simp only [hpc] at hok
  obtain ⟨htouched, htail⟩ := hok
  obtain ⟨hknown, _, hhead⟩ := acquire_known hinv.mem h
  have hle : position m' .consumer ≤ known m' .consumer := hinv'.item
  have hne : position m' .consumer ≠ known m' .consumer := by
    intro heq
    apply hitem
    rw [htail, hhead, heq, hknown]
  exact { hinv' with consumer := ⟨htouched, htail, hle.lt_of_ne hne⟩ }

end Loads

/-! ## Accesses to slots -/

section Touch

variable {m : Mem α} {t : Thread}

theorem views_touch (m : Mem α) (t : Thread) (cell : ℕ) (write : Bool) (t' : Thread) :
    ((m.touch t cell write).views t').1 = (m.views t').1 := by
  by_cases ht : t' = t
  · subst ht
    rw [Memory.views_touch_self]
    rfl
  · rw [m.views_touch_of_ne ht]

theorem position_touch (m : Mem α) (t : Thread) (cell : ℕ) (write : Bool) (t' : Thread) :
    position (m.touch t cell write) t' = position m t' := by
  rw [position, views_touch, position]

theorem known_touch (m : Mem α) (t : Thread) (cell : ℕ) (write : Bool) (t' : Thread) :
    known (m.touch t cell write) t' = known m t' := by
  rw [known, views_touch, known]

theorem touched_touch_self (m : Mem α) (t : Thread) (cell : ℕ) (write : Bool) :
    touched (m.touch t cell write) t = touched m t + 1 := by
  rw [touched, Memory.views_touch_self]
  exact m.counted_self t

/-- The next access of a thread is to the next slot. -/
theorem discipline_touch (hm : Discipline k m) (t : Thread) {cell : ℕ}
    (hcell : cell = touched m t % 2 ^ k) (write : Bool) :
    Discipline k (m.touch t cell write) := by
  refine ⟨Memory.causal_touch hm.causal t cell write, fun t' => ?_, hm.stores, fun a ha => ?_⟩
  · rw [position_touch]
    exact hm.latest t'
  · rcases List.mem_cons.mp ha with rfl | ha
    · exact ⟨Nat.le_add_left 1 _, hcell⟩
    · exact hm.accesses a ha

theorem discipline_write (hm : Discipline k m) (t : Thread) {cell : ℕ}
    (hcell : cell = touched m t % 2 ^ k) (item : α) : Discipline k (m.write t cell item) :=
  have htouch := discipline_touch hm t hcell true
  ⟨Memory.causal_write hm.causal t cell item, htouch.latest, htouch.stores, htouch.accesses⟩

end Touch

section Slots

variable {pushed popped : List α} {s : State α} (hinv : Inv k pushed popped s)
include hinv

/-- The slot that is written holds no item yet to be popped. -/
theorem inv_wrote {item : α} {head : ℕ} (hpc : s.producer = .roomFound item head) :
    Inv k pushed popped { s with
      mem := s.mem.write .producer head item
      producer := .itemWritten item head } := by
  have hok := hinv.producer
  rw [hpc] at hok
  obtain ⟨htouched, hhead, hroom⟩ := hok
  have hposition (t : Thread) : position (s.mem.write .producer head item) t = position s.mem t :=
    position_touch s.mem .producer head true t
  have hknown (t : Thread) : known (s.mem.write .producer head item) t = known s.mem t :=
    known_touch s.mem .producer head true t
  have hslot := s.mem.cells_write_self .producer head item
  constructor
  case mem => exact discipline_write hinv.mem .producer (by rw [hhead, htouched]) item
  case room =>
    rw [hposition, hknown]
    exact hinv.room
  case item =>
    rw [hposition, hknown]
    exact hinv.item
  case producer =>
    simp only [Producer.Ok, hposition, hknown]
    refine ⟨?_, hhead, hroom, hslot⟩
    rw [← htouched]
    exact touched_touch_self s.mem .producer head true
  case consumer =>
    have hviews := s.mem.views_touch_of_ne consumer_ne_producer head true
    exact hinv.consumer.kept (kept_of_views hviews) List.prefix_rfl
  case stored =>
    rw [hposition]
    exact hinv.stored
  case taken =>
    rw [hposition]
    exact hinv.taken
  case cells =>
    intro j item' hj hitem
    rw [hposition] at hj
    have hlt := (List.getElem?_eq_some_iff.mp hitem).1
    rw [hinv.stored] at hlt
    have hpopped : known s.mem .producer ≤ position s.mem .consumer := known_le hinv.mem .producer
    have hne : j % 2 ^ k ≠ head := by
      rw [hhead]
      exact slot_ne hlt (by omega)
    rw [Memory.cells_write_of_ne _ _ hne]
    exact hinv.cells j item' hj hitem

/-- The slot that is read holds the next item. -/
theorem inv_itemRead {tail : ℕ} (hpc : s.consumer = .itemFound tail) :
    Inv k pushed popped { s with
      mem := s.mem.touch .consumer tail false
      consumer := .itemRead tail (s.mem.cells tail) } := by
  have hok := hinv.consumer
  rw [hpc] at hok
  obtain ⟨htouched, htail, hitem⟩ := hok
  have hposition := position_touch s.mem .consumer tail false
  have hknown := known_touch s.mem .consumer tail false
  have hpushed : known s.mem .consumer ≤ position s.mem .producer := known_le hinv.mem .consumer
  constructor
  case mem => exact discipline_touch hinv.mem .consumer (by rw [htail, htouched]) false
  case room =>
    rw [hposition, hknown]
    exact hinv.room
  case item =>
    rw [hposition, hknown]
    exact hinv.item
  case producer =>
    have hviews := s.mem.views_touch_of_ne consumer_ne_producer.symm tail false
    exact hinv.producer.kept (kept_of_views hviews) rfl
  case consumer =>
    have hlt : position s.mem .consumer < pushed.length := by
      rw [hinv.stored]
      exact hitem.trans_le hpushed
    have hget := List.getElem?_eq_getElem hlt
    simp only [Consumer.Ok, hposition, hknown]
    refine ⟨?_, htail, hitem, ?_⟩
    · rw [← htouched]
      exact touched_touch_self s.mem .consumer tail false
    · rw [htail, hinv.cells _ _ le_rfl hget, hget]
  case stored =>
    rw [hposition]
    exact hinv.stored
  case taken =>
    rw [hposition]
    exact hinv.taken
  case cells =>
    rw [hposition]
    exact hinv.cells

end Slots

/-! ## Stores -/

section Release

theorem position_release {m : Mem α} (hm : Discipline k m) (t : Thread) (value : ℕ) :
    position (m.release t t.own value) t = position m t + 1 := by
  rw [position, Memory.views_release_self, hm.latest]
  exact Function.update_self ..

theorem known_release (m : Mem α) (t : Thread) (value : ℕ) :
    known (m.release t t.own value) t = known m t := by
  rw [known, Memory.views_release_self]
  exact Function.update_of_ne (own_other_ne t) ..

theorem touched_release (m : Mem α) (t : Thread) (l : Index) (value : ℕ) (t' : Thread) :
    touched (m.release t l value) t' = touched m t' := by
  rw [touched, Memory.accesses_release, touched]

/-- A thread stores its next position once it has made the access. -/
theorem discipline_release {m : Mem α} (hm : Discipline k m) (t : Thread) {value : ℕ}
    (hdone : touched m t = position m t + 1) (hvalue : value = (position m t + 1) % 2 ^ k) :
    Discipline k (m.release t t.own value) := by
  refine ⟨Memory.causal_release hm.causal (hm.latest t) value, fun t' => ?_,
    fun t' i store hstore => ?_, hm.accesses⟩
  · by_cases ht : t' = t
    · subst ht
      rw [position_release hm, Memory.history_release_self, List.length_append, ← hm.latest]
      rfl
    · rw [position, m.views_release_of_ne ht,
        Memory.history_release_of_ne m t (own_injective.ne ht)]
      exact hm.latest t'
  · rcases Memory.getElem?_release hstore with hold | ⟨hown, rfl, rfl⟩
    · exact hm.stores t' i store hold
    · obtain rfl := own_injective hown
      rw [← hm.latest]
      exact ⟨hvalue, hdone.ge⟩

end Release

section Stores

variable {pushed popped : List α} {s : State α} (hinv : Inv k pushed popped s)
include hinv

theorem inv_pushed {item : α} {head : ℕ} (hpc : s.producer = .itemWritten item head) :
    Inv k (pushed ++ [item]) popped { s with
      mem := s.mem.release .producer .head ((head + 1) &&& SpscQueue.mask k)
      producer := .idle } := by
  have hok := hinv.producer
  rw [hpc] at hok
  obtain ⟨htouched, hhead, hroom, hslot⟩ := hok
  generalize hvalue : (head + 1) &&& SpscQueue.mask k = value
  rw [SpscQueue.and_mask, hhead, Nat.mod_add_mod] at hvalue
  have hposition : position (s.mem.release .producer .head value) .producer =
      position s.mem .producer + 1 := position_release hinv.mem .producer value
  have hknown : known (s.mem.release .producer .head value) .producer = known s.mem .producer :=
    known_release s.mem .producer value
  have hconsumer : Kept s.mem (s.mem.release .producer .head value) .consumer :=
    kept_of_views (s.mem.views_release_of_ne consumer_ne_producer .head value)
  have hpopped : position s.mem .consumer ≤ pushed.length := by
    rw [hinv.stored]
    exact hinv.item.trans (known_le hinv.mem .consumer)
  constructor
  case mem => exact discipline_release hinv.mem .producer htouched hvalue.symm
  case room =>
    rw [hposition, hknown]
    exact hroom
  case item =>
    rw [hconsumer.position]
    exact hinv.item.trans hconsumer.known
  case producer =>
    simp only [Producer.Ok, hposition, touched_release]
    exact htouched
  case consumer => exact hinv.consumer.kept hconsumer (List.prefix_append _ _)
  case stored =>
    rw [hposition, List.length_append, hinv.stored]
    rfl
  case taken =>
    rw [hconsumer.position, List.take_append_of_le_length hpopped]
    exact hinv.taken
  case cells =>
    intro j item' hj hitem
    rw [hconsumer.position] at hj
    rcases Nat.lt_or_ge j pushed.length with hlt | hge
    · rw [List.getElem?_append_left hlt] at hitem
      exact hinv.cells j item' hj hitem
    · have hbound := (List.getElem?_eq_some_iff.mp hitem).1
      rw [List.length_append, List.length_singleton] at hbound
      obtain rfl : j = pushed.length := by omega
      rw [List.getElem?_concat_length] at hitem
      cases hitem
      rw [hinv.stored, ← hhead]
      exact hslot

theorem inv_popped {tail : ℕ} {item : α} (hpc : s.consumer = .itemRead tail item) :
    Inv k pushed (popped ++ [item]) { s with
      mem := s.mem.release .consumer .tail ((tail + 1) &&& SpscQueue.mask k)
      consumer := .idle } := by
  have hok := hinv.consumer
  rw [hpc] at hok
  obtain ⟨htouched, htail, hitem, hget⟩ := hok
  generalize hvalue : (tail + 1) &&& SpscQueue.mask k = value
  rw [SpscQueue.and_mask, htail, Nat.mod_add_mod] at hvalue
  have hposition : position (s.mem.release .consumer .tail value) .consumer =
      position s.mem .consumer + 1 := position_release hinv.mem .consumer value
  have hknown : known (s.mem.release .consumer .tail value) .consumer = known s.mem .consumer :=
    known_release s.mem .consumer value
  have hproducer : Kept s.mem (s.mem.release .consumer .tail value) .producer :=
    kept_of_views (s.mem.views_release_of_ne consumer_ne_producer.symm .tail value)
  constructor
  case mem => exact discipline_release hinv.mem .consumer htouched hvalue.symm
  case room =>
    rw [hproducer.position]
    exact hinv.room.trans_le (Nat.add_le_add_right hproducer.known _)
  case item =>
    rw [hposition, hknown]
    exact hitem
  case producer => exact hinv.producer.kept hproducer rfl
  case consumer =>
    simp only [Consumer.Ok, hposition, touched_release]
    exact htouched
  case stored =>
    rw [hproducer.position]
    exact hinv.stored
  case taken =>
    rw [hposition, List.take_add_one, hget, ← hinv.taken]
    rfl
  case cells =>
    intro j item' hj
    rw [hposition] at hj
    exact hinv.cells j item' (Nat.le_of_succ_le hj)

end Stores

/-! ## Every run -/

theorem Inv.quiet {log : List (Event α)} {s : State α} {o : Option (Event α)}
    (h : Inv k (pushedItems log) (poppedItems log) s) (hpushed : pushedItems o.toList = [])
    (hpopped : poppedItems o.toList = []) :
    Inv k (pushedItems (log ++ o.toList)) (poppedItems (log ++ o.toList)) s := by
  rwa [pushedItems_append, poppedItems_append, hpushed, hpopped, List.append_nil, List.append_nil]

theorem inv_stepped {log : List (Event α)} {s s' : State α} {o : Option (Event α)}
    (hinv : Inv k (pushedItems log) (poppedItems log) s) (hs : Stepped k s o s') :
    Inv k (pushedItems (log ++ o.toList)) (poppedItems (log ++ o.toList)) s' := by
  cases hs with
  | push hpc hload => exact (inv_push hinv hpc hload).quiet rfl rfl
  | refused hpc hload _ => exact (inv_refused hinv hpc hload).quiet rfl rfl
  | roomFound hpc hload hroom => exact (inv_roomFound hinv hpc hload hroom).quiet rfl rfl
  | wrote hpc => exact (inv_wrote hinv hpc).quiet rfl rfl
  | pushed hpc =>
    rw [pushedItems_append, poppedItems_append]
    simpa [pushedItems, poppedItems] using inv_pushed hinv hpc
  | pop hpc hload => exact (inv_pop hinv hpc hload).quiet rfl rfl
  | missed hpc hload _ => exact (inv_missed hinv hpc hload).quiet rfl rfl
  | itemFound hpc hload hitem => exact (inv_itemFound hinv hpc hload hitem).quiet rfl rfl
  | itemRead hpc => exact (inv_itemRead hinv hpc).quiet rfl rfl
  | popped hpc =>
    rw [pushedItems_append, poppedItems_append]
    simpa [pushedItems, poppedItems] using inv_popped hinv hpc
  | peek _ hload => exact (inv_acquire hinv hload).quiet rfl rfl

theorem inv_trace {data : ℕ → α} {log : List (Event α)} {s : State α}
    (h : Trace (State.step k) (State.new data) log s) :
    Inv k (pushedItems log) (poppedItems log) s := by
  induction h with
  | nil => exact inv_new k data
  | step _ hs ih => exact inv_stepped ih (step_stepped hs)

/-- **The ring needs no more than release and acquire.** In every run, whatever
stores the loads read, the items popped are the first of the items pushed, in
order and at most `Capacity - 1` behind; and no access to a slot is a data race.
-/
theorem spsc_weak_fifo {data : ℕ → α} {log : List (Event α)} {s : State α}
    (h : Trace (State.step k) (State.new data) log s) :
    poppedItems log <+: pushedItems log ∧
    (pushedItems log).length < (poppedItems log).length + 2 ^ k ∧
    (∀ item head, s.producer = .roomFound item head → s.mem.Ordered .producer head true) ∧
    ∀ tail, s.consumer = .itemFound tail → s.mem.Ordered .consumer tail false := by
  have hinv := inv_trace h
  have hpopped : known s.mem .producer ≤ position s.mem .consumer := known_le hinv.mem .producer
  have hpushed : known s.mem .consumer ≤ position s.mem .producer := known_le hinv.mem .consumer
  have hroom := hinv.room
  have hitem := hinv.item
  refine ⟨?_, ?_, fun item head => ordered_write hinv, fun tail => ordered_read hinv⟩
  · rw [hinv.taken]
    exact List.take_prefix _ _
  · rw [hinv.taken, List.length_take, hinv.stored, min_eq_left (hitem.trans hpushed)]
    exact hroom.trans_le (Nat.add_le_add_right hpopped _)

/-- A pop reads the store of `head_` that came before a push, and misses its
item; the next reads the store after it. -/
def behind : List (Act ℕ) :=
  [.push 7 0, .next .producer 0, .next .producer 0, .next .producer 0,
   .pop 0, .next .consumer 0, .pop 0, .next .consumer 1]

theorem spsc_weak_fifo_behind :
    ∃ s, Trace (State.step 2) (State.new fun _ => 0) [.pushed 7, .missed] s ∧
      s.consumer = .itemFound 0 ∧ s.mem.Ordered .consumer 0 false := by
  have hrun : (run (State.step 2) behind (State.new fun _ => 0)).map
      (fun r => (r.2, r.1.consumer)) = some ([.pushed 7, .missed], .itemFound 0) := rfl
  obtain ⟨⟨s, log⟩, hs, heq⟩ := Option.map_eq_some_iff.mp hrun
  injection heq with hlog hpc
  subst hlog
  exact ⟨s, trace_run hs, hpc, (spsc_weak_fifo (trace_run hs)).2.2.2 0 hpc⟩

end SpscWeak

end HftEngine
