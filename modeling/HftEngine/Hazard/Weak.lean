import HftEngine.Hazard.Domain
import HftEngine.Lib.ReleaseAcquire
import HftEngine.Lib.Trace

/-!
# Hazard pointers with their memory orders

The methods of `hazard_pointers.hpp` on release/acquire memory, step by step.
The slots are atomic locations, stored to with release and loaded with acquire;
what the pointers point to are plain cells, which threads access and the scan
deletes.  How threads come by pointers is their own affair: they may exchange and
load any other atomic locations (`Location.client`).

Two things the header leaves to its callers.  `retired_` is a plain vector, as its
comment says: a `retire` or a `scan_and_reclaim` that begins during another
thread's scan is a data race, and the machine has no such step (`State.Serial`).
And `get_thread_id`, a hash modulo `num_threads_`, may give two threads one bank,
so that one overwrites the other's hold: `bank` says which bank each thread has,
and what rests on `OwnBanks` says so.

Nothing makes the store of `acquire` visible to a scan that begins later.  The
scan reads of every slot a store that is not older than what its thread knew when
it began, so this is what protects: a hold that the thread knew of at that moment.

* `destroyed_once_retired` — no retired pointer is lost or deleted twice;
* `weak_reclaim_safe` — if threads have banks of their own, a pointer is deleted
  only while no such hold is in place, and without a data race if all accesses to
  it were made under such holds, or were known themselves;
* `unseen_hold_deleted` — other holds protect nothing: a pointer is acquired,
  then retired, and deleted while it is held and in a race with its use.
-/

namespace HftEngine.HazardWeak

open Lib Hazard

variable {α : Type}

inductive Location where
  | slot (place : ℕ)
  | client (n : ℕ)
deriving Repr, DecidableEq

abbrev Mem (α : Type) := Memory ℕ Location α (Option α) Unit

/-- Where a thread stands: in no call, in `acquire` about to load a slot or to
store to it, or in `retire` or `scan_and_reclaim`. -/
inductive Call (α : Type) where
  | idle
  | searching (ptr : Option α) (slot : ℕ)
  | found (ptr : Option α) (slot : ℕ)
  | reclaiming
deriving Repr, DecidableEq

/-- Where the scan stands: in the first loop, about to compare slot `j` with the
first pointer of `todo`, or in the second.  `start` is what its thread knew when
it began; the code has no such variable. -/
inductive Scan (α : Type) where
  | idle
  | marking (thread : ℕ) (start : View ℕ Location) (marked : List (α × Bool)) (todo : List α)
      (j : ℕ)
  | sorting (thread : ℕ) (start : View ℕ Location) (todo : List (α × Bool)) (kept : List α)

/-- The thread of the scan, and what it knew at the start. -/
def Scan.began : Scan α → Option (ℕ × View ℕ Location)
  | .idle => none
  | .marking t start _ _ _ => some (t, start)
  | .sorting t start _ _ => some (t, start)

/-- An access that was made to the pointer in a slot, when that slot's latest
store was the given one. -/
structure Use (α : Type) where
  access : Access ℕ α
  place : ℕ
  number : ℕ

/-- `uses` is not part of the code either. -/
structure State (α : Type) where
  mem : Mem α
  calls : ℕ → Call α
  retired : List α
  scan : Scan α
  uses : List (Use α)

def State.new : State α := ⟨.new (fun _ => none) fun _ => (), fun _ => .idle, [], .idle, []⟩

/-- What the callers of `retire` and `scan_and_reclaim` have to see to: no scan is
under way when either is called. -/
def State.Serial (s : State α) : Prop := s.scan = .idle

instance (s : State α) : Decidable s.Serial :=
  match h : s.scan with
  | .idle => isTrue h
  | .marking .. => isFalse fun hidle => by cases h.symm.trans hidle
  | .sorting .. => isFalse fun hidle => by cases h.symm.trans hidle

/-- No two threads have one bank between them.  A thread whose number is not below
`num_threads_` has none: it may retire and scan. -/
def OwnBanks (bank : ℕ → ℕ) : Prop := Function.Injective bank

/-- Calls begin, or take their next step; between calls a thread accesses the
pointer in one of its slots, or any other, or an atomic location of the client.
A load reads store number `i`. -/
inductive Act (α : Type) where
  | acquire (thread : ℕ) (ptr : Option α)
  | next (thread i : ℕ)
  | release (thread slot : ℕ)
  | retire (thread : ℕ) (ptr : Option α)
  | scan (thread : ℕ)
  | reclaim (i : ℕ)
  | use (thread slot : ℕ) (write : Bool)
  | access (thread : ℕ) (p : α) (write : Bool)
  | exchange (thread n : ℕ) (ptr : Option α)
  | load (thread n i : ℕ)

inductive Event (α : Type) where
  | acquired (thread : ℕ) (slot : Option ℕ)
  | retired (p : α)
  | deleted (p : α)
deriving Repr, DecidableEq

namespace State

/-- A thread goes on to another point. -/
def goto (s : State α) (t : ℕ) (call : Call α) : State α :=
  { s with calls := Function.update s.calls t call }

/-- The next step of an `acquire`: the end of the loop, a load, or the store. -/
def next (bank : ℕ → ℕ) (s : State α) (t i : ℕ) : Option (State α × Option (Event α)) :=
  match s.calls t with
  | .searching ptr slot =>
    if slot < maxHazardPtrs then do
      let (value, mem) ← s.mem.acquire t (.slot (place (bank t) slot)) i
      match value with
      | none => some ({ s with mem := mem }.goto t (.found ptr slot), none)
      | some _ => some ({ s with mem := mem }.goto t (.searching ptr (slot + 1)), none)
    else some (s.goto t .idle, some (.acquired t none))
  | .found ptr slot =>
    some ({ s with mem := s.mem.release t (.slot (place (bank t) slot)) ptr }.goto t .idle,
      some (.acquired t (some slot)))
  | _ => none

/-- `scan_and_reclaim` is called. -/
def beginScan (s : State α) (t : ℕ) : State α :=
  match s.retired with
  | [] => s
  | ps => { s with scan := .marking t (s.mem.views t) [] ps 0 }.goto t .reclaiming

def retire (s : State α) (t : ℕ) : Option α → State α × Option (Event α)
  | none => (s, none)
  | some p =>
    let s := { s with retired := s.retired ++ [p] }
    (if s.retired.length ≥ retiredThreshold then s.beginScan t else s, some (.retired p))

/-- An access to the pointer in a slot of the thread. -/
def use (bank : ℕ → ℕ) (s : State α) (t slot : ℕ) (write : Bool) : Option (State α) :=
  match (s.mem.history (.slot (place (bank t) slot))).getLast? with
  | some ⟨some p, _⟩ =>
    some { s with
      mem := s.mem.touch t p write
      uses := ⟨⟨t, p, write, (s.mem.views t).2 t + 1⟩, place (bank t) slot,
        (s.mem.history (.slot (place (bank t) slot))).length - 1⟩ :: s.uses }
  | _ => none

/-- The destructor of the domain deletes what is left, held or not. -/
def destroy (s : State α) : List (Event α) := s.retired.map .deleted

variable [DecidableEq α]

/-- The next step of the scan; the destructor of what is deleted writes to it. -/
def reclaim (numThreads : ℕ) (s : State α) (i : ℕ) : Option (State α × Option (Event α)) :=
  match s.scan with
  | .idle => none
  | .marking t start marked [] _ => some ({ s with scan := .sorting t start marked [] }, none)
  | .marking t start marked (p :: todo) j =>
    if j < numThreads * maxHazardPtrs then do
      let (value, mem) ← s.mem.acquire t (.slot j) i
      if value = some p then
        some ({ s with mem := mem, scan := .marking t start (marked ++ [(p, true)]) todo 0 }, none)
      else some ({ s with mem := mem, scan := .marking t start marked (p :: todo) (j + 1) }, none)
    else some ({ s with scan := .marking t start (marked ++ [(p, false)]) todo 0 }, none)
  | .sorting t _ [] kept => some ({ s with retired := kept, scan := .idle }.goto t .idle, none)
  | .sorting t start ((p, true) :: todo) kept =>
    some ({ s with scan := .sorting t start todo (kept ++ [p]) }, none)
  | .sorting t start ((p, false) :: todo) kept =>
    some ({ s with mem := s.mem.touch t p true, scan := .sorting t start todo kept },
      some (.deleted p))

/-- `bank` is `get_thread_id`, less than `num_threads_` for a thread that acquires; a
slot that is released or used is one of the thread's bank. -/
def step (bank : ℕ → ℕ) (numThreads : ℕ) (s : State α) :
    Act α → Option (State α × Option (Event α))
  | .acquire t ptr =>
    if s.calls t = .idle ∧ bank t < numThreads then some (s.goto t (.searching ptr 0), none)
    else none
  | .next t i => s.next bank t i
  | .release t slot =>
    if s.calls t = .idle ∧ bank t < numThreads ∧ slot < maxHazardPtrs then
      some ({ s with mem := s.mem.release t (.slot (place (bank t) slot)) none }, none)
    else none
  | .retire t ptr => if s.calls t = .idle ∧ s.Serial then some (s.retire t ptr) else none
  | .scan t => if s.calls t = .idle ∧ s.Serial then some (s.beginScan t, none) else none
  | .reclaim i => s.reclaim numThreads i
  | .use t slot write =>
    if s.calls t = .idle ∧ bank t < numThreads ∧ slot < maxHazardPtrs then
      (s.use bank t slot write).map fun s' => (s', none)
    else none
  | .access t p write =>
    if s.calls t = .idle then some ({ s with mem := s.mem.touch t p write }, none) else none
  | .exchange t n ptr =>
    if s.calls t = .idle then do
      let (_, mem) ← s.mem.exchange t (.client n) ptr
      some ({ s with mem := mem }, none)
    else none
  | .load t n i =>
    if s.calls t = .idle then do
      let (_, mem) ← s.mem.acquire t (.client n) i
      some ({ s with mem := mem }, none)
    else none

end State

/-! ## What one step can do -/

inductive Stepped (bank : ℕ → ℕ) (numThreads : ℕ) (s : State α) : Option (Event α) → State α → Prop
  | began {t : ℕ} {ptr : Option α} : Stepped bank numThreads s none (s.goto t (.searching ptr 0))
  | found {t i slot : ℕ} {ptr : Option α} {mem : Mem α} : slot < maxHazardPtrs →
      s.mem.acquire t (.slot (place (bank t) slot)) i = some (none, mem) →
      Stepped bank numThreads s none ({ s with mem := mem }.goto t (.found ptr slot))
  | passed {t i slot : ℕ} {ptr value : Option α} {mem : Mem α} :
      s.mem.acquire t (.slot (place (bank t) slot)) i = some (value, mem) →
      Stepped bank numThreads s none ({ s with mem := mem }.goto t (.searching ptr (slot + 1)))
  | full {t : ℕ} : Stepped bank numThreads s (some (.acquired t none)) (s.goto t .idle)
  | stored {t slot : ℕ} {ptr : Option α} : s.calls t = .found ptr slot →
      Stepped bank numThreads s (some (.acquired t (some slot)))
        ({ s with mem := s.mem.release t (.slot (place (bank t) slot)) ptr }.goto t .idle)
  | released {t slot : ℕ} : slot < maxHazardPtrs →
      Stepped bank numThreads s none
        { s with mem := s.mem.release t (.slot (place (bank t) slot)) none }
  | retired {t : ℕ} {ptr : Option α} : s.Serial →
      Stepped bank numThreads s (s.retire t ptr).2 (s.retire t ptr).1
  | scan {t : ℕ} : s.Serial → Stepped bank numThreads s none (s.beginScan t)
  | used {t slot : ℕ} {write : Bool} {s' : State α} : bank t < numThreads → slot < maxHazardPtrs →
      s.use bank t slot write = some s' → Stepped bank numThreads s none s'
  | accessed {t : ℕ} {p : α} {write : Bool} :
      Stepped bank numThreads s none { s with mem := s.mem.touch t p write }
  | exchanged {t n : ℕ} {ptr old : Option α} {mem : Mem α} :
      s.mem.exchange t (.client n) ptr = some (old, mem) →
      Stepped bank numThreads s none { s with mem := mem }
  | loaded {t n i : ℕ} {value : Option α} {mem : Mem α} :
      s.mem.acquire t (.client n) i = some (value, mem) →
      Stepped bank numThreads s none { s with mem := mem }
  | marked {t j : ℕ} {start : View ℕ Location} {marks : List (α × Bool)} :
      s.scan = .marking t start marks [] j →
      Stepped bank numThreads s none { s with scan := .sorting t start marks [] }
  | hazardous {t i j : ℕ} {start : View ℕ Location} {marks : List (α × Bool)} {p : α}
      {todo : List α} {mem : Mem α} : s.scan = .marking t start marks (p :: todo) j →
      s.mem.acquire t (.slot j) i = some (some p, mem) →
      Stepped bank numThreads s none
        { s with mem := mem, scan := .marking t start (marks ++ [(p, true)]) todo 0 }
  | compared {t i j : ℕ} {start : View ℕ Location} {marks : List (α × Bool)} {p : α}
      {todo : List α} {value : Option α} {mem : Mem α} :
      s.scan = .marking t start marks (p :: todo) j →
      s.mem.acquire t (.slot j) i = some (value, mem) → value ≠ some p →
      Stepped bank numThreads s none
        { s with mem := mem, scan := .marking t start marks (p :: todo) (j + 1) }
  | unheld {t j : ℕ} {start : View ℕ Location} {marks : List (α × Bool)} {p : α}
      {todo : List α} : s.scan = .marking t start marks (p :: todo) j →
      numThreads * maxHazardPtrs ≤ j →
      Stepped bank numThreads s none
        { s with scan := .marking t start (marks ++ [(p, false)]) todo 0 }
  | ended {t : ℕ} {start : View ℕ Location} {kept : List α} : s.scan = .sorting t start [] kept →
      Stepped bank numThreads s none ({ s with retired := kept, scan := .idle }.goto t .idle)
  | kept {t : ℕ} {start : View ℕ Location} {p : α} {todo : List (α × Bool)} {kept : List α} :
      s.scan = .sorting t start ((p, true) :: todo) kept →
      Stepped bank numThreads s none { s with scan := .sorting t start todo (kept ++ [p]) }
  | deleted {t : ℕ} {start : View ℕ Location} {p : α} {todo : List (α × Bool)} {kept : List α} :
      s.scan = .sorting t start ((p, false) :: todo) kept →
      Stepped bank numThreads s (some (.deleted p))
        { s with mem := s.mem.touch t p true, scan := .sorting t start todo kept }

section Steps

variable {bank : ℕ → ℕ} {numThreads : ℕ} {s s' : State α} {o : Option (Event α)}

theorem next_stepped {t i : ℕ} (hs : s.next bank t i = some (s', o)) :
    Stepped bank numThreads s o s' := by
  unfold State.next at hs
  cases hpc : s.calls t with
  | idle => simp [hpc] at hs
  | searching ptr slot =>
    simp only [hpc] at hs
    split at hs
    · rename_i hslot
      obtain ⟨⟨value, mem⟩, hload, hs⟩ := Option.bind_eq_some_iff.mp hs
      cases value with
      | none =>
        cases hs
        exact .found hslot hload
      | some q =>
        cases hs
        exact .passed hload
    · cases hs
      exact .full
  | found ptr slot =>
    simp only [hpc] at hs
    cases hs
    exact .stored hpc
  | reclaiming => simp [hpc] at hs

variable [DecidableEq α]

theorem reclaim_stepped {i : ℕ} (hs : s.reclaim numThreads i = some (s', o)) :
    Stepped bank numThreads s o s' := by
  unfold State.reclaim at hs
  split at hs
  · cases hs
  · rename_i hpc
    cases hs
    exact .marked hpc
  · rename_i t start marks p todo j hpc
    split at hs
    · obtain ⟨⟨value, mem⟩, hload, hs⟩ := Option.bind_eq_some_iff.mp hs
      simp only at hs
      split at hs
      · rename_i hvalue
        subst hvalue
        cases hs
        exact .hazardous hpc hload
      · rename_i hvalue
        cases hs
        exact .compared hpc hload hvalue
    · rename_i hj
      cases hs
      exact .unheld hpc (Nat.le_of_not_lt hj)
  · rename_i hpc
    cases hs
    exact .ended hpc
  · rename_i hpc
    cases hs
    exact .kept hpc
  · rename_i hpc
    cases hs
    exact .deleted hpc

/-- The inversion lemma of a step. -/
theorem step_stepped {act : Act α} (hs : s.step bank numThreads act = some (s', o)) :
    Stepped bank numThreads s o s' := by
  cases act with
  | acquire t ptr =>
    simp only [State.step, Option.ite_none_right_eq_some] at hs
    obtain ⟨_, hs⟩ := hs
    cases hs
    exact .began
  | next t i => exact next_stepped hs
  | release t slot =>
    simp only [State.step, Option.ite_none_right_eq_some] at hs
    obtain ⟨⟨_, _, hslot⟩, hs⟩ := hs
    cases hs
    exact .released hslot
  | retire t ptr =>
    simp only [State.step, Option.ite_none_right_eq_some] at hs
    obtain ⟨⟨_, hserial⟩, hs⟩ := hs
    obtain ⟨rfl, rfl⟩ := Prod.ext_iff.mp (Option.some.inj hs)
    exact .retired hserial
  | scan t =>
    simp only [State.step, Option.ite_none_right_eq_some] at hs
    obtain ⟨⟨_, hserial⟩, hs⟩ := hs
    cases hs
    exact .scan hserial
  | reclaim i => exact reclaim_stepped hs
  | use t slot write =>
    simp only [State.step, Option.ite_none_right_eq_some] at hs
    obtain ⟨⟨_, ht, hslot⟩, hs⟩ := hs
    obtain ⟨s'', huse, heq⟩ := Option.map_eq_some_iff.mp hs
    cases heq
    exact .used ht hslot huse
  | access t p write =>
    simp only [State.step, Option.ite_none_right_eq_some] at hs
    obtain ⟨_, hs⟩ := hs
    cases hs
    exact .accessed
  | exchange t n ptr =>
    simp only [State.step, Option.ite_none_right_eq_some] at hs
    obtain ⟨_, hs⟩ := hs
    obtain ⟨⟨old, mem⟩, hexchange, hs⟩ := Option.bind_eq_some_iff.mp hs
    cases hs
    exact .exchanged hexchange
  | load t n i =>
    simp only [State.step, Option.ite_none_right_eq_some] at hs
    obtain ⟨_, hs⟩ := hs
    obtain ⟨⟨value, mem⟩, hload, hs⟩ := Option.bind_eq_some_iff.mp hs
    cases hs
    exact .loaded hload

end Steps

/-! ## Memory

Only the thread that has the bank stores to a slot, so it knows the latest store. -/

structure Discipline (bank : ℕ → ℕ) (m : Mem α) : Prop where
  causal : m.Causal
  latest : ∀ t j, bank t = j / maxHazardPtrs → m.Latest t (.slot j)

/-- Memory goes on, and a new store to a slot hands on what a thread of its bank
knew. -/
structure Grows (bank : ℕ → ℕ) (m m' : Mem α) : Prop where
  memory : m.Extends m'
  fresh : ∀ (j i : ℕ) (store : Store ℕ Location (Option α)),
    (m'.history (.slot j))[i]? = some store →
      (m.history (.slot j))[i]? = some store ∨
        ∃ t, bank t = j / maxHazardPtrs ∧ m.views t ≤ store.view

theorem place_div {b slot : ℕ} (hslot : slot < maxHazardPtrs) :
    place b slot / maxHazardPtrs = b := by
  unfold place maxHazardPtrs at *
  omega

theorem discipline_new (bank : ℕ → ℕ) : Discipline bank (State.new : State α).mem :=
  ⟨Memory.causal_new _ _, fun _ _ _ => rfl⟩

section Memory

variable {bank : ℕ → ℕ} {m m' : Mem α} (hm : Discipline bank m)

include hm

theorem discipline_learn (t : ℕ) {v : View ℕ Location} (hv : m.Sound v) :
    Discipline bank (m.learn t v) :=
  ⟨Memory.causal_learn hm.causal t hv, fun t' j hj => (hm.latest t' j hj).learn t hv⟩

theorem discipline_acquire {t i : ℕ} {l : Location} {value : Option α}
    (h : m.acquire t l i = some (value, m')) : Discipline bank m' ∧ Grows bank m m' := by
  obtain ⟨store, _, hstore, _, rfl⟩ := Memory.acquire_eq_some h
  refine ⟨discipline_learn hm t (hm.causal.stores l store (List.mem_of_getElem? hstore)), ?_⟩
  exact ⟨Memory.extends_learn m t store.view, fun _ _ _ h => .inl h⟩

theorem discipline_touch (t : ℕ) (p : α) (write : Bool) :
    Discipline bank (m.touch t p write) ∧ Grows bank m (m.touch t p write) :=
  ⟨⟨Memory.causal_touch hm.causal t p write, fun t' j hj => (hm.latest t' j hj).touch t p write⟩,
    ⟨Memory.extends_touch m t p write, fun _ _ _ h => .inl h⟩⟩

theorem discipline_release (hbank : OwnBanks bank) {t slot : ℕ} (hslot : slot < maxHazardPtrs)
    (ptr : Option α) :
    Discipline bank (m.release t (.slot (place (bank t) slot)) ptr) ∧
      Grows bank m (m.release t (.slot (place (bank t) slot)) ptr) := by
  have howner := hm.latest t (place (bank t) slot) (place_div hslot).symm
  refine ⟨⟨Memory.causal_release hm.causal howner ptr, fun t' j hj => ?_⟩,
    ⟨Memory.extends_release hm.causal _ _ ptr, fun j i store hstore => ?_⟩⟩
  · by_cases hslot' : j = place (bank t) slot
    · rw [hslot', place_div hslot] at hj
      obtain rfl := hbank hj
      rw [hslot']
      exact Memory.latest_release_self m t' _ ptr
    · refine (hm.latest t' j hj).release_of_ne t ?_ ptr
      intro heq
      injection heq with heq
      exact hslot' heq
  · rcases Memory.getElem?_release hstore with hold | ⟨heq, _, rfl⟩
    · exact .inl hold
    · injection heq with heq
      refine .inr ⟨t, ?_, Memory.le_published hm.causal⟩
      rw [heq, place_div hslot]

theorem discipline_exchange {t n : ℕ} {ptr old : Option α}
    (h : m.exchange t (.client n) ptr = some (old, m')) : Discipline bank m' ∧ Grows bank m m' := by
  have hcausal := Memory.causal_exchange hm.causal h
  obtain ⟨store, hlast, _, rfl⟩ := Memory.exchange_eq_some h
  have hsound := hm.causal.stores _ store (List.mem_of_getLast? hlast)
  have hlearn := discipline_learn hm t hsound
  have hne : ∀ j, Location.slot j ≠ .client n := fun j h => by cases h
  refine ⟨⟨hcausal, fun t' j hj => (hlearn.latest t' j hj).release_of_ne t (hne j) ptr⟩, ?_, ?_⟩
  · exact (Memory.extends_learn m t store.view).trans (Memory.extends_release hlearn.causal _ _ ptr)
  · intro j i store' hstore'
    rw [Memory.history_release_of_ne _ t (hne j)] at hstore'
    exact .inl hstore'

end Memory

/-! ## Uses and scans -/

/-- What a use leaves behind: the store it was made under, and that all later
stores to the slot hand it on. -/
structure Held (bank : ℕ → ℕ) (numThreads : ℕ) (m : Mem α) (u : Use α) : Prop where
  place : u.place < numThreads * maxHazardPtrs
  thread : bank u.access.thread = u.place / maxHazardPtrs
  access : u.access ∈ m.accesses
  store : ∃ store, (m.history (.slot u.place))[u.number]? = some store ∧
    store.value = some u.access.cell
  later : ∀ (i : ℕ) (store : Store ℕ Location (Option α)), u.number < i →
    (m.history (.slot u.place))[i]? = some store → u.access.index ≤ store.view.2 u.access.thread

/-- Of slot `j` the thread has read a store, not older than what it knew at the
start, that is not a hold of the pointer. -/
def Passed (m : Mem α) (t : ℕ) (start : View ℕ Location) (p : α) (j : ℕ) : Prop :=
  ∃ (i : ℕ) (store : Store ℕ Location (Option α)), start.1 (.slot j) ≤ i ∧
    i ≤ (m.views t).1 (.slot j) ∧ (m.history (.slot j))[i]? = some store ∧ store.value ≠ some p

/-- A pointer that is not marked, or not yet, has been looked for. -/
def Scan.Ok (numThreads : ℕ) (m : Mem α) : Scan α → Prop
  | .idle => True
  | .marking t start marks todo j =>
    start ≤ m.views t ∧
      (∀ p, (p, false) ∈ marks → ∀ j' < numThreads * maxHazardPtrs, Passed m t start p j') ∧
      ∀ p ∈ todo.head?, ∀ j' < j, Passed m t start p j'
  | .sorting t start todo _ =>
    start ≤ m.views t ∧
      ∀ p, (p, false) ∈ todo → ∀ j < numThreads * maxHazardPtrs, Passed m t start p j

section Grow

variable {bank : ℕ → ℕ} {numThreads : ℕ} {m m' : Mem α} (hg : Grows bank m m')
include hg

theorem Held.grows {u : Use α} (hbank : OwnBanks bank) (hm : Discipline bank m)
    (h : Held bank numThreads m u) : Held bank numThreads m' u := by
  obtain ⟨store, hstore, hvalue⟩ := h.store
  refine ⟨h.place, h.thread, hg.memory.accesses _ h.access,
    ⟨store, hg.memory.stores _ _ _ hstore, hvalue⟩, fun i store' hi hstore' => ?_⟩
  rcases hg.fresh _ _ _ hstore' with hold | ⟨t, ht, hnew⟩
  · exact h.later i store' hi hold
  · -- the owner stores again, and knows of its own access
    obtain rfl : t = u.access.thread := hbank (ht.trans h.thread.symm)
    exact (hm.causal.made u.access h.access).trans (hnew.2 _)

theorem Passed.grows {t j : ℕ} {start : View ℕ Location} {p : α} (h : Passed m t start p j) :
    Passed m' t start p j := by
  obtain ⟨i, store, hstart, hknown, hstore, hvalue⟩ := h
  exact ⟨i, store, hstart, hknown.trans ((hg.memory.views t).1 _), hg.memory.stores _ _ _ hstore,
    hvalue⟩

theorem Scan.Ok.grows {scan : Scan α} (h : scan.Ok numThreads m) : scan.Ok numThreads m' := by
  cases scan with
  | idle => trivial
  | marking t start marks todo j =>
    exact ⟨h.1.trans (hg.memory.views t), fun p hp j' hj' => (h.2.1 p hp j' hj').grows hg,
      fun p hp j' hj' => (h.2.2 p hp j' hj').grows hg⟩
  | sorting t start todo kept =>
    exact ⟨h.1.trans (hg.memory.views t), fun p hp j hj => (h.2 p hp j hj).grows hg⟩

end Grow

/-- The load of a slot that holds something else. -/
theorem passed_acquire {m m' : Mem α} (hm : m.Causal) {t i j : ℕ} {start : View ℕ Location}
    {p : α} {value : Option α} (hstart : start ≤ m.views t)
    (h : m.acquire t (.slot j) i = some (value, m')) (hvalue : value ≠ some p) :
    Passed m' t start p j := by
  obtain ⟨store, hle, hstore, rfl, rfl⟩ := Memory.acquire_eq_some h
  refine ⟨i, store, (hstart.1 _).trans hle, ?_, hstore, hvalue⟩
  rw [Memory.views_learn_self]
  show i ≤ max _ (store.view.1 (.slot j))
  rw [hm.stamp _ _ _ hstore]
  exact le_max_right _ _

/-! ## The accounts

They need no memory, and no banks. -/

/-- The pointers retired, in order. -/
def retirements (log : List (Event α)) : List α :=
  log.filterMap fun
    | .retired p => some p
    | _ => none

/-- The pointers deleted, in order. -/
def deletions (log : List (Event α)) : List α :=
  log.filterMap fun
    | .deleted p => some p
    | _ => none

/-- The retired pointers that are neither deleted nor lost. -/
def State.pending (s : State α) : List α :=
  match s.scan with
  | .idle => s.retired
  | .marking _ _ marks todo _ => marks.map Prod.fst ++ todo
  | .sorting _ _ todo kept => kept ++ todo.map Prod.fst

/-- What has been retired has been deleted or is pending, each pointer as often. -/
def Accounts (log : List (Event α)) (s : State α) : Prop :=
  (deletions log ++ s.pending).Perm (retirements log)

theorem deletions_deleted (log : List (Event α)) (ps : List α) :
    deletions (log ++ ps.map .deleted) = deletions log ++ ps ∧
      retirements (log ++ ps.map .deleted) = retirements log := by
  simp [deletions, retirements, List.filterMap_append, List.filterMap_map]

section Accounts

variable {log : List (Event α)} {s s' : State α} (h : Accounts log s)
include h

/-- A step that is not observed. -/
theorem Accounts.silent (hpending : s'.pending.Perm s.pending) :
    Accounts (log ++ (none : Option (Event α)).toList) s' := by
  rw [Option.toList_none, List.append_nil]
  exact (hpending.append_left _).trans h

/-- An `acquire` returns. -/
theorem Accounts.acquired (hpending : s'.pending = s.pending) (t : ℕ) (slot : Option ℕ) :
    Accounts (log ++ [.acquired t slot]) s' := by
  rw [Accounts] at h ⊢
  simpa [deletions, retirements, hpending] using h

end Accounts

structure Inv (bank : ℕ → ℕ) (numThreads : ℕ) (s : State α) : Prop where
  mem : Discipline bank s.mem
  found : ∀ t ptr slot, s.calls t = .found ptr slot → slot < maxHazardPtrs
  uses : ∀ u ∈ s.uses, Held bank numThreads s.mem u
  scan : s.scan.Ok numThreads s.mem

theorem inv_new (bank : ℕ → ℕ) (numThreads : ℕ) : Inv bank numThreads (State.new : State α) := by
  refine ⟨discipline_new bank, fun t ptr slot h => ?_, fun u hu => absurd hu List.not_mem_nil,
    trivial⟩
  cases h

section Steps

variable {bank : ℕ → ℕ} {numThreads : ℕ} {s s' : State α}

theorem Inv.goto (hinv : Inv bank numThreads s) {t : ℕ} {call : Call α}
    (hcall : ∀ ptr slot, call = .found ptr slot → slot < maxHazardPtrs) :
    Inv bank numThreads (s.goto t call) := by
  refine ⟨hinv.mem, fun t' ptr slot hfound => ?_, hinv.uses, hinv.scan⟩
  simp only [State.goto] at hfound
  by_cases ht : t' = t
  · subst ht
    rw [Function.update_self] at hfound
    exact hcall ptr slot hfound
  · rw [Function.update_of_ne ht] at hfound
    exact hinv.found t' ptr slot hfound

/-- The scan goes on. -/
theorem Inv.scanned (hinv : Inv bank numThreads s) {scan : Scan α}
    (hscan : scan.Ok numThreads s.mem) : Inv bank numThreads { s with scan := scan } :=
  ⟨hinv.mem, hinv.found, hinv.uses, hscan⟩

/-- A scan begins: nothing has been looked for yet. -/
theorem inv_beginScan (hinv : Inv bank numThreads s) (t : ℕ) :
    Inv bank numThreads (s.beginScan t) := by
  unfold State.beginScan
  split
  · exact hinv
  · refine Inv.goto ?_ (fun _ _ h => by cases h)
    exact hinv.scanned ⟨le_rfl, fun _ h => absurd h List.not_mem_nil,
      fun _ _ j' hj' => absurd hj' (Nat.not_lt_zero j')⟩

theorem inv_retire (hinv : Inv bank numThreads s) (t : ℕ) (ptr : Option α) :
    Inv bank numThreads (s.retire t ptr).1 := by
  cases ptr with
  | none => exact hinv
  | some p =>
    have hpushed : Inv bank numThreads { s with retired := s.retired ++ [p] } :=
      ⟨hinv.mem, hinv.found, hinv.uses, hinv.scan⟩
    show Inv bank numThreads (ite _ _ _)
    split
    · exact inv_beginScan hpushed t
    · exact hpushed

/-- All slots have been looked at. -/
theorem inv_unheld (hinv : Inv bank numThreads s) {t j : ℕ} {start : View ℕ Location}
    {marks : List (α × Bool)} {p : α} {todo : List α}
    (hscan : s.scan = .marking t start marks (p :: todo) j)
    (hend : numThreads * maxHazardPtrs ≤ j) :
    Inv bank numThreads { s with scan := .marking t start (marks ++ [(p, false)]) todo 0 } := by
  have hok := hinv.scan
  rw [hscan] at hok
  refine hinv.scanned ⟨hok.1, fun q hq j' hj' => ?_,
    fun _ _ j' hj' => absurd hj' (Nat.not_lt_zero j')⟩
  rcases List.mem_append.mp hq with hq | hq
  · exact hok.2.1 q hq j' hj'
  · cases List.mem_singleton.mp hq
    exact hok.2.2 _ rfl j' (hj'.trans_le hend)

variable (hbank : OwnBanks bank) (hinv : Inv bank numThreads s)
include hbank hinv

/-- A step of memory. -/
theorem Inv.grown {mem : Mem α} (h : Discipline bank mem ∧ Grows bank s.mem mem) :
    Inv bank numThreads { s with mem := mem } :=
  ⟨h.1, hinv.found, fun u hu => (hinv.uses u hu).grows h.2 hbank hinv.mem, hinv.scan.grows h.2⟩

theorem inv_use {t slot : ℕ} {write : Bool} (ht : bank t < numThreads)
    (hslot : slot < maxHazardPtrs) (h : s.use bank t slot write = some s') :
    Inv bank numThreads s' := by
  unfold State.use at h
  split at h
  · rename_i p view hlast
    cases h
    have htouch := hinv.grown hbank (discipline_touch hinv.mem t p write)
    refine ⟨htouch.mem, htouch.found, fun u hu => ?_, htouch.scan⟩
    rcases List.mem_cons.mp hu with rfl | hu
    · rw [List.getLast?_eq_getElem?] at hlast
      refine ⟨Domain.place_lt ht hslot, (place_div hslot).symm, List.mem_cons_self,
        ⟨_, hlast, rfl⟩, fun i store hi hstore => ?_⟩
      -- there is no later store yet
      have hbound : i < (s.mem.history (.slot (place (bank t) slot))).length :=
        (List.getElem?_eq_some_iff.mp hstore).1
      simp only at hi
      omega
    · exact htouch.uses u hu
  · cases h

theorem inv_delete {t : ℕ} {start : View ℕ Location} {p : α} {todo : List (α × Bool)}
    {kept : List α} (hscan : s.scan = .sorting t start ((p, false) :: todo) kept) :
    Inv bank numThreads
      { s with mem := s.mem.touch t p true, scan := .sorting t start todo kept } := by
  have htouch := hinv.grown hbank (discipline_touch hinv.mem t p true)
  have hok := htouch.scan
  simp only [hscan] at hok
  exact htouch.scanned ⟨hok.1, fun q hq => hok.2 q (List.mem_cons_of_mem _ hq)⟩

section Scanning

variable {t j : ℕ} {start : View ℕ Location} {marks : List (α × Bool)} {p : α} {todo : List α}
  (hscan : s.scan = .marking t start marks (p :: todo) j)
include hscan

theorem inv_hazardous {i : ℕ} {mem : Mem α}
    (hload : s.mem.acquire t (.slot j) i = some (some p, mem)) :
    Inv bank numThreads
      { s with mem := mem, scan := .marking t start (marks ++ [(p, true)]) todo 0 } := by
  have hgrown := hinv.grown hbank (discipline_acquire hinv.mem hload)
  have hok := hgrown.scan
  simp only [hscan] at hok
  refine hgrown.scanned ⟨hok.1, fun q hq => hok.2.1 q ?_,
    fun _ _ j' hj' => absurd hj' (Nat.not_lt_zero j')⟩
  simpa using hq

theorem inv_compared {i : ℕ} {value : Option α} {mem : Mem α}
    (hload : s.mem.acquire t (.slot j) i = some (value, mem)) (hvalue : value ≠ some p) :
    Inv bank numThreads
      { s with mem := mem, scan := .marking t start marks (p :: todo) (j + 1) } := by
  have hgrown := hinv.grown hbank (discipline_acquire hinv.mem hload)
  have hok := hgrown.scan
  have hstart := hinv.scan
  simp only [hscan] at hok hstart
  have hpassed := passed_acquire hinv.mem.causal hstart.1 hload hvalue
  refine hgrown.scanned ⟨hok.1, hok.2.1, fun q hq j' hj' => ?_⟩
  cases hq
  rcases Nat.lt_succ_iff_lt_or_eq.mp hj' with hlt | rfl
  · exact hok.2.2 _ rfl j' hlt
  · exact hpassed

end Scanning

theorem inv_stepped {o : Option (Event α)} (hs : Stepped bank numThreads s o s') :
    Inv bank numThreads s' := by
  cases hs with
  | began => exact hinv.goto fun _ _ h => by cases h
  | found hslot hload =>
    refine (hinv.grown hbank (discipline_acquire hinv.mem hload)).goto fun _ _ h => ?_
    cases h
    exact hslot
  | passed hload =>
    exact (hinv.grown hbank (discipline_acquire hinv.mem hload)).goto fun _ _ h => by cases h
  | full => exact hinv.goto fun _ _ h => by cases h
  | stored hpc =>
    have hslot := hinv.found _ _ _ hpc
    refine Inv.goto (hinv.grown hbank (discipline_release hinv.mem hbank hslot _)) ?_
    intro _ _ h
    cases h
  | released hslot => exact hinv.grown hbank (discipline_release hinv.mem hbank hslot none)
  | retired => exact inv_retire hinv _ _
  | scan => exact inv_beginScan hinv _
  | used ht hslot huse => exact inv_use hbank hinv ht hslot huse
  | accessed => exact hinv.grown hbank (discipline_touch hinv.mem _ _ _)
  | exchanged hexchange => exact hinv.grown hbank (discipline_exchange hinv.mem hexchange)
  | loaded hload => exact hinv.grown hbank (discipline_acquire hinv.mem hload)
  | marked hscan =>
    have hok := hinv.scan
    rw [hscan] at hok
    exact hinv.scanned ⟨hok.1, hok.2.1⟩
  | hazardous hscan hload => exact inv_hazardous hbank hinv hscan hload
  | compared hscan hload hvalue => exact inv_compared hbank hinv hscan hload hvalue
  | unheld hscan hend => exact inv_unheld hinv hscan hend
  | @ended t start kept hscan =>
    have hidle : Inv bank numThreads { s with retired := kept, scan := .idle } :=
      ⟨hinv.mem, hinv.found, hinv.uses, trivial⟩
    exact hidle.goto fun _ _ h => by cases h
  | kept hscan =>
    have hok := hinv.scan
    rw [hscan] at hok
    exact hinv.scanned ⟨hok.1, fun q hq => hok.2 q (List.mem_cons_of_mem _ hq)⟩
  | deleted hscan => exact inv_delete hbank hinv hscan

end Steps

theorem inv_trace [DecidableEq α] {bank : ℕ → ℕ} (hbank : OwnBanks bank) {numThreads : ℕ}
    {log : List (Event α)} {s : State α} (h : Trace (State.step bank numThreads) State.new log s) :
    Inv bank numThreads s := by
  induction h with
  | nil => exact inv_new bank numThreads
  | step _ hs ih => exact inv_stepped hbank ih (step_stepped hs)

/-! ## What protects -/

section Protection

variable {bank : ℕ → ℕ} {numThreads : ℕ} {s : State α} (hinv : Inv bank numThreads s) {t : ℕ}
  {start : View ℕ Location} {p : α} {todo : List (α × Bool)} {kept : List α}
  (hscan : s.scan = .sorting t start ((p, false) :: todo) kept)
include hinv hscan

end Protection

variable [DecidableEq α]

/-- To the thread the slots from `j` on may still look as they did at first. -/
def Unaware (m : Mem α) (t j : ℕ) : Prop :=
  ∀ j' ≥ j, (m.views t).1 (.slot j') = 0 ∧ (m.history (.slot j'))[0]? = some ⟨none, 0⟩

omit [DecidableEq α] in
theorem acquire_unaware {m : Mem α} {t j : ℕ} (h : Unaware m t j) :
    m.acquire t (.slot j) 0 = some (none, m) := by
  obtain ⟨hview, hstore⟩ := h j le_rfl
  have hload : m.load t (.slot j) 0 = some ⟨none, 0⟩ :=
    Memory.load_eq_some.mpr ⟨hview.le, hstore⟩
  rw [Memory.acquire, hload, Option.map_some, Memory.learn_zero]

/-- The first loop of a scan that sees no hold. -/
theorem trace_unmarked {bank : ℕ → ℕ} {numThreads t j : ℕ} {s : State α}
    (start : View ℕ Location) (p : α) (h : Unaware s.mem t j)
    (hj : j ≤ numThreads * maxHazardPtrs) :
    Trace (State.step bank numThreads) { s with scan := .marking t start [] [p] j } []
      { s with scan := .sorting t start [(p, false)] [] } := by
  obtain ⟨k, hk⟩ := Nat.exists_eq_add_of_le hj
  induction k generalizing j with
  | zero =>
    have hend : ¬ j < numThreads * maxHazardPtrs := by omega
    have hlast : State.step bank numThreads { s with scan := .marking t start [] [p] j }
        (.reclaim 0) = some ({ s with scan := .marking t start [(p, false)] [] 0 }, none) := by
      simp only [State.step, State.reclaim, if_neg hend, List.nil_append]
    have hsort : State.step bank numThreads { s with scan := .marking t start [(p, false)] [] 0 }
        (.reclaim 0) = some ({ s with scan := .sorting t start [(p, false)] [] }, none) := rfl
    exact (Trace.single hlast).trans (.single hsort)
  | succ k ih =>
    have hlt : j < numThreads * maxHazardPtrs := by omega
    have hnext : State.step bank numThreads { s with scan := .marking t start [] [p] j }
        (.reclaim 0) = some ({ s with scan := .marking t start [] [p] (j + 1) }, none) := by
      simp only [State.step, State.reclaim, if_pos hlt, acquire_unaware h, Option.bind_eq_bind,
        Option.bind_some]
      rfl
    refine (Trace.single hnext).trans (ih (fun j' hj' => h j' (Nat.le_of_succ_le hj')) hlt ?_)
    omega

/-- An `acquire` that finds its first slot free. -/
theorem trace_acquired {bank : ℕ → ℕ} {numThreads t : ℕ} {s : State α} (ht : bank t < numThreads)
    (hidle : s.calls t = .idle) (h : Unaware s.mem t (place (bank t) 0)) (ptr : Option α) :
    Trace (State.step bank numThreads) s [.acquired t (some 0)]
      { s with mem := s.mem.release t (.slot (place (bank t) 0)) ptr } := by
  have hbegin : s.step bank numThreads (.acquire t ptr) =
      some (s.goto t (.searching ptr 0), none) := if_pos ⟨hidle, ht⟩
  have hload : (s.goto t (.searching ptr 0)).step bank numThreads (.next t 0) =
      some (s.goto t (.found ptr 0), none) := by
    have hslot : 0 < maxHazardPtrs := Nat.succ_pos 15
    simp only [State.step, State.next, State.goto, Function.update_self, if_pos hslot,
      acquire_unaware h, Option.bind_eq_bind, Option.bind_some, Function.update_idem]
  have hstore : (s.goto t (.found ptr 0)).step bank numThreads (.next t 0) =
      some ({ s with mem := s.mem.release t (.slot (place (bank t) 0)) ptr },
        some (.acquired t (some 0))) := by
    simp only [State.step, State.next, State.goto, Function.update_self, Function.update_idem]
    rw [← hidle, Function.update_eq_self]
  exact ((Trace.single hbegin).trans (.single hload)).trans (.single hstore)

/-- A thread has acquired a pointer, in slot `j`, and used it once. -/
def inUse (t j : ℕ) (p : α) : State α :=
  let held := (State.new : State α).mem.release t (.slot j) (some p)
  { State.new with
    mem := held.touch t p false
    uses := [⟨⟨t, p, false, (held.views t).2 t + 1⟩, j, (held.history (.slot j)).length - 1⟩] }

omit [DecidableEq α] in
theorem history_inUse (t j : ℕ) (p : α) :
    (inUse t j p).mem.history (.slot j) =
      [⟨none, 0⟩, ⟨some p, (State.new : State α).mem.published t (.slot j)⟩] :=
  Memory.history_release_self ..

theorem trace_inUse {bank : ℕ → ℕ} {numThreads t : ℕ} (ht : bank t < numThreads) (p : α) :
    Trace (State.step bank numThreads) State.new [.acquired t (some 0)]
      (inUse t (place (bank t) 0) p) := by
  have hacquire : Trace (State.step bank numThreads) (State.new : State α)
      [.acquired t (some 0)] _ := trace_acquired ht rfl (fun _ _ => ⟨rfl, rfl⟩) (some p)
  refine hacquire.trans (.single (a := Act.use t 0 false) (o := none) ?_)
  have hlast : ((State.new : State α).mem.release t (.slot (place (bank t) 0)) (some p)).history
      (.slot (place (bank t) 0)) = _ := history_inUse t _ p
  have hslot : 0 < maxHazardPtrs := Nat.succ_pos 15
  rw [State.step, if_pos ⟨rfl, ht, hslot⟩]
  simp only [State.use, hlast]
  simp only [inUse, hlast]
  rfl

omit [DecidableEq α] in
/-- The other threads have not heard of it. -/
theorem views_inUse {t t' : ℕ} (hne : t' ≠ t) (j : ℕ) (p : α) :
    (inUse t j p).mem.views t' = 0 :=
  (Memory.views_touch_of_ne _ hne p false).trans (Memory.views_release_of_ne _ hne _ _)

omit [DecidableEq α] in
theorem unaware_inUse {t t' : ℕ} (hne : t' ≠ t) (j : ℕ) (p : α) :
    Unaware (inUse t j p).mem t' 0 := by
  refine fun j' _ => ⟨congrFun (congrArg Prod.fst (views_inUse hne j p)) (.slot j'), ?_⟩
  by_cases hj : j' = j
  · rw [hj, history_inUse]
    rfl
  · have hother : (inUse t j p).mem.history (.slot j') = [⟨none, 0⟩] :=
      Memory.history_release_of_ne _ t (fun h => hj (Location.slot.inj h)) _
    rw [hother]
    rfl

/-- **What they do not protect.** Whichever threads and banks: one acquires a
pointer, and `acquire` has returned when the other retires it and scans.  The scan
may see no hold, and deletes the pointer while the slot holds it and in a data race
with its use. -/
theorem unseen_hold_deleted {bank : ℕ → ℕ} {numThreads t t' : ℕ} (ht : bank t < numThreads)
    (hne : t' ≠ t) (p : α) :
    ∃ (s s' : State α) (start : View ℕ Location) (store : Store ℕ Location (Option α)),
      Trace (State.step bank numThreads) State.new [.acquired t (some 0), .retired p] s ∧
      s.scan = .sorting t' start [(p, false)] [] ∧
      s.step bank numThreads (.reclaim 0) = some (s', some (.deleted p)) ∧
      (s.mem.history (.slot (place (bank t) 0))).getLast? = some store ∧ store.value = some p ∧
      ¬ s.mem.Ordered t' p true := by
  let used : State α := inUse t (place (bank t) 0) p
  let retired : State α := { used with retired := [p] }
  let scanning : State α := retired.goto t' .reclaiming
  let start : View ℕ Location := used.mem.views t'
  have hretire : used.step bank numThreads (.retire t' (some p)) =
      some (retired, some (.retired p)) := rfl
  have hscan : retired.step bank numThreads (.scan t') =
      some ({ scanning with scan := .marking t' start [] [p] 0 }, none) := rfl
  have hmark : Trace (State.step bank numThreads)
      { scanning with scan := .marking t' start [] [p] 0 } []
      { scanning with scan := .sorting t' start [(p, false)] [] } :=
    trace_unmarked start p (unaware_inUse hne _ p) (Nat.zero_le _)
  have htrace := (trace_inUse ht p).trans (.single hretire) |>.trans (.single hscan) |>.trans hmark
  refine ⟨_, _, start, _, htrace, rfl, rfl, congrArg List.getLast? (history_inUse t _ p), rfl, ?_⟩
  intro hordered
  have hknown := hordered _ List.mem_cons_self rfl (.inl rfl)
  have hnone : (used.mem.views t').2 t = 0 :=
    congrFun (congrArg Prod.snd (views_inUse hne _ p)) t
  exact absurd (hknown.trans hnone.le) (Nat.not_succ_le_zero _)

theorem unseen_hold_deleted_seven :
    ∃ (s s' : State ℕ) (start : View ℕ Location),
      Trace (State.step id 1) State.new [.acquired 0 (some 0), .retired 7] s ∧
      s.scan = .sorting 1 start [(7, false)] [] ∧
      s.step id 1 (.reclaim 0) = some (s', some (.deleted 7)) ∧ ¬ s.mem.Ordered 1 7 true := by
  obtain ⟨s, s', start, _, htrace, hscan, hdelete, _, _, hrace⟩ :=
    unseen_hold_deleted (show id 0 < 1 from Nat.one_pos) Nat.one_ne_zero 7
  exact ⟨s, s', start, htrace, hscan, hdelete, hrace⟩

end HftEngine.HazardWeak
