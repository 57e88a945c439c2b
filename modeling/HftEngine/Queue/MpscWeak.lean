import HftEngine.Lib.ReleaseAcquire
import HftEngine.Queue.MpscOrder

/-!
# The multi-producer single-consumer list with its memory orders

`push` and `pop` of `mpsc_queue.hpp` on release/acquire memory.  `tail_` and the
`next` of each node are atomic locations; `head_` is accessed by the consumer
only.  The exchange of `tail_` acquires and releases, the link store releases,
the consumer's load of `next` acquires and may miss a link that has been stored.

Creating a node writes it and deleting it does so too; every other use of a
node, atomic or not, conflicts with these two.

* `mpsc_weak_refines` — but for pops that return nothing, every run is one of
  the list under sequential consistency (`HftEngine.Mpsc`);
* `mpsc_weak_race_free` — no use of a node races with its creation or its
  deletion, or comes after it.
-/

namespace HftEngine.MpscWeak

open Lib
open Mpsc (Push Pop Holds)

variable {ι α : Type}

inductive Thread (ι : Type) where
  | producer (p : ι)
  | consumer
deriving Repr, DecidableEq

inductive Loc where
  | tail
  | next (node : ℕ)
deriving Repr, DecidableEq

abbrev Mem (ι α : Type) := Memory (Thread ι) Loc ℕ (Option ℕ) α

structure State (ι α : Type) where
  mem : Mem ι α
  head : ℕ
  allocated : ℕ
  deleted : List ℕ
  producers : ι → Push
  consumer : Pop α

/-- The constructor, which has returned before the threads start. -/
def State.new (stub : α) : State ι α where
  mem := .new (fun | .tail => some 0 | .next _ => none) fun _ => stub
  head := 0
  allocated := 1
  deleted := []
  producers := fun _ => .idle
  consumer := .idle

/-- The actions of `Mpsc.Act`; the load of `next` reads store number `i`. -/
inductive Act (ι α : Type) where
  | push (p : ι) (item : α)
  | produce (p : ι)
  | consume (i : ℕ)

namespace State

variable [DecidableEq ι]

/-- `new Node{item}`. -/
def push (s : State ι α) (p : ι) (item : α) : Option (State ι α × Option (Mpsc.Event ι α)) :=
  match s.producers p with
  | .idle =>
    some ({ s with
        mem := s.mem.write (.producer p) s.allocated item
        allocated := s.allocated + 1
        producers := Function.update s.producers p (.created s.allocated) },
      some (.created p s.allocated item))
  | _ => none

/-- `tail_.exchange(node)`, then `prev->next.store(node)`. -/
def produce (s : State ι α) (p : ι) : Option (State ι α × Option (Mpsc.Event ι α)) :=
  match s.producers p with
  | .idle => none
  | .created node => do
    let (old, mem) ← s.mem.exchange (.producer p) .tail (some node)
    let prev ← old
    some ({ s with
        mem := mem
        producers := Function.update s.producers p (.exchanged prev node) },
      some (.exchanged p node (s.mem.cells node)))
  | .exchanged prev node =>
    some ({ s with
        mem := (s.mem.touch (.producer p) prev false).release (.producer p) (.next prev)
          (some node)
        producers := Function.update s.producers p .idle },
      some (.linked p node))

/-- The next step of the consumer. -/
def consume (s : State ι α) (i : ℕ) : Option (State ι α × Option (Mpsc.Event ι α)) :=
  match s.consumer with
  | .idle => some ({ s with consumer := .headLoaded s.head }, some .began)
  | .headLoaded head => do
    let (next, mem) ← (s.mem.touch .consumer head false).acquire .consumer (.next head) i
    some ({ s with mem := mem, consumer := .nextLoaded head next }, some .probed)
  | .nextLoaded _ none => some ({ s with consumer := .idle }, some .missed)
  | .nextLoaded head (some next) =>
    let (data, mem) := s.mem.read .consumer next
    some ({ s with mem := mem, consumer := .dataRead head next data }, none)
  | .dataRead head next data =>
    some ({ s with head := next, consumer := .headStored head next data }, none)
  | .headStored head next data =>
    some ({ s with
        mem := s.mem.touch .consumer head true
        deleted := s.deleted ++ [head]
        consumer := .idle },
      some (.popped next data))

def step (s : State ι α) : Act ι α → Option (State ι α × Option (Mpsc.Event ι α))
  | .push p item => s.push p item
  | .produce p => s.produce p
  | .consume i => s.consume i

omit [DecidableEq ι] in
/-- The node that a thread's next step uses, and whether the step creates or
deletes it. -/
def uses (s : State ι α) : Thread ι → Option (ℕ × Bool)
  | .producer p =>
    match s.producers p with
    | .idle => some (s.allocated, true)
    | .created _ => none
    | .exchanged prev _ => some (prev, false)
  | .consumer =>
    match s.consumer with
    | .headLoaded head => some (head, false)
    | .nextLoaded _ (some next) => some (next, false)
    | .headStored head _ _ => some (head, true)
    | _ => none

end State

/-! ## What one step can do -/

section Steps

variable [DecidableEq ι]

inductive Stepped (s : State ι α) : Option (Mpsc.Event ι α) → State ι α → Prop
  | created {p : ι} {item : α} : s.producers p = .idle →
      Stepped s (some (.created p s.allocated item)) { s with
        mem := s.mem.write (.producer p) s.allocated item
        allocated := s.allocated + 1
        producers := Function.update s.producers p (.created s.allocated) }
  | exchanged {p : ι} {node prev : ℕ} {mem : Mem ι α} : s.producers p = .created node →
      s.mem.exchange (.producer p) .tail (some node) = some (some prev, mem) →
      Stepped s (some (.exchanged p node (s.mem.cells node))) { s with
        mem := mem
        producers := Function.update s.producers p (.exchanged prev node) }
  | linked {p : ι} {prev node : ℕ} : s.producers p = .exchanged prev node →
      Stepped s (some (.linked p node)) { s with
        mem := (s.mem.touch (.producer p) prev false).release (.producer p) (.next prev)
          (some node)
        producers := Function.update s.producers p .idle }
  | began : s.consumer = .idle →
      Stepped s (some .began) { s with consumer := .headLoaded s.head }
  | probed {head i : ℕ} {store : Store (Thread ι) Loc (Option ℕ)} :
      s.consumer = .headLoaded head → (s.mem.history (.next head))[i]? = some store →
      Stepped s (some .probed) { s with
        mem := (s.mem.touch .consumer head false).learn .consumer store.view
        consumer := .nextLoaded head store.value }
  | missed {head : ℕ} : s.consumer = .nextLoaded head none →
      Stepped s (some .missed) { s with consumer := .idle }
  | dataRead {head next : ℕ} : s.consumer = .nextLoaded head (some next) →
      Stepped s none { s with
        mem := s.mem.touch .consumer next false
        consumer := .dataRead head next (s.mem.cells next) }
  | headStored {head next : ℕ} {data : α} : s.consumer = .dataRead head next data →
      Stepped s none { s with head := next, consumer := .headStored head next data }
  | popped {head next : ℕ} {data : α} : s.consumer = .headStored head next data →
      Stepped s (some (.popped next data)) { s with
        mem := s.mem.touch .consumer head true
        deleted := s.deleted ++ [head]
        consumer := .idle }

variable {s s' : State ι α} {o : Option (Mpsc.Event ι α)}

theorem produce_stepped {p : ι} (hs : s.produce p = some (s', o)) : Stepped s o s' := by
  unfold State.produce at hs
  cases hpc : s.producers p with
  | idle =>
    rw [hpc] at hs
    cases hs
  | created node =>
    rw [hpc] at hs
    obtain ⟨⟨old, mem⟩, hexchange, hs⟩ := Option.bind_eq_some_iff.mp hs
    obtain ⟨prev, rfl, hs⟩ := Option.bind_eq_some_iff.mp hs
    cases hs
    exact .exchanged hpc hexchange
  | exchanged prev node =>
    rw [hpc] at hs
    cases hs
    exact .linked hpc

theorem consume_stepped {i : ℕ} (hs : s.consume i = some (s', o)) : Stepped s o s' := by
  unfold State.consume at hs
  cases hpc : s.consumer with
  | idle =>
    rw [hpc] at hs
    cases hs
    exact .began hpc
  | headLoaded head =>
    rw [hpc] at hs
    obtain ⟨⟨next, mem⟩, hload, hs⟩ := Option.bind_eq_some_iff.mp hs
    obtain ⟨store, _, hstore, rfl, rfl⟩ := Memory.acquire_eq_some hload
    cases hs
    exact .probed hpc hstore
  | nextLoaded head next =>
    rw [hpc] at hs
    cases next with
    | none =>
      cases hs
      exact .missed hpc
    | some next =>
      cases hs
      exact .dataRead hpc
  | dataRead head next data =>
    rw [hpc] at hs
    cases hs
    exact .headStored hpc
  | headStored head next data =>
    rw [hpc] at hs
    cases hs
    exact .popped hpc

/-- The inversion lemma of a step. -/
theorem step_stepped {a : Act ι α} (hs : s.step a = some (s', o)) : Stepped s o s' := by
  cases a with
  | push p item =>
    simp only [State.step, State.push] at hs
    split at hs
    · rename_i hpc
      cases hs
      exact .created hpc
    · cases hs
  | produce p => exact produce_stepped hs
  | consume i => exact consume_stepped hs

end Steps

/-! ## The list under sequential consistency -/

/-- What the latest store to a location wrote. -/
def pointer (m : Mem ι α) (l : Loc) : Option ℕ := (m.history l).getLast?.bind Store.value

/-- The consumer is taken to load nothing until it finds a link. -/
def settled : Pop α → Pop α
  | .headLoaded _ => .idle
  | .nextLoaded _ none => .idle
  | pc => pc

/-- The state in which every load would read the latest store. -/
def State.latest (s : State ι α) : Mpsc.State ι α where
  head := s.head
  tail := (pointer s.mem .tail).getD 0
  nodes := fun node => ⟨s.mem.cells node, pointer s.mem (.next node)⟩
  allocated := s.allocated
  deleted := s.deleted
  producers := s.producers
  consumer := settled s.consumer

theorem next_ne_tail (node : ℕ) : Loc.next node ≠ .tail := by
  intro h
  cases h

section Pointers

variable [DecidableEq ι] (m : Mem ι α) (t : Thread ι)

theorem pointer_release_self (l : Loc) (value : Option ℕ) :
    pointer (m.release t l value) l = value := by
  rw [pointer, Memory.history_release_self, List.getLast?_concat]
  rfl

theorem pointer_release_of_ne {l l' : Loc} (h : l' ≠ l) (value : Option ℕ) :
    pointer (m.release t l value) l' = pointer m l' := by
  rw [pointer, m.history_release_of_ne t h, pointer]

end Pointers

/-! ## What the threads know -/

/-- The head and the link that the consumer has found behind it. -/
def found? : Pop α → Option (ℕ × ℕ)
  | .nextLoaded head (some next) => some (head, next)
  | .dataRead head next _ => some (head, next)
  | .headStored head next _ => some (head, next)
  | _ => none

/-- The head the consumer has loaded. -/
def loaded? : Pop α → Option ℕ
  | .headLoaded head => some head
  | .nextLoaded head _ => some head
  | _ => none

/-- No link has been stored. -/
def Unlinked (m : Mem ι α) (node : ℕ) : Prop := m.history (.next node) = [⟨none, 0⟩]

/-- The producers' uses of a node are known. -/
def CoversProducers (m : Mem ι α) (v : View (Thread ι) Loc) (node : ℕ) : Prop :=
  ∀ a ∈ m.accesses, a.cell = node → a.thread ≠ .consumer → a.index ≤ v.2 a.thread

/-- The invariant. -/
structure Views (s : State ι α) : Prop where
  causal : s.mem.Causal
  allocated : ∀ a ∈ s.mem.accesses, a.cell < s.allocated
  fresh : ∀ node, s.allocated ≤ node → Unlinked s.mem node
  /-- Who exchanges `tail_` comes to know that the node it gets was created. -/
  tail : ∀ store, (s.mem.history .tail).getLast? = some store →
    ∃ node, store.value = some node ∧ s.mem.Covers store.view node false
  /-- Who finds a link comes to know that the node behind it was created, and
  that no producer will use the node before it again. -/
  links : ∀ node, Unlinked s.mem node ∨ ∃ store next,
    s.mem.history (.next node) = [⟨none, 0⟩, store] ∧ store.value = some next ∧
      (node ∉ s.deleted → s.mem.Covers store.view next false ∧
        CoversProducers s.mem store.view node)
  uses : ∀ a ∈ s.mem.accesses, a.thread ≠ .consumer → a.write = false → ¬ Unlinked s.mem a.cell
  own : ∀ p node, (s.producers p).node? = some node → s.mem.Ordered (.producer p) node false
  pending : ∀ p prev node, s.producers p = .exchanged prev node →
    s.mem.Ordered (.producer p) prev false
  front : s.mem.Ordered .consumer s.latest.front false
  loaded : ∀ head, loaded? s.consumer = some head → head = s.head
  found : ∀ head next, found? s.consumer = some (head, next) →
    s.mem.Ordered .consumer next false ∧ s.mem.Ordered .consumer head true ∧
      pointer s.mem (.next head) = some next

theorem pointer_unlinked {m : Mem ι α} {node : ℕ} (h : Unlinked m node) :
    pointer m (.next node) = none := by
  rw [pointer, h]
  rfl

theorem tail_eq {s : State ι α} {store : Store (Thread ι) Loc (Option ℕ)} {node : ℕ}
    (hlast : (s.mem.history .tail).getLast? = some store) (hvalue : store.value = some node) :
    s.latest.tail = node := by
  show (pointer s.mem .tail).getD 0 = node
  rw [pointer, hlast, Option.bind_some, hvalue, Option.getD_some]

theorem views_new (stub : α) : Views (State.new stub : State ι α) := by
  have hnew (t : Thread ι) (node : ℕ) (write : Bool) :
      (State.new stub : State ι α).mem.Ordered t node write := nofun
  constructor
  case causal => exact Memory.causal_new _ _
  case allocated => exact nofun
  case fresh => exact fun _ _ => rfl
  case tail =>
    intro store hlast
    cases hlast
    exact ⟨0, rfl, nofun⟩
  case links => exact fun _ => .inl rfl
  case uses => exact nofun
  case own => exact fun p node _ => hnew (.producer p) node false
  case pending => exact fun p prev _ _ => hnew (.producer p) prev false
  case front => exact hnew .consumer _ false
  case loaded => exact nofun
  case found => exact nofun

section Links

variable {s : State ι α} {q : List (ℕ × α)} (hs : Views s) (hq : Holds s.latest q)
include hs

theorem unlinked_iff (node : ℕ) :
    Unlinked s.mem node ↔ pointer s.mem (.next node) = none := by
  refine ⟨pointer_unlinked, fun hnone => ?_⟩
  rcases hs.links node with hunlinked | ⟨store, next, hhistory, hvalue, _⟩
  · exact hunlinked
  · rw [pointer, hhistory] at hnone
    exact absurd (hvalue.symm.trans hnone) nofun

/-- A store that is a link is the latest to its location. -/
theorem Views.of_link {store : Store (Thread ι) Loc (Option ℕ)} {node next : ℕ}
    (hstore : store ∈ s.mem.history (.next node)) (hvalue : store.value = some next) :
    pointer s.mem (.next node) = some next ∧ (node ∉ s.deleted →
      s.mem.Covers store.view next false ∧ CoversProducers s.mem store.view node) := by
  rcases hs.links node with hunlinked | ⟨store', next', hhistory, hvalue', hknown⟩
  · rw [hunlinked, List.mem_singleton] at hstore
    rw [hstore] at hvalue
    cases hvalue
  · rw [hhistory, List.mem_pair] at hstore
    rcases hstore with rfl | rfl
    · cases hvalue
    · rw [hvalue] at hvalue'
      cases hvalue'
      rw [pointer, hhistory]
      exact ⟨hvalue, hknown⟩

include hq

/-- The link of a node that has not been deleted leads to the next in the
list. -/
theorem adjacent_of_link {node next : ℕ} (hnext : pointer s.mem (.next node) = some next)
    (hlive : node ∉ s.deleted) : Adjacent (s.latest.front :: q.map Prod.fst) node next := by
  have hlt : node < s.allocated := by
    by_contra hge
    rw [pointer_unlinked (hs.fresh node (Nat.le_of_not_lt hge))] at hnext
    cases hnext
  rcases hq.owned.known node hlt with hlisted | hgone | ⟨p, hp⟩
  · exact hq.linked.adjacent_of_next hlisted hnext
  · exact absurd hgone hlive
  · have hnone : pointer s.mem (.next node) = none := (hq.owned.created p node hp).2.2.2
    rw [hnext] at hnone
    cases hnone

omit hs in
/-- What the consumer has found is the link of the front. -/
theorem front_of_found {head next : ℕ} (hfound : found? s.consumer = some (head, next)) :
    head = s.latest.front ∧ head ∉ s.deleted := by
  have hhead : head = s.latest.front := by
    have hok := hq.consumer
    unfold Mpsc.State.front
    cases hpc : s.consumer with
    | idle =>
      rw [hpc] at hfound
      cases hfound
    | headLoaded head' =>
      rw [hpc] at hfound
      cases hfound
    | nextLoaded head' next' =>
      cases next' with
      | none =>
        rw [hpc] at hfound
        cases hfound
      | some next' =>
        rw [hpc] at hfound
        cases hfound
        simp only [State.latest, hpc, settled] at hok ⊢
        exact hok.1
    | dataRead head' next' data =>
      rw [hpc] at hfound
      cases hfound
      simp only [State.latest, hpc, settled] at hok ⊢
      exact hok.1
    | headStored head' next' data =>
      rw [hpc] at hfound
      cases hfound
      simp only [State.latest, hpc, settled]
  refine ⟨hhead, fun hgone => (hq.owned.gone head hgone).2 ?_⟩
  rw [hhead]
  exact List.mem_cons_self

theorem adjacent_of_found {head next : ℕ} (hfound : found? s.consumer = some (head, next)) :
    Adjacent (s.latest.front :: q.map Prod.fst) head next :=
  adjacent_of_link hs hq (hs.found head next hfound).2.2 (front_of_found hq hfound).2

end Links

/-! ## Every step keeps what is known -/

section Keeps

variable [DecidableEq ι] {s : State ι α} {q : List (ℕ × α)}

theorem views_learn (hs : Views s) (t : Thread ι) {v : View (Thread ι) Loc}
    (hv : s.mem.Sound v) : Views { s with mem := s.mem.learn t v } where
  causal := Memory.causal_learn hs.causal t hv
  allocated := hs.allocated
  fresh := hs.fresh
  tail := hs.tail
  links := hs.links
  uses := hs.uses
  own p node hp := (hs.own p node hp).learn t v
  pending p prev node hp := (hs.pending p prev node hp).learn t v
  front := hs.front.learn t v
  loaded := hs.loaded
  found head next hfound :=
    have hfound' := hs.found head next hfound
    ⟨hfound'.1.learn t v, hfound'.2.1.learn t v, hfound'.2.2⟩

/-! Accesses to nodes. -/

theorem CoversProducers.touch {m : Mem ι α} {v : View (Thread ι) Loc} {node : ℕ}
    (h : CoversProducers m v node) {t : Thread ι} {cell : ℕ} (write : Bool)
    (hother : t = .consumer ∨ cell ≠ node) :
    CoversProducers (m.touch t cell write) v node := by
  intro a ha hcell ht
  rcases List.mem_cons.mp ha with rfl | ha
  · rcases hother with hconsumer | hne
    · exact absurd hconsumer ht
    · exact absurd hcell hne
  · exact h a ha hcell ht

omit [DecidableEq ι] in
theorem allocated_cons {accesses : List (Access (Thread ι) ℕ)} {n : ℕ}
    (h : ∀ a ∈ accesses, a.cell < n) {a : Access (Thread ι) ℕ} (ha : a.cell < n) :
    ∀ b ∈ a :: accesses, b.cell < n := by
  intro b hb
  rcases List.mem_cons.mp hb with rfl | hb
  · exact ha
  · exact h b hb

/-- An access leaves a link as it is, if it is no deletion of the node behind it
and no producer's use of the node before it. -/
theorem links_touch (hs : Views s) {t : Thread ι} {cell : ℕ} {write : Bool} {deleted : List ℕ}
    (n : ℕ)
    (h : ∀ next, pointer s.mem (.next n) = some next → n ∉ deleted → n ∉ s.deleted ∧
      (cell ≠ next ∨ false = false ∧ write = false) ∧ (t = .consumer ∨ cell ≠ n)) :
    Unlinked (s.mem.touch t cell write) n ∨ ∃ store next,
      (s.mem.touch t cell write).history (.next n) = [⟨none, 0⟩, store] ∧
        store.value = some next ∧
        (n ∉ deleted → (s.mem.touch t cell write).Covers store.view next false ∧
          CoversProducers (s.mem.touch t cell write) store.view n) := by
  rcases hs.links n with hunlinked | ⟨store, next, hhistory, hvalue, hknown⟩
  · exact .inl hunlinked
  · refine .inr ⟨store, next, hhistory, hvalue, fun hn => ?_⟩
    have hpointer : pointer s.mem (.next n) = some next := by
      rw [pointer, hhistory]
      exact hvalue
    obtain ⟨hlive, hnext, hnode⟩ := h next hpointer hn
    obtain ⟨hcovers, hproducers⟩ := hknown hlive
    exact ⟨Memory.covers_touch hcovers t hnext, hproducers.touch write hnode⟩

omit [DecidableEq ι] in
/-- The consumer's accesses are not the producers'. -/
theorem uses_cons (hs : Views s) {a : Access (Thread ι) ℕ}
    (ha : a.thread = .consumer ∨ a.write = true) :
    ∀ b ∈ a :: s.mem.accesses, b.thread ≠ .consumer → b.write = false →
      ¬ Unlinked s.mem b.cell := by
  intro b hb ht hwrite
  rcases List.mem_cons.mp hb with rfl | hb
  · rcases ha with hconsumer | htrue
    · exact absurd hconsumer ht
    · rw [hwrite] at htrue
      cases htrue
  · exact hs.uses b hb ht hwrite

/-- A use of a node by the consumer that is not its deletion. -/
theorem views_use (hs : Views s) {node : ℕ} (hlt : node < s.allocated) :
    Views { s with mem := s.mem.touch .consumer node false } where
  causal := Memory.causal_touch hs.causal .consumer node false
  allocated := allocated_cons hs.allocated hlt
  fresh := hs.fresh
  tail store hlast :=
    have ⟨last, hvalue, hcovers⟩ := hs.tail store hlast
    ⟨last, hvalue, Memory.covers_touch hcovers .consumer (.inr ⟨rfl, rfl⟩)⟩
  links n := links_touch hs n fun _ _ hn => ⟨hn, .inr ⟨rfl, rfl⟩, .inl rfl⟩
  uses := uses_cons hs (.inl rfl)
  own p n hp := (hs.own p n hp).touch .consumer (.inr ⟨rfl, rfl⟩)
  pending p prev n hp := (hs.pending p prev n hp).touch .consumer (.inr ⟨rfl, rfl⟩)
  front := hs.front.touch .consumer (.inr ⟨rfl, rfl⟩)
  loaded := hs.loaded
  found head next hfound :=
    have hfound' := hs.found head next hfound
    ⟨hfound'.1.touch .consumer (.inr ⟨rfl, rfl⟩), Memory.covers_own hfound'.2.1 node false,
      hfound'.2.2⟩

/-- A new node is one that nobody knows of. -/
theorem views_created (hs : Views s) (hq : Holds s.latest q) {p : ι} (item : α) :
    Views { s with
      mem := s.mem.write (.producer p) s.allocated item
      allocated := s.allocated + 1
      producers := Function.update s.producers p (.created s.allocated) } := by
  have hother {node : ℕ} (hlt : node < s.allocated) (write : Bool) :
      s.allocated ≠ node ∨ write = false ∧ true = false := .inl (Nat.ne_of_gt hlt)
  constructor
  case causal => exact Memory.causal_write hs.causal _ _ item
  case allocated =>
    exact allocated_cons (fun a ha => Nat.lt_succ_of_lt (hs.allocated a ha)) (Nat.lt_succ_self _)
  case fresh => exact fun node hge => hs.fresh node (Nat.le_of_succ_le hge)
  case tail =>
    intro store hlast
    obtain ⟨node, hvalue, hcovers⟩ := hs.tail store hlast
    have hlt := hq.owned.listed _ hq.linked.tail_mem
    rw [tail_eq (s := s) hlast hvalue] at hlt
    exact ⟨node, hvalue, Memory.covers_touch hcovers _ (hother hlt false)⟩
  case links =>
    refine fun n => links_touch hs n fun next hnext hn => ?_
    have hadj := adjacent_of_link hs hq hnext hn
    have hlt := hq.owned.listed _ hadj.left_mem
    exact ⟨hn, .inl (Nat.ne_of_gt (hq.owned.listed _ hadj.right_mem)), .inr (Nat.ne_of_gt hlt)⟩
  case uses => exact uses_cons hs (.inr rfl)
  case own =>
    intro p' node hp'
    by_cases heq : p' = p
    · -- its own new node, to which there has been no access
      subst heq
      simp only [Function.update_self] at hp'
      cases hp'
      refine Memory.covers_own (fun a ha hcell _ => ?_) s.allocated true
      exact absurd hcell (Nat.ne_of_lt (hs.allocated a ha))
    · simp only [Function.update_of_ne heq] at hp'
      have hlt := hq.owned.node_lt hq.linked hp'
      exact (hs.own p' node hp').touch _ (hother hlt false)
  case pending =>
    intro p' prev node hp'
    rcases Mpsc.producer_cases hp' with ⟨_, hnew⟩ | ⟨_, hp'⟩
    · cases hnew
    · have hadj := (hq.linked.pending p' prev node hp').1
      exact (hs.pending p' prev node hp').touch _ (hother (hq.owned.listed _ hadj.left_mem) false)
  case front =>
    exact hs.front.touch _ (hother (hq.owned.listed _ List.mem_cons_self) false)
  case loaded => exact hs.loaded
  case found =>
    intro head next hfound
    obtain ⟨hnext, hhead, hlink⟩ := hs.found head next hfound
    have hadj := adjacent_of_found hs hq hfound
    exact ⟨hnext.touch _ (hother (hq.owned.listed _ hadj.right_mem) false),
      hhead.touch _ (hother (hq.owned.listed _ hadj.left_mem) true), hlink⟩

theorem views_exchanged (hs : Views s) {p : ι} {node prev : ℕ} {mem : Mem ι α}
    (hp : s.producers p = .created node)
    (hexchange : s.mem.exchange (.producer p) .tail (some node) = some (some prev, mem)) :
    Views { s with
      mem := mem
      producers := Function.update s.producers p (.exchanged prev node) } := by
  have hcausal := Memory.causal_exchange hs.causal hexchange
  obtain ⟨store, hlast, hvalue, rfl⟩ := Memory.exchange_eq_some hexchange
  have hl := views_learn hs (.producer p)
    (hs.causal.stores .tail store (List.mem_of_getLast? hlast))
  obtain ⟨prev', hvalue', hcovers⟩ := hs.tail store hlast
  obtain rfl : prev' = prev := by
    rw [hvalue] at hvalue'
    injection hvalue' with hvalue'
    exact hvalue'.symm
  have hown : (s.producers p).node? = some node := by rw [hp]; rfl
  have hnext (n : ℕ) : ((s.mem.learn (.producer p) store.view).release (.producer p) .tail
      (some node)).history (.next n) = s.mem.history (.next n) :=
    Memory.history_release_of_ne _ _ (next_ne_tail n) _
  constructor
  case causal => exact hcausal
  case allocated => exact hs.allocated
  case fresh =>
    intro n hge
    rw [Unlinked, hnext]
    exact hs.fresh n hge
  case tail =>
    intro store' hlast'
    rw [Memory.history_release_self, List.getLast?_concat] at hlast'
    cases hlast'
    exact ⟨node, rfl, hl.own p node hown⟩
  case links =>
    intro n
    rw [Unlinked, hnext]
    exact hs.links n
  case uses =>
    intro a ha
    rw [Unlinked, hnext]
    exact hs.uses a ha
  case own =>
    intro p' n hp'
    refine (hl.own p' n ?_).release (.producer p) .tail (some node)
    by_cases heq : p' = p
    · subst heq
      simp only [Function.update_self] at hp'
      cases hp'
      exact hown
    · simp only [Function.update_of_ne heq] at hp'
      exact hp'
  case pending =>
    intro p' prev' n hp'
    rcases Mpsc.producer_cases hp' with ⟨rfl, hnew⟩ | ⟨_, hp'⟩
    · -- it has read the store that made the node it gets the last
      cases hnew
      have hordered :
          (s.mem.learn (.producer p') store.view).Ordered (.producer p') prev' false := by
        rw [Memory.Ordered, Memory.views_learn_self]
        exact Memory.Covers.mono hcovers le_sup_right
      exact hordered.release (.producer p') .tail (some node)
    · exact (hl.pending p' prev' n hp').release (.producer p) .tail (some node)
  case front => exact hl.front.release (.producer p) .tail (some node)
  case loaded => exact hs.loaded
  case found =>
    intro head next hfound
    obtain ⟨hnext', hhead, hlink⟩ := hl.found head next hfound
    refine ⟨hnext'.release (.producer p) .tail (some node),
      hhead.release (.producer p) .tail (some node), ?_⟩
    rw [pointer, hnext]
    exact hlink

/-- A producer that is to link a node knows all uses of it by producers: nobody
but itself has used it since it was created. -/
theorem producers_link (hs : Views s) {p : ι} {prev node : ℕ}
    (hp : s.producers p = .exchanged prev node) (hunlinked : Unlinked s.mem prev) :
    CoversProducers (s.mem.touch (.producer p) prev false)
      ((s.mem.touch (.producer p) prev false).views (.producer p)) prev := by
  intro a ha hcell ht
  have hordered := Memory.covers_own (hs.pending p prev node hp) prev false
  rcases List.mem_cons.mp ha with rfl | hold
  · exact (Memory.causal_touch hs.causal (.producer p) prev false).made _ List.mem_cons_self
  · cases hwrite : a.write with
    | true => exact hordered a ha hcell (.inr hwrite)
    | false =>
      rw [← hcell] at hunlinked
      exact absurd hunlinked (hs.uses a hold ht hwrite)

/-- The link store hands on what its producer knows of its own node, and of the
one before it, which no producer uses again. -/
theorem views_linked (hs : Views s) (hq : Holds s.latest q) {p : ι} {prev node : ℕ}
    (hp : s.producers p = .exchanged prev node) :
    Views { s with
      mem := (s.mem.touch (.producer p) prev false).release (.producer p) (.next prev)
        (some node)
      producers := Function.update s.producers p .idle } := by
  obtain ⟨hadj, hnone⟩ := hq.linked.pending p prev node hp
  have hunlinked : Unlinked s.mem prev := (unlinked_iff hs prev).mpr hnone
  have hown := hs.own p node (by rw [hp]; rfl)
  have hlt := hq.owned.listed _ hadj.left_mem
  set m := s.mem.touch (.producer p) prev false with hm
  have hcausal : m.Causal := Memory.causal_touch hs.causal (.producer p) prev false
  have hhistory : m.history (.next prev) = [⟨none, 0⟩] := hunlinked
  have hsame {l : Loc} (hl : l ≠ .next prev) :
      (m.release (.producer p) (.next prev) (some node)).history l = s.mem.history l :=
    m.history_release_of_ne _ hl _
  have hself : (m.release (.producer p) (.next prev) (some node)).history (.next prev) =
      [⟨none, 0⟩, ⟨some node, m.published (.producer p) (.next prev)⟩] := by
    rw [Memory.history_release_self, hhistory]
    rfl
  have hnext {n : ℕ} (hn : n ≠ prev) : Loc.next n ≠ .next prev := fun h => hn (Loc.next.inj h)
  have hlinked : ¬ Unlinked (m.release (.producer p) (.next prev) (some node)) prev := by
    rw [Unlinked, hself]
    exact nofun
  constructor
  case causal =>
    refine Memory.causal_release hcausal ?_ _
    have hknown := (hcausal.views (.producer p)).known (.next prev)
    rw [hhistory] at hknown
    rw [Memory.Latest, hhistory]
    exact le_antisymm hknown (Nat.le_add_left 1 _)
  case allocated => exact allocated_cons hs.allocated hlt
  case fresh =>
    intro n hge
    rw [Unlinked, hsame (hnext (Nat.ne_of_gt (hlt.trans_le hge)))]
    exact hs.fresh n hge
  case tail =>
    intro store hlast
    rw [hsame (next_ne_tail prev).symm] at hlast
    obtain ⟨last, hvalue, hcovers⟩ := hs.tail store hlast
    exact ⟨last, hvalue, Memory.covers_touch hcovers _ (.inr ⟨rfl, rfl⟩)⟩
  case links =>
    intro n
    by_cases hn : n = prev
    · subst hn
      exact .inr ⟨_, node, hself, rfl, fun _ =>
        ⟨Memory.covers_own hown n false, producers_link hs hp hunlinked⟩⟩
    · rw [Unlinked, hsame (hnext hn)]
      exact links_touch hs n fun _ _ hn' => ⟨hn', .inr ⟨rfl, rfl⟩, .inr (Ne.symm hn)⟩
  case uses =>
    intro a ha ht hwrite
    by_cases hn : a.cell = prev
    · rw [hn]
      exact hlinked
    · rw [Unlinked, hsame (hnext hn)]
      rcases List.mem_cons.mp ha with rfl | ha
      · exact absurd rfl hn
      · exact hs.uses a ha ht hwrite
  case own =>
    intro p' n hp'
    by_cases heq : p' = p
    · subst heq
      simp only [Function.update_self] at hp'
      cases hp'
    · simp only [Function.update_of_ne heq] at hp'
      exact ((hs.own p' n hp').touch _ (.inr ⟨rfl, rfl⟩)).release _ _ _
  case pending =>
    intro p' prev' n hp'
    rcases Mpsc.producer_cases hp' with ⟨_, hnew⟩ | ⟨_, hp'⟩
    · cases hnew
    · exact ((hs.pending p' prev' n hp').touch _ (.inr ⟨rfl, rfl⟩)).release _ _ _
  case front => exact (hs.front.touch _ (.inr ⟨rfl, rfl⟩)).release _ _ _
  case loaded => exact hs.loaded
  case found =>
    intro head next hfound
    obtain ⟨hnext', hhead, hlink⟩ := hs.found head next hfound
    -- the consumer has found the link of its head, which is not the one stored now
    have hne : head ≠ prev := by
      rintro rfl
      rw [pointer_unlinked hunlinked] at hlink
      cases hlink
    refine ⟨(hnext'.touch _ (.inr ⟨rfl, rfl⟩)).release _ _ _,
      (hhead.touch _ (.inl hne.symm)).release _ _ _, ?_⟩
    rw [pointer, hsame (hnext hne)]
    exact hlink

omit [DecidableEq ι] in
theorem views_began (hs : Views s) (hpc : s.consumer = .idle) :
    Views { s with consumer := .headLoaded s.head } := by
  have hfront := hs.front
  simp only [Mpsc.State.front, State.latest, hpc, settled] at hfront
  refine { hs with front := hfront, loaded := ?_, found := ?_ }
  · intro head hhead
    cases hhead
    rfl
  · intro head next hfound
    cases hfound

/-- A link that the consumer finds is the latest store, and tells it all that it
needs to know. -/
theorem views_probed (hs : Views s) (hq : Holds s.latest q) {head i : ℕ}
    {store : Store (Thread ι) Loc (Option ℕ)} (hpc : s.consumer = .headLoaded head)
    (hstore : (s.mem.history (.next head))[i]? = some store) :
    Views { s with
      mem := (s.mem.touch .consumer head false).learn .consumer store.view
      consumer := .nextLoaded head store.value } := by
  obtain rfl : head = s.head := hs.loaded head (by rw [hpc]; rfl)
  have hfront : s.latest.front = s.head := by
    simp only [Mpsc.State.front, State.latest, hpc, settled]
  have hlisted : s.head ∈ s.latest.front :: q.map Prod.fst := by
    rw [hfront]
    exact List.mem_cons_self
  have huse := views_use hs (hq.owned.listed _ hlisted)
  have hlive : s.head ∉ s.deleted := fun hgone => (hq.owned.gone _ hgone).2 hlisted
  have hlearn := views_learn huse .consumer
    (huse.causal.stores (.next s.head) store (List.mem_of_getElem? hstore))
  have hfront' := hlearn.front
  simp only [Mpsc.State.front, State.latest, hpc, settled] at hfront'
  refine { hlearn with front := ?_, loaded := ?_, found := ?_ }
  · cases hvalue : store.value <;> simpa only [Mpsc.State.front, State.latest, settled]
  · intro head hhead
    cases hhead
    rfl
  · intro head next hfound
    have hvalue : store.value = some next := by
      cases hstored : store.value with
      | none =>
        simp only [hstored] at hfound
        cases hfound
      | some next' =>
        simp only [hstored] at hfound
        cases hfound
        rfl
    obtain rfl : head = s.head := by
      rw [hvalue] at hfound
      cases hfound
      rfl
    obtain ⟨hpointer, hknown⟩ := huse.of_link (List.mem_of_getElem? hstore) hvalue
    obtain ⟨hcovers, hproducers⟩ := hknown hlive
    have hview := Memory.views_learn_self (s.mem.touch .consumer s.head false) .consumer store.view
    refine ⟨?_, ?_, hpointer⟩
    · rw [Memory.Ordered, hview]
      exact Memory.Covers.mono hcovers le_sup_right
    · intro a ha hcell _
      by_cases ht : a.thread = .consumer
      · have hmade := hlearn.causal.made a ha
        rw [ht] at hmade ⊢
        exact hmade
      · rw [hview]
        exact (hproducers a ha hcell ht).trans (le_max_right _ _)

omit [DecidableEq ι] in
theorem views_missed (hs : Views s) {head : ℕ} (hpc : s.consumer = .nextLoaded head none) :
    Views { s with consumer := .idle } := by
  have hfront := hs.front
  simp only [Mpsc.State.front, State.latest, hpc, settled] at hfront
  refine { hs with front := hfront, loaded := ?_, found := ?_ }
  · intro head hhead
    cases hhead
  · intro head next hfound
    cases hfound

theorem views_dataRead (hs : Views s) (hq : Holds s.latest q) {head next : ℕ}
    (hpc : s.consumer = .nextLoaded head (some next)) :
    Views { s with
      mem := s.mem.touch .consumer next false
      consumer := .dataRead head next (s.mem.cells next) } := by
  have hadj := adjacent_of_found hs hq (by rw [hpc]; rfl)
  have huse := views_use hs (hq.owned.listed _ hadj.right_mem)
  have hfront := huse.front
  have hfound := huse.found head next (by simp only [hpc]; rfl)
  simp only [Mpsc.State.front, State.latest, hpc, settled] at hfront
  refine { huse with front := hfront, loaded := ?_, found := ?_ }
  · intro head' hhead
    cases hhead
  · intro head' next' hfound'
    cases hfound'
    exact hfound

omit [DecidableEq ι] in
theorem views_headStored (hs : Views s) (hq : Holds s.latest q) {head next : ℕ} {data : α}
    (hpc : s.consumer = .dataRead head next data) :
    Views { s with head := next, consumer := .headStored head next data } := by
  have hfound := hs.found head next (by rw [hpc]; rfl)
  have hhead : head = s.latest.front := (front_of_found hq (by rw [hpc]; rfl)).1
  have hfront := hs.front
  rw [← hhead] at hfront
  refine { hs with front := hfront, loaded := ?_, found := ?_ }
  · intro head' hhead
    cases hhead
  · intro head' next' hfound'
    cases hfound'
    exact hfound

/-- The node that is deleted is the front of the list: nobody else will use
it. -/
theorem views_popped (hs : Views s) (hq : Holds s.latest q) {head next : ℕ} {data : α}
    (hpc : s.consumer = .headStored head next data) :
    Views { s with
      mem := s.mem.touch .consumer head true
      deleted := s.deleted ++ [head]
      consumer := .idle } := by
  have hfound : found? s.consumer = some (head, next) := by rw [hpc]; rfl
  obtain ⟨hnext, _, hlink⟩ := hs.found head next hfound
  have hadj := adjacent_of_found hs hq hfound
  obtain ⟨hhead, hlive⟩ := front_of_found hq hfound
  have hlt := hq.owned.listed _ hadj.left_mem
  have hbehind {n n' : ℕ} (h : Adjacent (s.latest.front :: q.map Prod.fst) n n') :
      head ≠ n' ∨ false = false ∧ true = false := by
    refine .inl fun heq => (List.nodup_cons.mp hq.linked.nodup).1 ?_
    rw [← hhead, heq]
    exact h.right_mem_tail
  have hlinked {n : ℕ} (h : pointer s.mem (.next n) = none) :
      head ≠ n ∨ false = false ∧ true = false := by
    left
    rintro rfl
    rw [hlink] at h
    cases h
  constructor
  case causal => exact Memory.causal_touch hs.causal .consumer head true
  case allocated => exact allocated_cons hs.allocated hlt
  case fresh => exact hs.fresh
  case tail =>
    intro store hlast
    obtain ⟨node, hvalue, hcovers⟩ := hs.tail store hlast
    have htail := hq.linked.tail_next
    rw [tail_eq (s := s) hlast hvalue] at htail
    exact ⟨node, hvalue, Memory.covers_touch hcovers .consumer (hlinked htail)⟩
  case links =>
    refine fun n => links_touch hs n fun next' hnext' hn => ?_
    rw [List.mem_append, not_or] at hn
    exact ⟨hn.1, hbehind (adjacent_of_link hs hq hnext' hn.1), .inl rfl⟩
  case uses => exact uses_cons hs (.inl rfl)
  case own =>
    intro p node hp
    refine (hs.own p node hp).touch .consumer ?_
    cases hproducer : s.producers p with
    | idle =>
      simp only [hproducer] at hp
      cases hp
    | created node' =>
      simp only [hproducer] at hp
      cases hp
      exact hlinked (hq.owned.created p node hproducer).2.2.2
    | exchanged prev node' =>
      simp only [hproducer] at hp
      cases hp
      exact hbehind (hq.linked.pending p prev node hproducer).1
  case pending =>
    intro p prev node hp
    exact (hs.pending p prev node hp).touch .consumer
      (hlinked (hq.linked.pending p prev node hp).2)
  case front =>
    have hok := hq.consumer
    simp only [State.latest, hpc, settled] at hok
    have hordered := Memory.covers_own hnext head true
    rw [hok.1] at hordered
    exact hordered
  case loaded => exact nofun
  case found => exact nofun

theorem views_stepped (hs : Views s) (hq : Holds s.latest q) {s' : State ι α}
    {o : Option (Mpsc.Event ι α)} (hstep : Stepped s o s') : Views s' := by
  cases hstep with
  | created _ => exact views_created hs hq _
  | exchanged hp hexchange => exact views_exchanged hs hp hexchange
  | linked hp => exact views_linked hs hq hp
  | began hpc => exact views_began hs hpc
  | probed hpc hstore => exact views_probed hs hq hpc hstore
  | missed hpc => exact views_missed hs hpc
  | dataRead hpc => exact views_dataRead hs hq hpc
  | headStored hpc => exact views_headStored hs hq hpc
  | popped hpc => exact views_popped hs hq hpc

end Keeps

/-! ## Every step is one of the list, or none -/

/-- Whether an event is more than a `pop` that has found nothing. -/
def lasting : Mpsc.Event ι α → Bool
  | .began => false
  | .probed => false
  | .missed => false
  | _ => true

section Refines

variable [DecidableEq ι] {s : State ι α} {q : List (ℕ × α)}

theorem refines_created (hs : Views s) {p : ι} {item : α} (hp : s.producers p = .idle) :
    s.latest.step (.push p item) = some (State.latest { s with
        mem := s.mem.write (.producer p) s.allocated item
        allocated := s.allocated + 1
        producers := Function.update s.producers p (.created s.allocated) },
      some (.created p s.allocated item)) := by
  have hnodes : Function.update s.latest.nodes s.allocated ⟨item, none⟩ =
      fun node => ⟨(s.mem.write (.producer p) s.allocated item).cells node,
        pointer s.mem (.next node)⟩ := by
    funext node
    by_cases hnode : node = s.allocated
    · subst hnode
      rw [Function.update_self, pointer_unlinked (hs.fresh s.allocated le_rfl),
        Memory.cells_write_self]
    · rw [Function.update_of_ne hnode, Memory.cells_write_of_ne _ _ hnode]
      rfl
  have hidle : s.latest.producers p = .idle := hp
  simp only [Mpsc.State.step, Mpsc.State.push, hidle]
  rw [show s.latest.allocated = s.allocated from rfl, hnodes]
  rfl

theorem refines_exchanged {p : ι} {node prev : ℕ} {mem : Mem ι α}
    (hp : s.producers p = .created node)
    (hexchange : s.mem.exchange (.producer p) .tail (some node) = some (some prev, mem)) :
    s.latest.step (.produce p) = some (State.latest { s with
        mem := mem
        producers := Function.update s.producers p (.exchanged prev node) },
      some (.exchanged p node (s.mem.cells node))) := by
  obtain ⟨store, hlast, hvalue, rfl⟩ := Memory.exchange_eq_some hexchange
  have htail := tail_eq (s := s) hlast hvalue
  have hnodes : s.latest.nodes = fun n => ⟨s.mem.cells n, pointer ((s.mem.learn (.producer p)
      store.view).release (.producer p) .tail (some node)) (.next n)⟩ := by
    funext n
    rw [pointer_release_of_ne _ _ (next_ne_tail n)]
    rfl
  have hcreated : s.latest.producers p = .created node := hp
  simp only [Mpsc.State.step, Mpsc.State.produce, hcreated, htail]
  rw [hnodes]
  simp only [State.latest, pointer_release_self, Option.getD_some]
  rfl

theorem refines_linked {p : ι} {prev node : ℕ} (hp : s.producers p = .exchanged prev node) :
    s.latest.step (.produce p) = some (State.latest { s with
        mem := (s.mem.touch (.producer p) prev false).release (.producer p) (.next prev)
          (some node)
        producers := Function.update s.producers p .idle },
      some (.linked p node)) := by
  have hnodes : Function.update s.latest.nodes prev { s.latest.nodes prev with next := some node } =
      fun n => ⟨s.mem.cells n, pointer ((s.mem.touch (.producer p) prev false).release
        (.producer p) (.next prev) (some node)) (.next n)⟩ := by
    funext n
    by_cases hn : n = prev
    · subst hn
      rw [Function.update_self, pointer_release_self]
      rfl
    · rw [Function.update_of_ne hn, pointer_release_of_ne _ _ fun h => hn (Loc.next.inj h)]
      rfl
  have hexchanged : s.latest.producers p = .exchanged prev node := hp
  simp only [Mpsc.State.step, Mpsc.State.produce, hexchanged]
  rw [hnodes]
  simp only [State.latest, pointer_release_of_ne _ _ (next_ne_tail prev).symm]
  rfl

/-- A step of one of the threads is a step of the list, or none, or the two
loads of the consumer at once. -/
theorem stepped_refines (hs : Views s) {s' : State ι α} {o : Option (Mpsc.Event ι α)}
    (hstep : Stepped s o s') :
    ∃ log, Trace Mpsc.State.step s.latest log s'.latest ∧
      log.filter lasting = o.toList.filter lasting := by
  cases hstep with
  | created hp => exact ⟨_, Trace.single (refines_created hs hp), rfl⟩
  | exchanged hp hexchange => exact ⟨_, Trace.single (refines_exchanged hp hexchange), rfl⟩
  | linked hp => exact ⟨_, Trace.single (refines_linked hp), rfl⟩
  | began hpc =>
    refine ⟨[], ?_, rfl⟩
    have hsame : State.latest { s with consumer := .headLoaded s.head } = s.latest := by
      simp only [State.latest, hpc, settled]
    rw [hsame]
    exact .nil
  | @probed head i store hpc hstore =>
    have hlatest : s.latest.consumer = .idle := by simp only [State.latest, hpc, settled]
    cases hvalue : store.value with
    | none =>
      refine ⟨[], ?_, rfl⟩
      have hsame : State.latest { s with
          mem := (s.mem.touch .consumer head false).learn .consumer store.view
          consumer := .nextLoaded head none } = s.latest := by
        simp only [State.latest, hpc, settled]
        rfl
      rw [hsame]
      exact .nil
    | some next =>
      have hhead : head = s.head := hs.loaded head (by rw [hpc]; rfl)
      have hlink := (hs.of_link (List.mem_of_getElem? hstore) hvalue).1
      have hbegan : s.latest.step .consume =
          some ({ s.latest with consumer := .headLoaded s.head }, some .began) := by
        simp only [Mpsc.State.step, Mpsc.State.consume, hlatest]
        rfl
      have hprobed : ({ s.latest with consumer := .headLoaded s.head } : Mpsc.State ι α).step
          .consume = some (State.latest { s with
            mem := (s.mem.touch .consumer head false).learn .consumer store.view
            consumer := .nextLoaded head (some next) }, some .probed) := by
        rw [hhead] at hlink ⊢
        simp only [Mpsc.State.step, Mpsc.State.consume, State.latest, hlink, settled]
        rfl
      exact ⟨_, .step (Trace.single hbegan) hprobed, rfl⟩
  | missed hpc =>
    refine ⟨[], ?_, rfl⟩
    have hsame : State.latest { s with consumer := .idle } = s.latest := by
      simp only [State.latest, hpc, settled]
    rw [hsame]
    exact .nil
  | dataRead hpc =>
    refine ⟨_, Trace.single (a := .consume) ?_, rfl⟩
    simp only [Mpsc.State.step, Mpsc.State.consume, State.latest, hpc, settled]
    rfl
  | headStored hpc =>
    refine ⟨_, Trace.single (a := .consume) ?_, rfl⟩
    simp only [Mpsc.State.step, Mpsc.State.consume, State.latest, hpc, settled]
  | popped hpc =>
    refine ⟨_, Trace.single (a := .consume) ?_, rfl⟩
    simp only [Mpsc.State.step, Mpsc.State.consume, State.latest, hpc, settled]
    rfl

end Refines

/-! ## Every run -/

section Runs

variable [DecidableEq ι] {stub : α} {log : List (Mpsc.Event ι α)} {s : State ι α}

theorem views_trace (h : Trace State.step (State.new stub) log s) :
    Views s ∧ ∃ log', Trace Mpsc.State.step (Mpsc.State.new stub) log' s.latest ∧
      log'.filter lasting = log.filter lasting := by
  induction h with
  | nil => exact ⟨views_new stub, [], .nil, rfl⟩
  | step _ hstep ih =>
    obtain ⟨hs, log', htrace, hlog⟩ := ih
    obtain ⟨q, hq, _⟩ := Mpsc.inv_trace htrace
    have hstepped := step_stepped hstep
    obtain ⟨more, hmore, hfilter⟩ := stepped_refines hs hstepped
    refine ⟨views_stepped hs hq hstepped, log' ++ more, htrace.trans hmore, ?_⟩
    rw [List.filter_append, List.filter_append, hlog, hfilter]

omit [DecidableEq ι] in
theorem exchanges_lasting (log : List (Mpsc.Event ι α)) :
    Mpsc.exchanges (log.filter lasting) = Mpsc.exchanges log := by
  rw [Mpsc.exchanges, Mpsc.exchanges, List.filterMap_filter]
  congr 1
  funext e
  cases e <;> rfl

omit [DecidableEq ι] in
theorem popped_lasting (log : List (Mpsc.Event ι α)) :
    Mpsc.popped (log.filter lasting) = Mpsc.popped log := by
  rw [Mpsc.popped, Mpsc.popped, List.filterMap_filter]
  congr 1
  funext e
  cases e <;> rfl

/-- **The memory orders of the list suffice.** Whatever stores the consumer's
loads read, a run is one of the list under sequential consistency, but for pops
that return nothing; so its pops return the items in the order of the
exchanges. -/
theorem mpsc_weak_refines (h : Trace State.step (State.new stub) log s) :
    (∃ log', Trace Mpsc.State.step (Mpsc.State.new stub) log' s.latest ∧
      log'.filter lasting = log.filter lasting) ∧
    Mpsc.popped log <+: (Mpsc.exchanges log).map Prod.snd := by
  obtain ⟨_, log', htrace, hlog⟩ := views_trace h
  refine ⟨⟨log', htrace, hlog⟩, ?_⟩
  obtain ⟨q, _, hfifo⟩ := Mpsc.inv_trace htrace
  rw [← exchanges_lasting log, ← popped_lasting log, ← hlog, exchanges_lasting, popped_lasting,
    Mpsc.exchanges_eq hfifo]
  exact List.prefix_append _ _

/-- A `push` returns, a `pop` misses its link and returns nothing, and the next
`pop` finds it; the node left behind is about to be deleted. -/
def behind : List (Act Bool ℕ) :=
  [.push true 7, .produce true, .produce true, .consume 0, .consume 0, .consume 0,
   .consume 0, .consume 1, .consume 0, .consume 0]

def behindLog : List (Mpsc.Event Bool ℕ) :=
  [.created true 1 7, .exchanged true 1 7, .linked true 1, .began, .probed, .missed,
   .began, .probed]

theorem mpsc_weak_refines_behind :
    ∃ s, Trace State.step (State.new 0) behindLog s ∧
      (∃ log', Trace Mpsc.State.step (Mpsc.State.new 0) log' s.latest ∧
        log'.filter lasting = behindLog.filter lasting) ∧
      Mpsc.popped behindLog <+: (Mpsc.exchanges behindLog).map Prod.snd := by
  have hlog : (run State.step behind (State.new 0)).map Prod.snd = some behindLog := rfl
  obtain ⟨s, hs⟩ := trace_of_log hlog
  exact ⟨s, hs, mpsc_weak_refines hs⟩

/-- **No use of a node is a data race, or comes after its deletion.** In every
run, what the next step of any thread uses has not been deleted, and every
creation, deletion or (before a deletion) use of it happens before. -/
theorem mpsc_weak_race_free (h : Trace State.step (State.new stub) log s) (t : Thread ι)
    (node : ℕ) (write : Bool) (huse : s.uses t = some (node, write)) :
    s.mem.Ordered t node write ∧ node ∉ s.deleted := by
  obtain ⟨hs, log', htrace, _⟩ := views_trace h
  obtain ⟨q, hq, _⟩ := Mpsc.inv_trace htrace
  have hlive {n : ℕ} (hn : n ∈ s.latest.front :: q.map Prod.fst) : n ∉ s.deleted :=
    fun hgone => (hq.owned.gone n hgone).2 hn
  cases t with
  | producer p =>
    unfold State.uses at huse
    cases hpc : s.producers p with
    | idle =>
      simp only [hpc] at huse
      cases huse
      refine ⟨fun a ha hcell _ => absurd hcell (Nat.ne_of_lt (hs.allocated a ha)), ?_⟩
      exact fun hgone => absurd (hq.owned.gone _ hgone).1 (Nat.lt_irrefl _)
    | created node' =>
      simp only [hpc] at huse
      cases huse
    | exchanged prev node' =>
      simp only [hpc] at huse
      cases huse
      exact ⟨hs.pending p _ node' hpc, hlive (hq.linked.pending p _ node' hpc).1.left_mem⟩
  | consumer =>
    unfold State.uses at huse
    cases hpc : s.consumer with
    | idle =>
      simp only [hpc] at huse
      cases huse
    | headLoaded head =>
      simp only [hpc] at huse
      cases huse
      have hhead : s.latest.front = node := by
        rw [hs.loaded node (by rw [hpc]; rfl)]
        simp only [Mpsc.State.front, State.latest, hpc, settled]
      rw [← hhead]
      exact ⟨hs.front, hlive List.mem_cons_self⟩
    | nextLoaded head next =>
      cases next with
      | none =>
        simp only [hpc] at huse
        cases huse
      | some next =>
        simp only [hpc] at huse
        cases huse
        have hfound : found? s.consumer = some (head, node) := by rw [hpc]; rfl
        exact ⟨(hs.found head node hfound).1, hlive (adjacent_of_found hs hq hfound).right_mem⟩
    | dataRead head next data =>
      simp only [hpc] at huse
      cases huse
    | headStored head next data =>
      simp only [hpc] at huse
      cases huse
      have hfound : found? s.consumer = some (node, next) := by rw [hpc]; rfl
      exact ⟨(hs.found node next hfound).2.1, (front_of_found hq hfound).2⟩

theorem mpsc_weak_race_free_behind :
    ∃ s, Trace State.step (State.new 0) behindLog s ∧ s.uses .consumer = some (0, true) ∧
      s.mem.Ordered .consumer 0 true ∧ 0 ∉ s.deleted := by
  have hrun : (run State.step behind (State.new 0)).map (fun r => (r.2, r.1.uses .consumer)) =
      some (behindLog, some (0, true)) := rfl
  obtain ⟨⟨s, log⟩, hs, heq⟩ := Option.map_eq_some_iff.mp hrun
  injection heq with hlog huse
  subst hlog
  exact ⟨s, trace_run hs, huse, mpsc_weak_race_free (trace_run hs) .consumer 0 true huse⟩

end Runs

end HftEngine.MpscWeak
