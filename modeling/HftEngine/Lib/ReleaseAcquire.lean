import Mathlib.Data.List.Basic
import Mathlib.Data.Prod.Lex
import Mathlib.Order.Lattice
import Mathlib.Tactic

/-!
# Release and acquire

Memory that threads share, with C++ release and acquire accesses to atomic
locations `ℓ` and plain accesses to cells `χ`.

An atomic location is the list of all stores made to it.  A store goes to the
end of the list: this is the modification order of a location that has one
writer, or that only read-modify-writes change.  A load may read any store that
is not older than what its thread knows of, so threads need not agree on what
is the latest.

What a thread knows is its `View`: of each location the latest store, and of
each thread the number of accesses to cells.  A release store hands on the view
of its thread, an acquire load takes over the view of the store it reads; this
is how one access comes to happen before another.  A plain access is free of
data races if every conflicting access made before happens before it
(`Ordered`).

* `Causal` — a thread that knows of a store knows what the store hands on;
* `causal_acquire`, `causal_release`, `causal_exchange`, `causal_touch` — each
  operation keeps this, a store on the condition that its thread knows of the
  latest;
* `covers_touch`, `covers_own` — which accesses take nothing from what a view
  covers; `Ordered.learn`, `Ordered.release`, `Ordered.touch` — so that an access
  of one thread stays free of races whatever another does;
* `Extends` — what no operation takes back; `Latest` — a location all of whose
  stores a thread knows, which is kept as long as nobody else stores there.
-/

namespace HftEngine.Lib

/-- For each location the number of the latest store known, for each thread the
number of its accesses to cells that are known. -/
abbrev View (τ ℓ : Type*) := (ℓ → ℕ) × (τ → ℕ)

/-- A store to an atomic location. -/
structure Store (τ ℓ ν : Type*) where
  value : ν
  view : View τ ℓ

/-- A plain access to a cell, the `index`-th of its thread. -/
structure Access (τ χ : Type*) where
  thread : τ
  cell : χ
  write : Bool
  index : ℕ

structure Memory (τ ℓ χ ν δ : Type*) where
  history : ℓ → List (Store τ ℓ ν)
  cells : χ → δ
  accesses : List (Access τ χ)
  views : τ → View τ ℓ

namespace Memory

variable {τ ℓ χ ν δ : Type*}

/-- Memory as it is before the threads start. -/
def new (value : ℓ → ν) (cells : χ → δ) : Memory τ ℓ χ ν δ :=
  ⟨fun l => [⟨value l, 0⟩], cells, [], fun _ => 0⟩

section Operations

variable [DecidableEq τ] [DecidableEq ℓ] [DecidableEq χ]

/-- A load that reads store number `i`, which must not be older than what the
thread knows of. -/
def load (m : Memory τ ℓ χ ν δ) (t : τ) (l : ℓ) (i : ℕ) : Option (Store τ ℓ ν) :=
  if (m.views t).1 l ≤ i then (m.history l)[i]? else none

/-- A thread comes to know of what is in a view. -/
def learn (m : Memory τ ℓ χ ν δ) (t : τ) (v : View τ ℓ) : Memory τ ℓ χ ν δ :=
  { m with views := Function.update m.views t (m.views t ⊔ v) }

/-- `load(memory_order_acquire)`. -/
def acquire (m : Memory τ ℓ χ ν δ) (t : τ) (l : ℓ) (i : ℕ) :
    Option (ν × Memory τ ℓ χ ν δ) :=
  (m.load t l i).map fun store => (store.value, m.learn t store.view)

/-- `load(memory_order_relaxed)`: nothing is taken over from the store but that
it was made. -/
def relaxed (m : Memory τ ℓ χ ν δ) (t : τ) (l : ℓ) (i : ℕ) :
    Option (ν × Memory τ ℓ χ ν δ) :=
  (m.load t l i).map fun store => (store.value, m.learn t (Function.update 0 l i, 0))

/-- The view of a thread after its store to `l`. -/
def published (m : Memory τ ℓ χ ν δ) (t : τ) (l : ℓ) : View τ ℓ :=
  (Function.update (m.views t).1 l (m.history l).length, (m.views t).2)

/-- `store(memory_order_release)`. -/
def release (m : Memory τ ℓ χ ν δ) (t : τ) (l : ℓ) (value : ν) : Memory τ ℓ χ ν δ :=
  { m with
    history := Function.update m.history l (m.history l ++ [⟨value, m.published t l⟩])
    views := Function.update m.views t (m.published t l) }

/-- `exchange(memory_order_acq_rel)`.  A read-modify-write reads the latest
store. -/
def exchange (m : Memory τ ℓ χ ν δ) (t : τ) (l : ℓ) (value : ν) :
    Option (ν × Memory τ ℓ χ ν δ) :=
  (m.history l).getLast?.map fun store =>
    (store.value, (m.learn t store.view).release t l value)

/-- The view of a thread after an access to a cell. -/
def counted (m : Memory τ ℓ χ ν δ) (t : τ) : View τ ℓ :=
  ((m.views t).1, Function.update (m.views t).2 t ((m.views t).2 t + 1))

/-- An access to a cell is made and counted. -/
def touch (m : Memory τ ℓ χ ν δ) (t : τ) (cell : χ) (write : Bool) : Memory τ ℓ χ ν δ :=
  { m with
    accesses := ⟨t, cell, write, (m.views t).2 t + 1⟩ :: m.accesses
    views := Function.update m.views t (m.counted t) }

/-- A plain read. -/
def read (m : Memory τ ℓ χ ν δ) (t : τ) (cell : χ) : δ × Memory τ ℓ χ ν δ :=
  (m.cells cell, m.touch t cell false)

/-- A plain write. -/
def write (m : Memory τ ℓ χ ν δ) (t : τ) (cell : χ) (d : δ) : Memory τ ℓ χ ν δ :=
  { m.touch t cell true with cells := Function.update m.cells cell d }

end Operations

/-- A view knows of all accesses to the cell with which an access of the given
kind would conflict. -/
def Covers (m : Memory τ ℓ χ ν δ) (v : View τ ℓ) (cell : χ) (write : Bool) : Prop :=
  ∀ a ∈ m.accesses, a.cell = cell → (write = true ∨ a.write = true) → a.index ≤ v.2 a.thread

/-- An access that a thread is about to make is free of data races: all
conflicting accesses made so far happen before it. -/
def Ordered (m : Memory τ ℓ χ ν δ) (t : τ) (cell : χ) (write : Bool) : Prop :=
  m.Covers (m.views t) cell write

/-- A thread knows of the latest store to a location. -/
def Latest (m : Memory τ ℓ χ ν δ) (t : τ) (l : ℓ) : Prop :=
  (m.views t).1 l + 1 = (m.history l).length

/-! ## Causality -/

/-- A view that contains what the stores it knows of hand on, and knows of
nothing that has not happened. -/
structure Sound (m : Memory τ ℓ χ ν δ) (v : View τ ℓ) : Prop where
  known : ∀ l, v.1 l < (m.history l).length
  counted : ∀ t, v.2 t ≤ (m.views t).2 t
  handed : ∀ (l : ℓ) (i : ℕ) (store : Store τ ℓ ν),
    (m.history l)[i]? = some store → i ≤ v.1 l → store.view ≤ v

structure Causal (m : Memory τ ℓ χ ν δ) : Prop where
  /-- A store knows of itself. -/
  stamp : ∀ (l : ℓ) (i : ℕ) (store : Store τ ℓ ν),
    (m.history l)[i]? = some store → store.view.1 l = i
  stores : ∀ (l : ℓ) (store : Store τ ℓ ν), store ∈ m.history l → m.Sound store.view
  views : ∀ t, m.Sound (m.views t)
  /-- A thread knows of its own accesses. -/
  made : ∀ a ∈ m.accesses, a.index ≤ (m.views a.thread).2 a.thread

theorem causal_new (value : ℓ → ν) (cells : χ → δ) :
    (new value cells : Memory τ ℓ χ ν δ).Causal := by
  have hzero : (new value cells : Memory τ ℓ χ ν δ).Sound 0 := by
    refine ⟨fun l => Nat.one_pos, fun t => le_rfl, fun l i store hstore _ => ?_⟩
    rw [List.mem_singleton.mp (List.mem_of_getElem? hstore)]
  refine ⟨fun l i store hstore => ?_, fun l store hstore => ?_, fun _ => hzero, nofun⟩
  · have hi : i < 1 := (List.getElem?_eq_some_iff.mp hstore).1
    rw [List.mem_singleton.mp (List.mem_of_getElem? hstore)]
    show 0 = i
    omega
  · rw [List.mem_singleton.mp hstore]
    exact hzero

section Rules

variable {m : Memory τ ℓ χ ν δ}

theorem sound_sup {v w : View τ ℓ} (hv : m.Sound v) (hw : m.Sound w) : m.Sound (v ⊔ w) := by
  refine ⟨fun l => max_lt (hv.known l) (hw.known l), fun t => max_le (hv.counted t) (hw.counted t),
    fun l i store hstore hi => ?_⟩
  rcases le_max_iff.mp hi with hi | hi
  · exact (hv.handed l i store hstore hi).trans le_sup_left
  · exact (hw.handed l i store hstore hi).trans le_sup_right

/-- Nothing is forgotten when a thread comes to know more. -/
theorem le_update [DecidableEq τ] {t : τ} {w : View τ ℓ} (hle : m.views t ≤ w) (t' : τ) :
    m.views t' ≤ Function.update m.views t w t' := by
  by_cases ht : t' = t
  · subst ht
    rw [Function.update_self]
    exact hle
  · rw [Function.update_of_ne ht]

theorem Sound.update [DecidableEq τ] {v w : View τ ℓ} (hv : m.Sound v) {t : τ}
    (hle : m.views t ≤ w) (accesses : List (Access τ χ)) :
    ({ m with accesses := accesses, views := Function.update m.views t w } :
      Memory τ ℓ χ ν δ).Sound v := by
  exact ⟨hv.known, fun t' => (hv.counted t').trans ((le_update hle t').2 t'), hv.handed⟩

/-- One thread comes to know more. -/
theorem causal_update [DecidableEq τ] (hm : m.Causal) {t : τ} {w : View τ ℓ}
    (hle : m.views t ≤ w) {accesses : List (Access τ χ)}
    (hmade : ∀ a ∈ accesses, a.index ≤ (Function.update m.views t w a.thread).2 a.thread)
    (hw : ({ m with accesses := accesses, views := Function.update m.views t w } :
      Memory τ ℓ χ ν δ).Sound w) :
    ({ m with accesses := accesses, views := Function.update m.views t w } :
      Memory τ ℓ χ ν δ).Causal := by
  refine ⟨hm.stamp, fun l store hstore => (hm.stores l store hstore).update hle accesses,
    fun t' => ?_, hmade⟩
  show Sound _ (Function.update m.views t w t')
  by_cases ht : t' = t
  · subst ht
    rw [Function.update_self]
    exact hw
  · rw [Function.update_of_ne ht]
    exact (hm.views t').update hle accesses

/-! ### Loads -/

section Load

variable [DecidableEq τ] {t : τ} {l : ℓ} {i : ℕ} {value : ν} {m' : Memory τ ℓ χ ν δ}

omit [DecidableEq τ] in
theorem load_eq_some {store : Store τ ℓ ν} :
    m.load t l i = some store ↔ (m.views t).1 l ≤ i ∧ (m.history l)[i]? = some store := by
  unfold load
  split <;> simp [*]

/-- What an acquire load does. -/
theorem acquire_eq_some (h : m.acquire t l i = some (value, m')) :
    ∃ store, (m.views t).1 l ≤ i ∧ (m.history l)[i]? = some store ∧ store.value = value ∧
      m' = m.learn t store.view := by
  obtain ⟨store, hload, heq⟩ := Option.map_eq_some_iff.mp h
  obtain ⟨hle, hstore⟩ := load_eq_some.mp hload
  cases heq
  exact ⟨store, hle, hstore, rfl, rfl⟩

theorem views_learn_self (m : Memory τ ℓ χ ν δ) (t : τ) (v : View τ ℓ) :
    (m.learn t v).views t = m.views t ⊔ v := Function.update_self ..

theorem views_learn_of_ne (m : Memory τ ℓ χ ν δ) {t t' : τ} (h : t' ≠ t) (v : View τ ℓ) :
    (m.learn t v).views t' = m.views t' := Function.update_of_ne h ..

theorem causal_learn (hm : m.Causal) (t : τ) {v : View τ ℓ} (hv : m.Sound v) :
    (m.learn t v).Causal := by
  have hle : m.views t ≤ m.views t ⊔ v := le_sup_left
  refine causal_update hm hle (fun a ha => ?_) ((sound_sup (hm.views t) hv).update hle m.accesses)
  exact (hm.made a ha).trans ((le_update hle a.thread).2 a.thread)

theorem causal_acquire (hm : m.Causal) (h : m.acquire t l i = some (value, m')) : m'.Causal := by
  obtain ⟨store, _, hstore, _, rfl⟩ := acquire_eq_some h
  exact causal_learn hm t (hm.stores l store (List.mem_of_getElem? hstore))

/-- A thread that knows of the latest store reads that one, and learns nothing. -/
theorem relaxed_latest [DecidableEq ℓ] (hlatest : m.Latest t l)
    (h : m.relaxed t l i = some (value, m')) :
    m' = m ∧ ∃ store, (m.history l)[(m.views t).1 l]? = some store ∧ store.value = value := by
  obtain ⟨store, hload, heq⟩ := Option.map_eq_some_iff.mp h
  obtain ⟨hle, hstore⟩ := load_eq_some.mp hload
  have hlt := (List.getElem?_eq_some_iff.mp hstore).1
  rw [← hlatest] at hlt
  obtain rfl : i = (m.views t).1 l := by omega
  cases heq
  refine ⟨?_, store, hstore, rfl⟩
  have hsame : m.views t ⊔ (Function.update 0 l ((m.views t).1 l), 0) = m.views t := by
    refine sup_eq_left.mpr ⟨?_, fun _ => Nat.zero_le _⟩
    exact update_le_iff.mpr ⟨le_rfl, fun _ _ => Nat.zero_le _⟩
  rw [learn, hsame, Function.update_eq_self]

end Load

/-! ### Stores -/

section Release

variable [DecidableEq τ] [DecidableEq ℓ]

theorem history_release_self (m : Memory τ ℓ χ ν δ) (t : τ) (l : ℓ) (value : ν) :
    (m.release t l value).history l = m.history l ++ [⟨value, m.published t l⟩] :=
  Function.update_self ..

theorem history_release_of_ne (m : Memory τ ℓ χ ν δ) (t : τ) {l l' : ℓ} (h : l' ≠ l) (value : ν) :
    (m.release t l value).history l' = m.history l' :=
  Function.update_of_ne h ..

/-- A store there was, or the new one. -/
theorem getElem?_release {t : τ} {l l' : ℓ} {value : ν} {i : ℕ} {store : Store τ ℓ ν}
    (h : ((m.release t l value).history l')[i]? = some store) :
    (m.history l')[i]? = some store ∨
      l' = l ∧ i = (m.history l).length ∧ store = ⟨value, m.published t l⟩ := by
  by_cases hl : l' = l
  · subst hl
    rw [history_release_self] at h
    rcases Nat.lt_or_ge i (m.history l').length with hlt | hge
    · rw [List.getElem?_append_left hlt] at h
      exact .inl h
    · have hbound := (List.getElem?_eq_some_iff.mp h).1
      rw [List.length_append, List.length_singleton] at hbound
      obtain rfl : i = (m.history l').length := by omega
      rw [List.getElem?_concat_length] at h
      cases h
      exact .inr ⟨rfl, rfl, rfl⟩
  · rw [history_release_of_ne m t hl] at h
    exact .inl h

theorem length_history_release (m : Memory τ ℓ χ ν δ) (t : τ) (l l' : ℓ) (value : ν) :
    (m.history l').length ≤ ((m.release t l value).history l').length := by
  by_cases hl : l' = l
  · subst hl
    rw [history_release_self, List.length_append]
    exact Nat.le_add_right _ _
  · rw [history_release_of_ne m t hl]

theorem views_release_self (m : Memory τ ℓ χ ν δ) (t : τ) (l : ℓ) (value : ν) :
    (m.release t l value).views t = m.published t l := Function.update_self ..

theorem views_release_of_ne (m : Memory τ ℓ χ ν δ) {t t' : τ} (h : t' ≠ t) (l : ℓ) (value : ν) :
    (m.release t l value).views t' = m.views t' := Function.update_of_ne h ..

/-- A store is not an access to a cell. -/
theorem accesses_release (m : Memory τ ℓ χ ν δ) (t : τ) (l : ℓ) (value : ν) (t' : τ) :
    ((m.release t l value).views t').2 = (m.views t').2 := by
  by_cases ht : t' = t
  · subst ht
    rw [views_release_self]
    rfl
  · rw [views_release_of_ne m ht]

/-- A new store is not known to anyone yet. -/
theorem sound_release {v : View τ ℓ} (hv : m.Sound v) (t : τ) (l : ℓ) (value : ν) :
    (m.release t l value).Sound v := by
  refine ⟨fun l' => (hv.known l').trans_le (length_history_release m t l l' value), fun t' => ?_,
    fun l' i store hstore hi => ?_⟩
  · rw [accesses_release]
    exact hv.counted t'
  · rcases getElem?_release hstore with hold | ⟨rfl, rfl, _⟩
    · exact hv.handed l' i store hold hi
    · exact absurd hi (Nat.not_le_of_lt (hv.known l'))

variable {t : τ} {l : ℓ} (hm : m.Causal) (hlatest : m.Latest t l)

omit [DecidableEq τ] in
include hm in
theorem le_published : m.views t ≤ m.published t l :=
  ⟨le_update_iff.mpr ⟨((hm.views t).known l).le, fun _ _ => le_rfl⟩, le_rfl⟩

include hm hlatest

theorem sound_published (value : ν) : (m.release t l value).Sound (m.published t l) := by
  have hle : m.views t ≤ m.published t l := le_published hm
  refine ⟨fun l' => ?_, fun t' => ?_, fun l' i store hstore hi => ?_⟩
  · by_cases hl : l' = l
    · subst hl
      have hself : (m.published t l').1 l' = (m.history l').length := Function.update_self ..
      rw [hself, history_release_self, List.length_append]
      exact Nat.lt_add_one _
    · have hother : (m.published t l).1 l' = (m.views t).1 l' := Function.update_of_ne hl ..
      rw [hother, history_release_of_ne m t hl]
      exact (hm.views t).known l'
  · rw [accesses_release]
    exact (hm.views t).counted t'
  · rcases getElem?_release hstore with hold | ⟨_, _, rfl⟩
    · refine ((hm.views t).handed l' i store hold ?_).trans hle
      by_cases hl : l' = l
      · -- an older store, all of which the thread knows
        subst hl
        have hlt := (List.getElem?_eq_some_iff.mp hold).1
        rw [← hlatest] at hlt
        exact Nat.le_of_lt_succ hlt
      · have hother : (m.published t l).1 l' = (m.views t).1 l' := Function.update_of_ne hl ..
        rwa [hother] at hi
    · exact le_rfl

theorem causal_release (value : ν) : (m.release t l value).Causal := by
  have hnew := sound_published hm hlatest value
  refine ⟨fun l' i store hstore => ?_, fun l' store hstore => ?_, fun t' => ?_, fun a ha => ?_⟩
  · rcases getElem?_release hstore with hold | ⟨rfl, rfl, rfl⟩
    · exact hm.stamp l' i store hold
    · exact Function.update_self ..
  · obtain ⟨i, hi⟩ := List.mem_iff_getElem?.mp hstore
    rcases getElem?_release hi with hold | ⟨_, _, rfl⟩
    · exact sound_release (hm.stores l' store (List.mem_of_getElem? hold)) t l value
    · exact hnew
  · by_cases ht : t' = t
    · subst ht
      rw [views_release_self]
      exact hnew
    · rw [views_release_of_ne m ht]
      exact sound_release (hm.views t') t l value
  · rw [accesses_release]
    exact hm.made a ha

end Release

/-! ### Exchanges -/

section Exchange

variable [DecidableEq τ] [DecidableEq ℓ] {t : τ} {l : ℓ} {old value : ν}
  {m' : Memory τ ℓ χ ν δ}

theorem exchange_eq_some (h : m.exchange t l value = some (old, m')) :
    ∃ store, (m.history l).getLast? = some store ∧ store.value = old ∧
      m' = (m.learn t store.view).release t l value := by
  obtain ⟨store, hlast, heq⟩ := Option.map_eq_some_iff.mp h
  cases heq
  exact ⟨store, hlast, rfl, rfl⟩

/-- Who reads the latest store knows of all. -/
theorem causal_exchange (hm : m.Causal) (h : m.exchange t l value = some (old, m')) :
    m'.Causal := by
  obtain ⟨store, hlast, _, rfl⟩ := exchange_eq_some h
  have hlearn := causal_learn hm t (hm.stores l store (List.mem_of_getLast? hlast))
  refine causal_release hlearn ?_ value
  rw [List.getLast?_eq_getElem?] at hlast
  have hstamp := hm.stamp l _ store hlast
  have hlt := (List.getElem?_eq_some_iff.mp hlast).1
  have hknown := (hm.views t).known l
  rw [Latest, views_learn_self]
  show max ((m.views t).1 l) (store.view.1 l) + 1 = (m.history l).length
  omega

end Exchange

/-! ### Accesses to cells -/

section Touch

variable [DecidableEq τ]

theorem views_touch_self (m : Memory τ ℓ χ ν δ) (t : τ) (cell : χ) (write : Bool) :
    (m.touch t cell write).views t = m.counted t := Function.update_self ..

theorem views_touch_of_ne (m : Memory τ ℓ χ ν δ) {t t' : τ} (h : t' ≠ t) (cell : χ)
    (write : Bool) : (m.touch t cell write).views t' = m.views t' := Function.update_of_ne h ..

theorem le_counted (m : Memory τ ℓ χ ν δ) (t : τ) : m.views t ≤ m.counted t :=
  ⟨le_rfl, le_update_iff.mpr ⟨Nat.le_succ _, fun _ _ => le_rfl⟩⟩

theorem counted_self (m : Memory τ ℓ χ ν δ) (t : τ) :
    (m.counted t).2 t = (m.views t).2 t + 1 := Function.update_self ..

theorem causal_touch (hm : m.Causal) (t : τ) (cell : χ) (write : Bool) :
    (m.touch t cell write).Causal := by
  have hle := le_counted m t
  have hviews := hm.views t
  refine causal_update hm hle (fun a ha => ?_)
    ⟨hviews.known, fun t' => ?_, fun l i store hstore hi => ?_⟩
  · rcases List.mem_cons.mp ha with rfl | ha
    · rw [Function.update_self]
      exact (counted_self m t).ge
    · exact (hm.made a ha).trans ((le_update hle a.thread).2 a.thread)
  · show (m.counted t).2 t' ≤ (Function.update m.views t (m.counted t) t').2 t'
    by_cases ht : t' = t
    · subst ht
      rw [Function.update_self]
    · have hother : (m.counted t).2 t' = (m.views t).2 t' := Function.update_of_ne ht ..
      rw [hother, Function.update_of_ne ht]
      exact hviews.counted t'
  · exact (hviews.handed l i store hstore hi).trans hle

theorem causal_write [DecidableEq χ] (hm : m.Causal) (t : τ) (cell : χ) (d : δ) :
    (m.write t cell d).Causal := by
  have htouch := causal_touch hm t cell true
  exact ⟨htouch.stamp, fun l store hstore => ⟨(htouch.stores l store hstore).known,
    (htouch.stores l store hstore).counted, (htouch.stores l store hstore).handed⟩,
    fun t' => ⟨(htouch.views t').known, (htouch.views t').counted, (htouch.views t').handed⟩,
    htouch.made⟩

theorem cells_write_self [DecidableEq χ] (m : Memory τ ℓ χ ν δ) (t : τ) (cell : χ) (d : δ) :
    (m.write t cell d).cells cell = d := Function.update_self ..

theorem cells_write_of_ne [DecidableEq χ] (m : Memory τ ℓ χ ν δ) (t : τ) {cell cell' : χ}
    (h : cell' ≠ cell) (d : δ) : (m.write t cell d).cells cell' = m.cells cell' :=
  Function.update_of_ne h ..

end Touch

/-! ### What a view covers -/

section Covers

variable {v w : View τ ℓ} {cell : χ} {write : Bool}

theorem Covers.mono (h : m.Covers v cell write) (hle : v ≤ w) : m.Covers w cell write :=
  fun a ha hcell hwrite => (h a ha hcell hwrite).trans (hle.2 a.thread)

variable [DecidableEq τ]

/-- An access to another cell, or one with which there is no conflict. -/
theorem covers_touch (h : m.Covers v cell write) (t : τ) {cell' : χ} {write' : Bool}
    (hother : cell' ≠ cell ∨ write = false ∧ write' = false) :
    (m.touch t cell' write').Covers v cell write := by
  intro a ha hcell hwrite
  rcases List.mem_cons.mp ha with rfl | ha
  · rcases hother with hne | ⟨rfl, rfl⟩
    · exact absurd hcell hne
    · simp at hwrite
  · exact h a ha hcell hwrite

/-- The thread's own access. -/
theorem covers_own {t : τ} (h : m.Ordered t cell write) (cell' : χ) (write' : Bool) :
    (m.touch t cell' write').Ordered t cell write := by
  intro a ha hcell hwrite
  rw [views_touch_self]
  rcases List.mem_cons.mp ha with rfl | ha
  · exact (counted_self m t).ge
  · exact (h a ha hcell hwrite).trans ((le_counted m t).2 a.thread)

variable {t' : τ} (h : m.Ordered t' cell write) (t : τ)
include h

theorem Ordered.learn (v : View τ ℓ) : (m.learn t v).Ordered t' cell write :=
  Covers.mono h (le_update le_sup_left t')

theorem Ordered.release [DecidableEq ℓ] (l : ℓ) (value : ν) :
    (m.release t l value).Ordered t' cell write := by
  intro a ha hcell hwrite
  rw [accesses_release]
  exact h a ha hcell hwrite

theorem Ordered.touch {cell' : χ} {write' : Bool}
    (hother : cell' ≠ cell ∨ write = false ∧ write' = false) :
    (m.touch t cell' write').Ordered t' cell write := by
  by_cases ht : t' = t
  · subst ht
    exact covers_own h cell' write'
  · rw [Ordered, views_touch_of_ne m ht]
    exact covers_touch h t hother

end Covers

/-! ### What only grows -/

/-- Stores and accesses stay, and no thread forgets. -/
structure Extends (m m' : Memory τ ℓ χ ν δ) : Prop where
  stores : ∀ (l : ℓ) (i : ℕ) (store : Store τ ℓ ν),
    (m.history l)[i]? = some store → (m'.history l)[i]? = some store
  accesses : ∀ a ∈ m.accesses, a ∈ m'.accesses
  views : ∀ t, m.views t ≤ m'.views t

theorem Extends.trans {m' m'' : Memory τ ℓ χ ν δ} (h : m.Extends m') (h' : m'.Extends m'') :
    m.Extends m'' :=
  ⟨fun l i store hstore => h'.stores l i store (h.stores l i store hstore),
    fun a ha => h'.accesses a (h.accesses a ha), fun t => (h.views t).trans (h'.views t)⟩

section Grow

variable [DecidableEq τ]

theorem learn_zero (m : Memory τ ℓ χ ν δ) (t : τ) : m.learn t 0 = m := by
  have hsame : m.views t ⊔ 0 = m.views t :=
    sup_eq_left.mpr ⟨fun _ => Nat.zero_le _, fun _ => Nat.zero_le _⟩
  rw [learn, hsame, Function.update_eq_self]

theorem extends_learn (m : Memory τ ℓ χ ν δ) (t : τ) (v : View τ ℓ) : m.Extends (m.learn t v) :=
  ⟨fun _ _ _ h => h, fun _ h => h, le_update le_sup_left⟩

theorem extends_touch (m : Memory τ ℓ χ ν δ) (t : τ) (cell : χ) (write : Bool) :
    m.Extends (m.touch t cell write) :=
  ⟨fun _ _ _ h => h, fun _ h => List.mem_cons_of_mem _ h, le_update (le_counted m t)⟩

theorem extends_release [DecidableEq ℓ] (hm : m.Causal) (t : τ) (l : ℓ) (value : ν) :
    m.Extends (m.release t l value) := by
  refine ⟨fun l' i store hstore => ?_, fun _ h => h, le_update (le_published hm)⟩
  by_cases hl : l' = l
  · subst hl
    rw [history_release_self, List.getElem?_append_left (List.getElem?_eq_some_iff.mp hstore).1]
    exact hstore
  · rw [history_release_of_ne m t hl]
    exact hstore

variable {t : τ} {l : ℓ}

/-- There is nothing later to be learned. -/
theorem Latest.learn (h : m.Latest t l) (t' : τ) {v : View τ ℓ} (hv : m.Sound v) :
    (m.learn t' v).Latest t l := by
  by_cases ht : t = t'
  · subst ht
    have hknown := hv.known l
    rw [← h] at hknown
    rw [Latest, views_learn_self]
    show max ((m.views t).1 l) (v.1 l) + 1 = (m.history l).length
    rw [max_eq_left (Nat.le_of_lt_succ hknown)]
    exact h
  · rw [Latest, views_learn_of_ne m ht]
    exact h

theorem Latest.touch (h : m.Latest t l) (t' : τ) (cell : χ) (write : Bool) :
    (m.touch t' cell write).Latest t l := by
  by_cases ht : t = t'
  · subst ht
    rw [Latest, views_touch_self]
    exact h
  · rw [Latest, views_touch_of_ne m ht]
    exact h

variable [DecidableEq ℓ]

theorem latest_release_self (m : Memory τ ℓ χ ν δ) (t : τ) (l : ℓ) (value : ν) :
    (m.release t l value).Latest t l := by
  have hself : (m.published t l).1 l = (m.history l).length := Function.update_self ..
  rw [Latest, views_release_self, history_release_self, hself, List.length_append]
  rfl

theorem Latest.release_of_ne (h : m.Latest t l) (t' : τ) {l' : ℓ} (hl : l ≠ l') (value : ν) :
    (m.release t' l' value).Latest t l := by
  rw [Latest, history_release_of_ne m t' hl]
  by_cases ht : t = t'
  · subst ht
    have hother : (m.published t l').1 l = (m.views t).1 l := Function.update_of_ne hl ..
    rw [views_release_self, hother]
    exact h
  · rw [views_release_of_ne m ht]
    exact h

end Grow

end Rules

end Memory

end HftEngine.Lib
