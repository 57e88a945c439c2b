import Mathlib.Data.List.Basic
import Mathlib.Tactic

/-!
# The hazard-pointer domain (`hazard_pointers.hpp`)

The methods of `HazardPointerDomain<T>`, given the id of the calling thread.  A
pointer is an `Option`, `none` being the null pointer; a slot that `acquire`
returns is an `Option` as well, `none` being -1.  An access to `hazard_ptrs_`
that is out of range makes the whole call `none`.

Deleted pointers are listed, in order, as often as they are deleted.

The constructor of the header fills a vector with copies of a `std::atomic`, which
cannot be copied, so a domain cannot be made as the source stands; `Domain.new` is
what the constructor says, every slot null.  Ids, slots and places are `int` there
and numbers here: `num_threads * MAX_HAZARD_PTRS` fits an `int` for fewer than
`2^27` threads.

* `acquire_cases` — what `acquire` does for a thread id in range: it finds no
  slot, or stores the pointer in a slot of the thread's bank that holds null;
* `Reclaims` — what `retire` and `scan_and_reclaim` do to the retired
  pointers: each stays on the list or is deleted, and none is deleted that is
  in some slot.
-/

namespace HftEngine.Hazard

/-- Hazard pointers for each thread. -/
def maxHazardPtrs : Nat := 16

/-- The number of retirements that triggers a reclamation. -/
def retiredThreshold : Nat := 2

structure Domain (α : Type) where
  numThreads : Nat
  hazardPtrs : List (Option α)
  retired : List α
  deleted : List α
  size : hazardPtrs.length = numThreads * maxHazardPtrs

/-- The place of a thread's slot in `hazard_ptrs_`. -/
def place (threadId slot : Nat) : Nat := threadId * maxHazardPtrs + slot

namespace Domain

variable {α : Type}

def new (numThreads : Nat) : Domain α where
  numThreads := numThreads
  hazardPtrs := List.replicate (numThreads * maxHazardPtrs) none
  retired := []
  deleted := []
  size := List.length_replicate

/-- The loop of `get_free_slot`, from slot `i` on with `k` slots to go. -/
def freeSlotFrom (hazardPtrs : List (Option α)) (threadId : Nat) : Nat → Nat → Option (Option Nat)
  | 0, _ => some none
  | k + 1, i =>
    match hazardPtrs[place threadId i]? with
    | none => none
    | some none => some (some i)
    | some (some _) => freeSlotFrom hazardPtrs threadId k (i + 1)

def getFreeSlot (d : Domain α) (threadId : Nat) : Option (Option Nat) :=
  freeSlotFrom d.hazardPtrs threadId maxHazardPtrs 0

/-- `hazard_ptrs_[i] = ptr`, for an index in range. -/
def write (d : Domain α) (i : Nat) (ptr : Option α) : Domain α :=
  { d with hazardPtrs := d.hazardPtrs.set i ptr, size := by rw [List.length_set, d.size] }

/-- `hazard_ptrs_[i].store(ptr)`. -/
def store (d : Domain α) (i : Nat) (ptr : Option α) : Option (Domain α) :=
  if i < d.hazardPtrs.length then some (d.write i ptr) else none

def acquire (d : Domain α) (threadId : Nat) (ptr : Option α) : Option (Option Nat × Domain α) :=
  match d.getFreeSlot threadId with
  | none => none
  | some none => some (none, d)
  | some (some slot) => (d.store (place threadId slot) ptr).map fun d' => (some slot, d')

def release (d : Domain α) (threadId : Nat) : Option Nat → Option (Domain α)
  | none => some d
  | some slot => d.store (place threadId slot) none

/-- The second loop of the scan, over the retired pointers and their marks. -/
def sortOut : List (α × Bool) → List α × List α → List α × List α
  | [], acc => acc
  | (p, hazardous) :: rest, (kept, deleted) =>
    if hazardous then sortOut rest (kept ++ [p], deleted)
    else sortOut rest (kept, deleted ++ [p])

section Reclaim

variable [DecidableEq α]

/-- The inner loop of the scan: some slot holds the pointer. -/
def isHazardous (d : Domain α) (p : α) : Bool := d.hazardPtrs.any fun x => x = some p

def scanAndReclaim (d : Domain α) : Domain α :=
  if d.retired = [] then d
  else
    let marks := d.retired.map d.isHazardous
    let sorted := sortOut (d.retired.zip marks) ([], d.deleted)
    { d with retired := sorted.1, deleted := sorted.2 }

def retire (d : Domain α) : Option α → Domain α
  | none => d
  | some p =>
    let d := { d with retired := d.retired ++ [p] }
    if d.retired.length ≥ retiredThreshold then d.scanAndReclaim else d

end Reclaim

/-! ## `get_free_slot` and `acquire` -/

theorem place_lt {threadId slot n : Nat} (hid : threadId < n) (hslot : slot < maxHazardPtrs) :
    place threadId slot < n * maxHazardPtrs := by
  have hle : (threadId + 1) * maxHazardPtrs ≤ n * maxHazardPtrs := Nat.mul_le_mul_right _ hid
  rw [place]
  rw [Nat.succ_mul] at hle
  omega

/-- Places are told apart by the bank and the slot in it. -/
theorem place_inj {id id' slot slot' : Nat} (hslot : slot < maxHazardPtrs)
    (hslot' : slot' < maxHazardPtrs) :
    place id slot = place id' slot' ↔ id = id' ∧ slot = slot' := by
  unfold place maxHazardPtrs at *
  omega

theorem freeSlotFrom_cases {hazardPtrs : List (Option α)} {threadId k i : Nat}
    (hrange : place threadId (i + k) ≤ hazardPtrs.length) :
    freeSlotFrom hazardPtrs threadId k i = some none ∨
      ∃ slot, slot < i + k ∧ hazardPtrs[place threadId slot]? = some none ∧
        freeSlotFrom hazardPtrs threadId k i = some (some slot) := by
  induction k generalizing i with
  | zero => exact .inl rfl
  | succ k ih =>
    have hlt : place threadId i < hazardPtrs.length := by
      unfold place at hrange ⊢
      omega
    rw [freeSlotFrom]
    cases hload : hazardPtrs[place threadId i]? with
    | none =>
      rw [List.getElem?_eq_none_iff] at hload
      omega
    | some x =>
      cases x with
      | none => exact .inr ⟨i, by omega, hload, rfl⟩
      | some p =>
        have hnext : i + (k + 1) = i + 1 + k := by omega
        rw [hnext] at hrange ⊢
        exact ih hrange

theorem store_eq {d : Domain α} {threadId slot : Nat} (hid : threadId < d.numThreads)
    (hslot : slot < maxHazardPtrs) (ptr : Option α) :
    d.store (place threadId slot) ptr = some (d.write (place threadId slot) ptr) := by
  rw [store, if_pos]
  rw [d.size]
  exact place_lt hid hslot

theorem write_of_store {d d' : Domain α} {i : Nat} {ptr : Option α}
    (h : d.store i ptr = some d') : d' = d.write i ptr := by
  rw [store] at h
  split at h
  · cases h
    rfl
  · cases h

/-- A thread whose id is in range. -/
theorem acquire_cases {d : Domain α} {threadId : Nat} (hid : threadId < d.numThreads)
    (ptr : Option α) :
    d.acquire threadId ptr = some (none, d) ∨
      ∃ slot, slot < maxHazardPtrs ∧ d.hazardPtrs[place threadId slot]? = some none ∧
        d.acquire threadId ptr = some (some slot, d.write (place threadId slot) ptr) := by
  have hrange : place threadId (0 + maxHazardPtrs) ≤ d.hazardPtrs.length := by
    have hle : (threadId + 1) * maxHazardPtrs ≤ d.numThreads * maxHazardPtrs :=
      Nat.mul_le_mul_right _ hid
    rw [d.size, place, Nat.zero_add, ← Nat.succ_mul]
    exact hle
  rcases freeSlotFrom_cases hrange with hnone | ⟨slot, hslot, hfree, hsome⟩
  · left
    rw [acquire, getFreeSlot, hnone]
  · right
    rw [Nat.zero_add] at hslot
    refine ⟨slot, hslot, hfree, ?_⟩
    rw [acquire, getFreeSlot, hsome]
    simp only [store_eq hid hslot]
    rfl

/-- Whatever the id, `acquire` writes one place at most. -/
theorem written_of_acquire {d d' : Domain α} {threadId : Nat} {ptr : Option α}
    {slot : Option Nat} (h : d.acquire threadId ptr = some (slot, d')) :
    d' = d ∨ ∃ i, d' = d.write i ptr := by
  unfold acquire at h
  split at h
  · cases h
  · cases h
    exact .inl rfl
  · obtain ⟨d'', hstore, heq⟩ := Option.map_eq_some_iff.mp h
    cases heq
    exact .inr ⟨_, write_of_store hstore⟩

theorem written_of_release {d d' : Domain α} {threadId : Nat} {slot : Option Nat}
    (h : d.release threadId slot = some d') : d' = d ∨ ∃ i, d' = d.write i none := by
  cases slot with
  | none =>
    cases h
    exact .inl rfl
  | some slot => exact .inr ⟨_, write_of_store h⟩

/-- A thread whose first slot is free gets it. -/
theorem acquire_first {d : Domain α} {threadId : Nat} (hid : threadId < d.numThreads)
    (hfree : d.hazardPtrs[place threadId 0]? = some none) (ptr : Option α) :
    d.acquire threadId ptr = some (some 0, d.write (place threadId 0) ptr) := by
  have hslot : d.getFreeSlot threadId = some (some 0) := by
    show freeSlotFrom d.hazardPtrs threadId 16 0 = _
    rw [freeSlotFrom, hfree]
  rw [acquire, hslot]
  simp only [store_eq hid (show 0 < maxHazardPtrs from Nat.succ_pos 15)]
  rfl

theorem load_new {numThreads threadId slot : Nat} (hid : threadId < numThreads)
    (hslot : slot < maxHazardPtrs) :
    (new numThreads : Domain α).hazardPtrs[place threadId slot]? = some none :=
  List.getElem?_replicate_of_lt (place_lt hid hslot)

theorem load_write_self {d : Domain α} {threadId slot : Nat} (hid : threadId < d.numThreads)
    (hslot : slot < maxHazardPtrs) (ptr : Option α) :
    (d.write (place threadId slot) ptr).hazardPtrs[place threadId slot]? = some ptr := by
  refine List.getElem?_set_self ?_
  rw [d.size]
  exact place_lt hid hslot

theorem load_write_ne (d : Domain α) {i j : Nat} (h : i ≠ j) (ptr : Option α) :
    (d.write i ptr).hazardPtrs[j]? = d.hazardPtrs[j]? :=
  List.getElem?_set_ne h

/-! ## Reclamation -/

theorem sortOut_eq (hazardous : α → Bool) (ps kept deleted : List α) :
    sortOut (ps.zip (ps.map hazardous)) (kept, deleted) =
      (kept ++ ps.filter hazardous, deleted ++ ps.filter fun p => !hazardous p) := by
  induction ps generalizing kept deleted with
  | nil => simp [sortOut]
  | cons p ps ih =>
    rw [List.map_cons, List.zip_cons_cons, sortOut]
    cases hp : hazardous p with
    | true => simp [ih, hp]
    | false => simp [ih, hp]

section Reclaim

variable [DecidableEq α]

theorem scanAndReclaim_eq (d : Domain α) :
    d.scanAndReclaim =
      { d with
        retired := d.retired.filter d.isHazardous
        deleted := d.deleted ++ d.retired.filter fun p => !d.isHazardous p } := by
  rw [scanAndReclaim]
  by_cases hnil : d.retired = []
  · rw [if_pos hnil]
    obtain ⟨n, ptrs, retired, deleted, size⟩ := d
    cases hnil
    simp
  · simp only [if_neg hnil, sortOut_eq, List.nil_append]

theorem isHazardous_of_load {d : Domain α} {i : Nat} {p : α}
    (h : d.hazardPtrs[i]? = some (some p)) : d.isHazardous p = true := by
  rw [isHazardous, List.any_eq_true]
  exact ⟨some p, List.mem_of_getElem? h, decide_eq_true rfl⟩

/-- What a reclamation may do when the pointers `new` have just been retired:
some retired pointers that no slot holds are deleted. -/
structure Reclaims (d : Domain α) (new : List α) (d' : Domain α) : Prop where
  numThreads : d'.numThreads = d.numThreads
  hazardPtrs : d'.hazardPtrs = d.hazardPtrs
  deleted : ∃ gone, d'.deleted = d.deleted ++ gone ∧ (∀ p ∈ gone, d.isHazardous p = false) ∧
    (d'.retired ++ gone).Perm (d.retired ++ new)

theorem reclaims_scan (d : Domain α) : Reclaims d [] d.scanAndReclaim := by
  rw [scanAndReclaim_eq]
  refine ⟨rfl, rfl, _, rfl, ?_, ?_⟩
  · intro p hp
    simpa using (List.mem_filter.mp hp).2
  · rw [List.append_nil]
    exact List.filter_append_perm d.isHazardous d.retired

theorem reclaims_retire (d : Domain α) (p : α) : Reclaims d [p] (d.retire (some p)) := by
  rw [retire]
  split
  · obtain ⟨hthreads, hptrs, gone, hdeleted, hfree, hperm⟩ :=
      reclaims_scan { d with retired := d.retired ++ [p] }
    rw [List.append_nil] at hperm
    exact ⟨hthreads, hptrs, gone, hdeleted, hfree, hperm⟩
  · refine ⟨rfl, rfl, [], ?_, ?_, ?_⟩
    · exact (List.append_nil _).symm
    · exact fun q hq => absurd hq (by simp)
    · rw [List.append_nil]

end Reclaim

end Domain

end HftEngine.Hazard
