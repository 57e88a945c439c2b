import HftEngine.Hazard.Domain

/-!
# Thread ids and several domains

`get_thread_id` keeps the id of a thread in a `static thread_local`, of which
there is one for all domains of one pointer type.  The id is taken modulo the
number of threads of the domain the thread happens to use first, and used as it
is on every other.

`acquire` reads the first slot of the bank before anything else, so an id is in
range or the call goes wrong at once (`exec_isSome_iff`).  A run is in range
exactly if each thread's first domain has given it an id that all domains it
uses later have room for (`accesses_in_range_iff`).
-/

namespace HftEngine.Hazard

open Domain

variable {ι δ α : Type} [DecidableEq ι] [DecidableEq δ]

/-- The domains, and the `id` of each thread, `none` being -1. -/
structure World (ι δ α : Type) where
  domains : δ → Domain α
  ids : ι → Option Nat

def World.new (numThreads : δ → Nat) : World ι δ α := ⟨fun d => .new (numThreads d), fun _ => none⟩

inductive Call (ι δ α : Type) where
  | acquire (thread : ι) (domain : δ) (ptr : Option α)
  | release (thread : ι) (domain : δ) (slot : Option Nat)
deriving Repr, DecidableEq

/-- A slot to release is one that `acquire` can have returned. -/
def Call.Legal : Call ι δ α → Prop
  | .acquire _ _ _ => True
  | .release _ _ slot => ∀ i ∈ slot, i < maxHazardPtrs

/-- The thread and the domain of a call that gets as far as `get_thread_id`. -/
def Call.use : Call ι δ α → Option (ι × δ)
  | .acquire t d _ => some (t, d)
  | .release t d (some _) => some (t, d)
  | .release _ _ none => none

/-- `get_thread_id` on a domain with `numThreads` threads. -/
def World.getThreadId (hash : ι → Nat) (w : World ι δ α) (t : ι) (d : δ) : Nat × World ι δ α :=
  match w.ids t with
  | some id => (id, w)
  | none =>
    let id := hash t % (w.domains d).numThreads
    (id, { w with ids := Function.update w.ids t (some id) })

/-- One call and its result; `none` where an access is out of range. -/
def World.exec (hash : ι → Nat) (w : World ι δ α) :
    Call ι δ α → Option (Option Nat × World ι δ α)
  | .acquire t d ptr =>
    let (id, w) := w.getThreadId hash t d
    ((w.domains d).acquire id ptr).map fun r =>
      (r.1, { w with domains := Function.update w.domains d r.2 })
  | .release _ _ none => some (none, w)
  | .release t d (some slot) =>
    let (id, w) := w.getThreadId hash t d
    ((w.domains d).release id (some slot)).map fun dom =>
      (none, { w with domains := Function.update w.domains d dom })

/-- Calls one after the other. -/
def World.execAll (hash : ι → Nat) : List (Call ι δ α) → World ι δ α → Option (World ι δ α)
  | [], w => some w
  | c :: cs, w =>
    match w.exec hash c with
    | none => none
    | some (_, w') => World.execAll hash cs w'

/-! ## One call -/

theorem numThreads_acquire {d d' : Domain α} {id : Nat} {ptr : Option α} {slot : Option Nat}
    (h : d.acquire id ptr = some (slot, d')) : d'.numThreads = d.numThreads := by
  rcases written_of_acquire h with rfl | ⟨i, rfl⟩
  · rfl
  · rfl

/-- `acquire` is in range exactly if the id is. -/
theorem acquire_isSome_iff (d : Domain α) (id : Nat) (ptr : Option α) :
    (d.acquire id ptr).isSome ↔ id < d.numThreads := by
  constructor
  · intro h
    by_contra hge
    -- the first load is behind the end
    have hout : d.hazardPtrs[place id 0]? = none := by
      rw [List.getElem?_eq_none_iff, d.size, place, Nat.add_zero]
      exact Nat.mul_le_mul_right _ (Nat.le_of_not_lt hge)
    have hslot : d.getFreeSlot id = none := by
      show freeSlotFrom d.hazardPtrs id 16 0 = none
      rw [freeSlotFrom, hout]
    simp [acquire, hslot] at h
  · intro hid
    rcases acquire_cases hid ptr with hnone | ⟨slot, _, _, hsome⟩
    · simp [hnone]
    · simp [hsome]

theorem release_isSome_iff (d : Domain α) (id : Nat) {slot : Nat} (hslot : slot < maxHazardPtrs) :
    (d.release id (some slot)).isSome ↔ id < d.numThreads := by
  constructor
  · intro h
    by_contra hge
    have hle : d.numThreads * maxHazardPtrs ≤ id * maxHazardPtrs :=
      Nat.mul_le_mul_right _ (Nat.le_of_not_lt hge)
    have hout : ¬ place id slot < d.hazardPtrs.length := by
      rw [d.size, place]
      omega
    simp [release, store, hout] at h
  · intro hid
    have hstore := store_eq hid hslot none
    simp [release, hstore]

/-- The id a thread uses on a domain: the one it has, or a new one. -/
def idOn (hash : ι → Nat) (numThreads : δ → Nat) (ids : ι → Option Nat) (t : ι) (d : δ) : Nat :=
  (ids t).getD (hash t % numThreads d)

/-- The domains of a world have these numbers of threads. -/
def World.Sized (numThreads : δ → Nat) (w : World ι δ α) : Prop :=
  ∀ d, (w.domains d).numThreads = numThreads d

section Exec

variable {hash : ι → Nat} {numThreads : δ → Nat} {w w' : World ι δ α} {c : Call ι δ α}
  {r : Option Nat}

omit [DecidableEq δ] in
theorem getThreadId_eq (hw : w.Sized numThreads) (t : ι) (d : δ) :
    w.getThreadId hash t d =
      (idOn hash numThreads w.ids t d,
        { w with ids := Function.update w.ids t (some (idOn hash numThreads w.ids t d)) }) := by
  rw [World.getThreadId, idOn]
  cases hid : w.ids t with
  | none => simp only [hw d, Option.getD_none]
  | some id =>
    have hsame : Function.update w.ids t (some id) = w.ids := by
      rw [← hid]
      exact Function.update_eq_self t w.ids
    simp only [Option.getD_some, hsame]

omit [DecidableEq ι] in
/-- A domain replaced by one of the same size. -/
theorem sized_update (hw : w.Sized numThreads) (ids : ι → Option Nat) {d : δ} {dom : Domain α}
    (hdom : dom.numThreads = (w.domains d).numThreads) :
    (⟨Function.update w.domains d dom, ids⟩ : World ι δ α).Sized numThreads := by
  intro d'
  by_cases hd : d' = d
  · subst hd
    show (Function.update w.domains d' dom d').numThreads = _
    rw [Function.update_self, hdom, hw d']
  · show (Function.update w.domains d dom d').numThreads = _
    rw [Function.update_of_ne hd, hw d']

/-- A call that uses a domain is in range exactly if the id is. -/
theorem exec_isSome_iff (hash : ι → Nat) (hw : w.Sized numThreads) (hc : c.Legal) {t : ι} {d : δ}
    (huse : c.use = some (t, d)) :
    (w.exec hash c).isSome ↔ idOn hash numThreads w.ids t d < numThreads d := by
  cases c with
  | acquire t' d' ptr =>
    cases huse
    simp only [World.exec, getThreadId_eq hw, Option.isSome_map]
    rw [acquire_isSome_iff, hw d]
  | release t' d' slot =>
    cases slot with
    | none => cases huse
    | some slot =>
      cases huse
      simp only [World.exec, getThreadId_eq hw, Option.isSome_map]
      rw [release_isSome_iff _ _ (hc slot rfl), hw d]

/-- It fixes the id of its thread. -/
theorem exec_use (hw : w.Sized numThreads) {t : ι} {d : δ} (huse : c.use = some (t, d))
    (h : w.exec hash c = some (r, w')) :
    w'.Sized numThreads ∧
      w'.ids = Function.update w.ids t (some (idOn hash numThreads w.ids t d)) := by
  cases c with
  | acquire t' d' ptr =>
    cases huse
    simp only [World.exec, getThreadId_eq hw] at h
    obtain ⟨⟨slot, dom⟩, hdom, heq⟩ := Option.map_eq_some_iff.mp h
    cases heq
    exact ⟨sized_update hw _ (numThreads_acquire hdom), rfl⟩
  | release t' d' slot =>
    cases slot with
    | none => cases huse
    | some slot =>
      cases huse
      simp only [World.exec, getThreadId_eq hw] at h
      obtain ⟨dom, hdom, heq⟩ := Option.map_eq_some_iff.mp h
      cases heq
      refine ⟨sized_update hw _ ?_, rfl⟩
      rw [write_of_store hdom]
      rfl

/-- A call that returns before `get_thread_id` does nothing. -/
theorem exec_idle (w : World ι δ α) (huse : c.use = none) : w.exec hash c = some (none, w) := by
  cases c with
  | acquire t d ptr => cases huse
  | release t d slot =>
    cases slot with
    | none => rfl
    | some slot => cases huse

/-- What `acquire` returns may be released. -/
theorem legal_of_acquired {t t' : ι} {d : δ} {ptr : Option α}
    (h : w.exec hash (.acquire t d ptr) = some (r, w')) :
    (.release t' d r : Call ι δ α).Legal := by
  intro i hi
  cases hi
  have hsized : w.Sized fun d => (w.domains d).numThreads := fun _ => rfl
  simp only [World.exec, getThreadId_eq hsized] at h
  obtain ⟨⟨slot, dom⟩, hdom, heq⟩ := Option.map_eq_some_iff.mp h
  cases heq
  have hid := (acquire_isSome_iff _ _ ptr).mp (by rw [hdom]; rfl)
  rcases acquire_cases hid ptr with hnone | ⟨slot, hslot, _, hsome⟩
  · rw [hnone] at hdom
    cases hdom
  · rw [hsome] at hdom
    cases hdom
    exact hslot

end Exec

/-! ## Whole runs -/

/-- The uses of domains, one after the other, are in range. -/
def InRange (hash : ι → Nat) (numThreads : δ → Nat) : (ι → Option Nat) → List (ι × δ) → Prop
  | _, [] => True
  | ids, (t, d) :: uses =>
    idOn hash numThreads ids t d < numThreads d ∧
      InRange hash numThreads (Function.update ids t (some (idOn hash numThreads ids t d))) uses

theorem execAll_isSome_iff {hash : ι → Nat} {numThreads : δ → Nat} {w : World ι δ α}
    (hw : w.Sized numThreads) {calls : List (Call ι δ α)} (hlegal : ∀ c ∈ calls, c.Legal) :
    (World.execAll hash calls w).isSome ↔
      InRange hash numThreads w.ids (calls.filterMap Call.use) := by
  induction calls generalizing w with
  | nil => exact iff_of_true rfl trivial
  | cons c calls ih =>
    have hrest := fun x hx => hlegal x (List.mem_cons_of_mem c hx)
    cases huse : c.use with
    | none =>
      rw [List.filterMap_cons_none huse, World.execAll, exec_idle w huse]
      exact ih hw hrest
    | some use =>
      obtain ⟨t, d⟩ := use
      have hone := exec_isSome_iff hash hw (hlegal c List.mem_cons_self) huse
      rw [List.filterMap_cons_some huse, World.execAll, InRange, ← hone]
      cases hexec : w.exec hash c with
      | none => simp
      | some rw' =>
        obtain ⟨r, w'⟩ := rw'
        obtain ⟨hw', hids⟩ := exec_use hw huse hexec
        rw [← hids]
        simp only [Option.isSome_some, true_and]
        exact ih hw' hrest

/-- The id a thread has in the end: the one it started with, or that of the
first domain it uses. -/
def finalId (hash : ι → Nat) (numThreads : δ → Nat) (ids : ι → Option Nat) (uses : List (ι × δ))
    (t : ι) : Option Nat :=
  (ids t).or ((uses.find? fun use => use.1 = t).map fun use => hash t % numThreads use.2)

omit [DecidableEq δ] in
/-- A use leaves the final ids as they are. -/
theorem finalId_cons (hash : ι → Nat) (numThreads : δ → Nat) (ids : ι → Option Nat) (t t' : ι)
    (d : δ) (uses : List (ι × δ)) :
    finalId hash numThreads ids ((t, d) :: uses) t' =
      finalId hash numThreads
        (Function.update ids t (some (idOn hash numThreads ids t d))) uses t' := by
  unfold finalId
  by_cases ht : t' = t
  · subst ht
    rw [Function.update_self, idOn]
    cases ids t' <;> simp
  · rw [Function.update_of_ne ht, List.find?_cons_of_neg (by simpa using Ne.symm ht)]

omit [DecidableEq δ] in
theorem inRange_iff {hash : ι → Nat} {numThreads : δ → Nat} {ids : ι → Option Nat}
    {uses : List (ι × δ)} :
    InRange hash numThreads ids uses ↔
      ∀ t d, (t, d) ∈ uses → ∀ id ∈ finalId hash numThreads ids uses t, id < numThreads d := by
  induction uses generalizing ids with
  | nil => exact iff_of_true trivial (by simp)
  | cons use uses ih =>
    obtain ⟨t, d⟩ := use
    have hfinal : finalId hash numThreads ids ((t, d) :: uses) t =
        some (idOn hash numThreads ids t d) := by
      rw [finalId_cons, finalId, Function.update_self]
      rfl
    simp only [InRange, ih, ← finalId_cons]
    constructor
    · rintro ⟨hhead, hrest⟩ t' d' hmem id hid
      rcases List.mem_cons.mp hmem with heq | hmem
      · cases heq
        rw [hfinal] at hid
        cases hid
        exact hhead
      · exact hrest t' d' hmem id hid
    · intro h
      exact ⟨h t d List.mem_cons_self _ hfinal, fun t' d' hmem => h t' d' (List.mem_cons_of_mem _ hmem)⟩

/-- **When slot indices stay in range.** Calls on domains with any
numbers of threads make no access out of range exactly if, for every use of a
domain by a thread, the thread's hash modulo the number of threads of the first
domain it uses is below the number of threads of this one. -/
theorem accesses_in_range_iff (hash : ι → Nat) (numThreads : δ → Nat)
    (calls : List (Call ι δ α)) (hlegal : ∀ c ∈ calls, c.Legal) :
    (World.execAll hash calls (World.new numThreads)).isSome ↔
      ∀ t d, (t, d) ∈ calls.filterMap Call.use →
        ∀ first, (calls.filterMap Call.use).find? (fun use => use.1 = t) = some first →
          hash t % numThreads first.2 < numThreads d := by
  have hsized : (World.new numThreads : World ι δ α).Sized numThreads := fun _ => rfl
  rw [execAll_isSome_iff hsized hlegal, inRange_iff]
  constructor
  · intro h t d hmem first hfirst
    refine h t d hmem _ ?_
    simp only [finalId, World.new, hfirst]
    rfl
  · intro h t d hmem id hid
    simp only [finalId, World.new, Option.none_or, Option.mem_def, Option.map_eq_some_iff] at hid
    obtain ⟨first, hfirst, rfl⟩ := hid
    exact h t d hmem first hfirst

/-- Domains for 8 and for 2 threads. -/
def eightAndTwo (d : Bool) : Nat := if d then 8 else 2

/-- A thread with hash 5 that uses the smaller domain first has id 1 on both. -/
theorem accesses_in_range_small_first :
    (World.execAll (fun _ => 5) [.acquire () false (some 7), .acquire () true (some 7),
      .release () false (some 0)] (World.new eightAndTwo)).isSome = true := by
  refine (accesses_in_range_iff _ _ _ ?_).mpr ?_
  · intro c hc
    simp only [List.mem_cons, List.not_mem_nil, or_false] at hc
    rcases hc with rfl | rfl | rfl
    · trivial
    · trivial
    · intro i hi
      cases hi
      exact Nat.succ_pos 15
  · intro t d _ first hfirst
    cases hfirst
    show 5 % 2 < eightAndTwo d
    cases d
    · exact Nat.lt_succ_self 1
    · exact Nat.lt_of_lt_of_le Nat.one_lt_two (Nat.le_add_left 2 6)

/-- A thread with hash 5 acquires a pointer in the domain for 8 threads, where
its id is 5.  Then it acquires one in the domain for 2 threads, whose 32 slots
end before place 80. -/
theorem larger_domain_first_out_of_range :
    (World.execAll (fun _ => 5) [.acquire () true (some 7)]
      (World.new eightAndTwo)).isSome = true ∧
    World.execAll (fun _ => 5) [.acquire () true (some 7), .acquire () false (some 7)]
      (World.new eightAndTwo) = none ∧
    eightAndTwo false * maxHazardPtrs ≤ place (5 % eightAndTwo true) 0 := by
  have hsized : (World.new eightAndTwo : World Unit Bool Nat).Sized eightAndTwo := fun _ => rfl
  refine ⟨?_, ?_, ?_⟩
  · rw [execAll_isSome_iff hsized (by simp [Call.Legal])]
    simp [Call.use, InRange, idOn, World.new, eightAndTwo]
  · rw [← Option.not_isSome_iff_eq_none, execAll_isSome_iff hsized (by simp [Call.Legal])]
    simp [Call.use, InRange, idOn, World.new, eightAndTwo]
  · show 32 ≤ 80
    omega

end HftEngine.Hazard
