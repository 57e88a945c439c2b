import HftEngine.Hazard.Protect

/-!
# Acquires that run at the same time

`acquire` step by step: each load of a slot is a step, and so is the store to
the slot found; steps of all threads come in any order.  Between the load that
finds a slot free and the store that takes it, another thread of the same bank
can find the same slot and take it too.

* `Inv` — with a bank for each thread and no null pointers, a slot that was
  found stays free until it is taken, and a taken one stays as it is;
* `acquires_apart_iff` — unreleased acquires have slots of their own exactly
  then.
-/

namespace HftEngine.Hazard.Interleaved

open Domain

variable {ι α : Type}

/-- Where a thread stands: in no call, about to load slot `i`, or about to store
to slot `i`. -/
inductive Acquire (α : Type) where
  | idle
  | searching (ptr : Option α) (i : Nat)
  | found (ptr : Option α) (i : Nat)
deriving Repr, DecidableEq

structure State (ι α : Type) where
  domain : Domain α
  calls : ι → Acquire α
  holds : List (Holding ι α)

def State.new (numThreads : Nat) : State ι α := ⟨.new numThreads, fun _ => .idle, []⟩

/-- A thread begins an `acquire`, takes its next step, or releases a slot. -/
inductive Act (ι α : Type) where
  | acquire (thread : ι) (ptr : Option α)
  | next (thread : ι)
  | release (thread : ι) (slot : Nat)
deriving Repr, DecidableEq

section Calls

variable [DecidableEq ι]

/-- The next step of an `acquire`: the end of the loop, a load, or the store. -/
def State.next (id : ι → Nat) (s : State ι α) (t : ι) : Option (State ι α) :=
  match s.calls t with
  | .idle => none
  | .searching ptr i =>
    if i < maxHazardPtrs then
      match s.domain.hazardPtrs[place (id t) i]? with
      | none => none
      | some none => some { s with calls := Function.update s.calls t (.found ptr i) }
      | some (some _) => some { s with calls := Function.update s.calls t (.searching ptr (i + 1)) }
    else some { s with calls := Function.update s.calls t .idle }
  | .found ptr i =>
    (s.domain.store (place (id t) i) ptr).map fun d =>
      { domain := d
        calls := Function.update s.calls t .idle
        holds := ⟨t, i, ptr⟩ :: s.holds }

def State.step (id : ι → Nat) (s : State ι α) : Act ι α → Option (State ι α)
  | .acquire t ptr =>
    match s.calls t with
    | .idle => some { s with calls := Function.update s.calls t (.searching ptr 0) }
    | _ => none
  | .next t => s.next id t
  | .release t slot =>
    match s.calls t with
    | .idle =>
      if s.holds.any fun h => h.thread = t ∧ h.slot = slot then
        (s.domain.release (id t) (some slot)).map fun d =>
          { s with domain := d, holds := s.holds.filter fun h => ¬(h.thread = t ∧ h.slot = slot) }
      else none
    | _ => none

/-- The states that interleavings on a new domain lead to. -/
inductive Reach (id : ι → Nat) (numThreads : Nat) (mayAcquire : Option α → Prop) :
    State ι α → Prop
  | new : Reach id numThreads mayAcquire (.new numThreads)
  | call {s s' : State ι α} {a : Act ι α} : Reach id numThreads mayAcquire s →
      (∀ t ptr, a = .acquire t ptr → mayAcquire ptr) → s.step id a = some s' →
      Reach id numThreads mayAcquire s'

/-! ## What one step does -/

inductive Stepped (id : ι → Nat) (s : State ι α) : Act ι α → State ι α → Prop
  | began (t : ι) (ptr : Option α) : Stepped id s (.acquire t ptr)
      { s with calls := Function.update s.calls t (.searching ptr 0) }
  | found (t : ι) (ptr : Option α) (i : Nat) : s.calls t = .searching ptr i → i < maxHazardPtrs →
      s.domain.hazardPtrs[place (id t) i]? = some none →
      Stepped id s (.next t) { s with calls := Function.update s.calls t (.found ptr i) }
  | passed (t : ι) (ptr : Option α) (i : Nat) : s.calls t = .searching ptr i →
      Stepped id s (.next t) { s with calls := Function.update s.calls t (.searching ptr (i + 1)) }
  | full (t : ι) : Stepped id s (.next t) { s with calls := Function.update s.calls t .idle }
  | stored (t : ι) (ptr : Option α) (i : Nat) : s.calls t = .found ptr i →
      Stepped id s (.next t)
        { domain := s.domain.write (place (id t) i) ptr
          calls := Function.update s.calls t .idle
          holds := ⟨t, i, ptr⟩ :: s.holds }
  | released (t : ι) (slot : Nat) (ptr : Option α) : ⟨t, slot, ptr⟩ ∈ s.holds →
      Stepped id s (.release t slot)
        { s with
          domain := s.domain.write (place (id t) slot) none
          holds := s.holds.filter fun h => ¬(h.thread = t ∧ h.slot = slot) }

theorem step_stepped {id : ι → Nat} {s s' : State ι α} {a : Act ι α}
    (h : s.step id a = some s') : Stepped id s a s' := by
  cases a with
  | acquire t ptr =>
    rw [State.step] at h
    cases hcall : s.calls t with
    | idle =>
      rw [hcall] at h
      cases h
      exact .began t ptr
    | searching q i => simp [hcall] at h
    | found q i => simp [hcall] at h
  | next t =>
    rw [State.step, State.next] at h
    cases hcall : s.calls t with
    | idle => simp [hcall] at h
    | searching ptr i =>
      simp only [hcall] at h
      split at h
      · rename_i hi
        cases hload : s.domain.hazardPtrs[place (id t) i]? with
        | none => simp [hload] at h
        | some x =>
          rw [hload] at h
          cases x with
          | none =>
            cases h
            exact .found t ptr i hcall hi hload
          | some p =>
            cases h
            exact .passed t ptr i hcall
      · cases h
        exact .full t
    | found ptr i =>
      simp only [hcall] at h
      obtain ⟨d, hd, rfl⟩ := Option.map_eq_some_iff.mp h
      rw [write_of_store hd]
      exact .stored t ptr i hcall
  | release t slot =>
    rw [State.step] at h
    cases hcall : s.calls t with
    | idle =>
      simp only [hcall] at h
      split at h
      · rename_i hheld
        obtain ⟨⟨t', slot', ptr⟩, hmem, hof⟩ := List.any_eq_true.mp hheld
        obtain ⟨rfl, rfl⟩ := of_decide_eq_true hof
        obtain ⟨d, hd, rfl⟩ := Option.map_eq_some_iff.mp h
        rw [write_of_store hd]
        exact .released _ _ ptr hmem
      · cases h
    | searching q i => simp [hcall] at h
    | found q i => simp [hcall] at h

end Calls

/-! ## A bank for each thread -/

/-- No thread acquires null, and none that acquires something shares its id. -/
def OwnBanks (id : ι → Nat) (mayAcquire : Option α → Prop) : Prop :=
  ∀ (_ : ι) ptr, mayAcquire ptr → ptr ≠ none ∧ Function.Injective id

structure Inv (id : ι → Nat) (numThreads : Nat) (mayAcquire : Option α → Prop)
    (s : State ι α) : Prop where
  threads : s.domain.numThreads = numThreads
  searching : ∀ t ptr i, s.calls t = .searching ptr i → mayAcquire ptr
  found : ∀ t ptr i, s.calls t = .found ptr i → mayAcquire ptr ∧ i < maxHazardPtrs ∧
    s.domain.hazardPtrs[place (id t) i]? = some none
  held : ∀ h ∈ s.holds, mayAcquire h.ptr ∧ h.slot < maxHazardPtrs ∧
    s.domain.hazardPtrs[h.place id]? = some h.ptr
  apart : s.holds.Pairwise fun h h' => h.place id ≠ h'.place id

section Steps

variable [DecidableEq ι] {id : ι → Nat} {numThreads : Nat} {mayAcquire : Option α → Prop}
  {s s' : State ι α} {a : Act ι α}

omit [DecidableEq ι] in
theorem inv_new : Inv id numThreads mayAcquire (State.new numThreads : State ι α) :=
  ⟨rfl, nofun, nofun, by simp [State.new], List.Pairwise.nil⟩

theorem calls_update {calls : ι → Acquire α} {t t' : ι} {call x : Acquire α}
    (h : Function.update calls t call t' = x) : (t' = t ∧ call = x) ∨ (t' ≠ t ∧ calls t' = x) := by
  by_cases ht : t' = t
  · subst ht
    rw [Function.update_self] at h
    exact .inl ⟨rfl, h⟩
  · rw [Function.update_of_ne ht] at h
    exact .inr ⟨ht, h⟩

/-- A step of one thread that touches no slot. -/
theorem Inv.moved (h : Inv id numThreads mayAcquire s) {t : ι} {call : Acquire α}
    (hsearching : ∀ ptr i, call = .searching ptr i → mayAcquire ptr)
    (hfound : ∀ ptr i, call = .found ptr i → mayAcquire ptr ∧ i < maxHazardPtrs ∧
      s.domain.hazardPtrs[place (id t) i]? = some none) :
    Inv id numThreads mayAcquire { s with calls := Function.update s.calls t call } := by
  refine ⟨h.threads, ?_, ?_, h.held, h.apart⟩
  · intro t' ptr i hcall
    rcases calls_update hcall with ⟨_, hcall⟩ | ⟨_, hcall⟩
    · exact hsearching ptr i hcall
    · exact h.searching t' ptr i hcall
  · intro t' ptr i hcall
    rcases calls_update hcall with ⟨ht, hcall⟩ | ⟨_, hcall⟩
    · rw [ht]
      exact hfound ptr i hcall
    · exact h.found t' ptr i hcall

theorem Inv.stored (h : Inv id numThreads mayAcquire s) (hid : ∀ t, id t < numThreads)
    (hcond : OwnBanks id mayAcquire) {t : ι} {ptr : Option α} {i : Nat}
    (hcall : s.calls t = .found ptr i) :
    Inv id numThreads mayAcquire
      { domain := s.domain.write (place (id t) i) ptr
        calls := Function.update s.calls t .idle
        holds := ⟨t, i, ptr⟩ :: s.holds } := by
  obtain ⟨hptr, hi, hfree⟩ := h.found t ptr i hcall
  -- what is held is not free, so it is elsewhere
  have hne : ∀ x ∈ s.holds, place (id t) i ≠ x.place id := by
    intro x hx heq
    obtain ⟨hxptr, _, hx⟩ := h.held x hx
    rw [← heq, hfree] at hx
    injection hx with hx
    exact (hcond t x.ptr hxptr).1 hx.symm
  refine ⟨h.threads, ?_, ?_, ?_, ?_⟩
  · intro t' ptr' j hcall'
    rcases calls_update hcall' with ⟨_, hcall'⟩ | ⟨_, hcall'⟩
    · cases hcall'
    · exact h.searching t' ptr' j hcall'
  · intro t' ptr' j hcall'
    rcases calls_update hcall' with ⟨_, hcall'⟩ | ⟨ht, hcall'⟩
    · cases hcall'
    · obtain ⟨hptr', hj, hfree'⟩ := h.found t' ptr' j hcall'
      have hbank : place (id t) i ≠ place (id t') j := by
        intro heq
        exact ht ((hcond t ptr hptr).2 ((place_inj hi hj).mp heq).1).symm
      exact ⟨hptr', hj, (load_write_ne s.domain hbank ptr).trans hfree'⟩
  · intro x hx
    rcases List.mem_cons.mp hx with rfl | hx
    · refine ⟨hptr, hi, load_write_self ?_ hi ptr⟩
      rw [h.threads]
      exact hid t
    · obtain ⟨hxptr, hslot, hload⟩ := h.held x hx
      exact ⟨hxptr, hslot, (load_write_ne s.domain (hne x hx) ptr).trans hload⟩
  · exact List.pairwise_cons.mpr ⟨hne, h.apart⟩

theorem Inv.released (h : Inv id numThreads mayAcquire s) (hcond : OwnBanks id mayAcquire) {t : ι}
    {slot : Nat} {ptr : Option α} (hheld : ⟨t, slot, ptr⟩ ∈ s.holds) :
    Inv id numThreads mayAcquire
      { s with
        domain := s.domain.write (place (id t) slot) none
        holds := s.holds.filter fun h => ¬(h.thread = t ∧ h.slot = slot) } := by
  obtain ⟨hptr, hslot, hload⟩ := h.held _ hheld
  refine ⟨h.threads, h.searching, ?_, ?_, h.apart.filter _⟩
  · intro t' ptr' i hcall
    obtain ⟨hptr', hi, hfree⟩ := h.found t' ptr' i hcall
    refine ⟨hptr', hi, ?_⟩
    by_cases hsame : place (id t) slot = place (id t') i
    · rw [← hsame]
      exact List.getElem?_set_self (List.getElem?_eq_some_iff.mp hload).1
    · exact (load_write_ne s.domain hsame none).trans hfree
  · intro x hx
    obtain ⟨hmem, hother⟩ := List.mem_filter.mp hx
    obtain ⟨hxptr, hxslot, hxload⟩ := h.held x hmem
    have hne : place (id t) slot ≠ x.place id := by
      intro heq
      obtain ⟨hbank, hsame⟩ := (place_inj hslot hxslot).mp heq
      exact of_decide_eq_true hother ⟨((hcond t ptr hptr).2 hbank).symm, hsame.symm⟩
    exact ⟨hxptr, hxslot, (load_write_ne s.domain hne none).trans hxload⟩

theorem inv_step (hid : ∀ t, id t < numThreads) (hcond : OwnBanks id mayAcquire)
    (h : Inv id numThreads mayAcquire s) (ha : ∀ t ptr, a = .acquire t ptr → mayAcquire ptr)
    (hs : Stepped id s a s') :
    Inv id numThreads mayAcquire s' := by
  cases hs with
  | began t ptr =>
    refine h.moved ?_ nofun
    intro ptr' i hcall
    cases hcall
    exact ha t ptr rfl
  | found t ptr i hcall hi hfree =>
    refine h.moved nofun ?_
    intro ptr' j hcall'
    cases hcall'
    exact ⟨h.searching t ptr i hcall, hi, hfree⟩
  | passed t ptr i hcall =>
    refine h.moved ?_ nofun
    intro ptr' j hcall'
    cases hcall'
    exact h.searching t ptr i hcall
  | full t => exact h.moved nofun nofun
  | stored t ptr i hcall => exact h.stored hid hcond hcall
  | released t slot ptr hheld => exact h.released hcond hheld

theorem inv_reach (hid : ∀ t, id t < numThreads) (hcond : OwnBanks id mayAcquire)
    (h : Reach id numThreads mayAcquire s) :
    Inv id numThreads mayAcquire s := by
  induction h with
  | new => exact inv_new
  | call _ ha hstep ih => exact inv_step hid hcond ih ha (step_stepped hstep)

/-! ## Two acquires, one slot -/

/-- A thread begins an `acquire` and finds its first slot free. -/
theorem Reach.found (h : Reach id numThreads mayAcquire s) {t : ι} {ptr : Option α}
    (hptr : mayAcquire ptr) (hidle : s.calls t = .idle)
    (hfree : s.domain.hazardPtrs[place (id t) 0]? = some none) :
    Reach id numThreads mayAcquire
      { s with calls := Function.update s.calls t (.found ptr 0) } := by
  have hbegan : Reach id numThreads mayAcquire
      { s with calls := Function.update s.calls t (.searching ptr 0) } := by
    refine h.call (a := .acquire t ptr) ?_ ?_
    · intro _ _ heq
      cases heq
      exact hptr
    · simp only [State.step, hidle]
  refine hbegan.call (a := .next t) nofun ?_
  simp [State.step, State.next, hfree, maxHazardPtrs]

/-- It stores the pointer there. -/
theorem Reach.stored (h : Reach id numThreads mayAcquire s) {t : ι} {ptr : Option α}
    (hid : id t < s.domain.numThreads) (hcall : s.calls t = .found ptr 0) :
    Reach id numThreads mayAcquire
      { domain := s.domain.write (place (id t) 0) ptr
        calls := Function.update s.calls t .idle
        holds := ⟨t, 0, ptr⟩ :: s.holds } := by
  refine h.call (a := .next t) nofun ?_
  have hstore := store_eq hid (show 0 < maxHazardPtrs from Nat.succ_pos 15) ptr
  simp only [State.step, State.next, hcall, hstore, Option.map_some]

/-- Two acquires of null by one thread get the same slot. -/
theorem reach_null_twice (hid : ∀ t, id t < numThreads) (hnull : mayAcquire none) (t : ι) :
    ∃ s, Reach id numThreads mayAcquire s ∧ s.holds = [⟨t, 0, none⟩, ⟨t, 0, none⟩] := by
  have hzero : 0 < maxHazardPtrs := Nat.succ_pos 15
  have h₀ : Reach id numThreads mayAcquire (State.new numThreads : State ι α) := .new
  have h₁ := h₀.found (t := t) hnull rfl (load_new (hid t) hzero)
  have h₂ := h₁.stored (t := t) (hid t) (Function.update_self _ _ _)
  have h₃ := h₂.found (t := t) hnull (Function.update_self _ _ _)
    (load_write_self (hid t) hzero none)
  have h₄ := h₃.stored (t := t) (hid t) (Function.update_self _ _ _)
  exact ⟨_, h₄, rfl⟩

/-- Two threads find the first slots of their banks free, and then take
them. -/
theorem reach_collision (hid : ∀ t, id t < numThreads) {ptr ptr' : Option α}
    (hptr : mayAcquire ptr) (hptr' : mayAcquire ptr') {t t' : ι} (hne : t ≠ t') :
    ∃ s, Reach id numThreads mayAcquire s ∧ s.holds = [⟨t', 0, ptr'⟩, ⟨t, 0, ptr⟩] ∧
      s.domain =
        ((Domain.new numThreads).write (place (id t) 0) ptr).write (place (id t') 0) ptr' := by
  have hzero : 0 < maxHazardPtrs := Nat.succ_pos 15
  have h₀ : Reach id numThreads mayAcquire (State.new numThreads : State ι α) := .new
  have h₁ := h₀.found (t := t) hptr rfl (load_new (hid t) hzero)
  have h₂ := h₁.found (t := t') hptr' (Function.update_of_ne hne.symm _ _)
    (load_new (hid t') hzero)
  have h₃ := h₂.stored (t := t) (hid t)
    ((Function.update_of_ne hne _ _).trans (Function.update_self _ _ _))
  have h₄ := h₃.stored (t := t') (hid t')
    ((Function.update_of_ne hne.symm _ _).trans (Function.update_self _ _ _))
  exact ⟨_, h₄, rfl, rfl⟩

end Steps

/-- **When acquires keep apart.** The threads' ids are their hashes modulo the
number of threads.  Any two unreleased acquires have different slots, and what
they acquired stays in them, in every interleaving, exactly if null pointers are
not acquired and, where anything is, no two threads have the same id. -/
theorem acquires_apart_iff [DecidableEq ι] (hash : ι → Nat) (numThreads : Nat)
    (hpos : 0 < numThreads) (mayAcquire : Option α → Prop) :
    (∀ s : State ι α, Reach (fun t => hash t % numThreads) numThreads mayAcquire s →
      s.holds.Pairwise (fun h h' =>
        h.place (fun t => hash t % numThreads) ≠ h'.place (fun t => hash t % numThreads)) ∧
      ∀ h ∈ s.holds, ∀ p, h.ptr = some p →
        s.domain.hazardPtrs[h.place fun t => hash t % numThreads]? = some (some p)) ↔
    ∀ (_ : ι) ptr, mayAcquire ptr →
      ptr ≠ none ∧ Function.Injective fun t => hash t % numThreads := by
  have hid : ∀ t, hash t % numThreads < numThreads := fun t => Nat.mod_lt _ hpos
  constructor
  · intro hapart t ptr hptr
    constructor
    · rintro rfl
      obtain ⟨s, hreach, hholds⟩ := reach_null_twice hid hptr t
      have hpair := (hapart s hreach).1
      rw [hholds] at hpair
      exact (List.pairwise_cons.mp hpair).1 _ (List.mem_singleton.mpr rfl) rfl
    · intro t₁ t₂ hsame
      by_contra hne
      obtain ⟨s, hreach, hholds, _⟩ := reach_collision hid hptr hptr hne
      have hpair := (hapart s hreach).1
      rw [hholds] at hpair
      refine (List.pairwise_cons.mp hpair).1 _ (List.mem_singleton.mpr rfl) ?_
      exact congrArg (place · 0) hsame.symm
  · intro hcond s hreach
    have hinv := inv_reach hid hcond hreach
    refine ⟨hinv.apart, fun h hh p hp => ?_⟩
    rw [(hinv.held h hh).2.2, hp]

/-- Two threads with different ids acquire two pointers. -/
theorem acquires_apart_two_banks :
    ∃ s : State Bool Nat, Reach (fun t => t.toNat % 2) 2 NonNull s ∧
      s.holds = [⟨true, 0, some 8⟩, ⟨false, 0, some 7⟩] ∧
      s.domain.hazardPtrs[place (false.toNat % 2) 0]? = some (some 7) := by
  have hid : ∀ t : Bool, t.toNat % 2 < 2 := fun t => Nat.mod_lt _ Nat.two_pos
  have hptr : NonNull (some 7) := nofun
  have hptr' : NonNull (some 8) := nofun
  obtain ⟨s, hreach, hholds, _⟩ := reach_collision hid hptr hptr' Bool.false_ne_true
  have hinj : Function.Injective fun t : Bool => t.toNat % 2 := by
    intro t t' heq
    cases t <;> cases t' <;> first | rfl | cases heq
  have hapart := (acquires_apart_iff Bool.toNat 2 Nat.two_pos NonNull).mpr
    (fun _ _ h => ⟨h, hinj⟩) s hreach
  refine ⟨s, hreach, hholds, ?_⟩
  exact hapart.2 ⟨false, 0, some 7⟩ (by rw [hholds]; simp) 7 rfl

/-- Two threads whose hashes, 1 and 3, are the same modulo 2 acquire the
pointers 7 and 8 in one slot, and 7 is in no slot any more. -/
theorem acquires_collide :
    ∃ s : State Bool Nat, Reach (fun t => (if t then 3 else 1) % 2) 2 NonNull s ∧
      s.holds = [⟨true, 0, some 8⟩, ⟨false, 0, some 7⟩] ∧
      (⟨true, 0, some 8⟩ : Holding Bool Nat).place (fun t => (if t then 3 else 1) % 2) =
        (⟨false, 0, some 7⟩ : Holding Bool Nat).place (fun t => (if t then 3 else 1) % 2) ∧
      s.domain.isHazardous 7 = false := by
  have hid : ∀ t : Bool, (if t then 3 else 1) % 2 < 2 := fun t => Nat.mod_lt _ Nat.two_pos
  have hptr : NonNull (some 7) := nofun
  have hptr' : NonNull (some 8) := nofun
  obtain ⟨s, hreach, hholds, hdomain⟩ := reach_collision hid hptr hptr' Bool.false_ne_true
  refine ⟨s, hreach, hholds, rfl, ?_⟩
  rw [hdomain]
  rfl

end HftEngine.Hazard.Interleaved
