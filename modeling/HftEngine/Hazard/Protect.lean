import HftEngine.Hazard.Domain

/-!
# Do hazard pointers protect?

Every call is one step, and calls of any threads come in any order.  The ids of
the threads are given, several threads may share one.  Beside the domain the
state keeps what the callers know: the acquires that returned a slot and have
not been released, and the pointers that have been retired.

The slot of an `acquire` is marked as taken by the pointer in it.  With the null
pointer, `acquire` returns a slot that still looks free: the next `acquire` of
the bank returns it again, and when the first caller releases it, the hazard
pointer of the second is wiped out.

* `inv_step`, `inv_reach` — where that cannot happen (`Separate`), each acquired
  pointer is in its slot;
* `hazards_protect_iff` — pointers in use are never deleted exactly if it cannot
  happen; that nothing is deleted twice or lost holds in any case.
-/

namespace HftEngine.Hazard

open Domain

variable {ι α : Type}

/-- An `acquire` of `ptr` that returned `slot` to `thread`. -/
structure Holding (ι α : Type) where
  thread : ι
  slot : Nat
  ptr : Option α
deriving Repr, DecidableEq

structure State (ι α : Type) where
  domain : Domain α
  holds : List (Holding ι α)
  retirements : List α

def State.new (numThreads : Nat) : State ι α := ⟨.new numThreads, [], []⟩

inductive Act (ι α : Type) where
  | acquire (thread : ι) (ptr : Option α)
  | release (thread : ι) (slot : Nat)
  | retire (ptr : Option α)
  | scan
deriving Repr, DecidableEq

section Calls

variable [DecidableEq ι] [DecidableEq α]

/-- One call.  A thread releases only slots it holds, and then holds them no
more; a pointer is retired only once. -/
def State.step (id : ι → Nat) (s : State ι α) : Act ι α → Option (State ι α)
  | .acquire t ptr =>
    match s.domain.acquire (id t) ptr with
    | none => none
    | some (none, d) => some { s with domain := d }
    | some (some slot, d) => some { s with domain := d, holds := ⟨t, slot, ptr⟩ :: s.holds }
  | .release t slot =>
    if s.holds.any fun h => h.thread = t ∧ h.slot = slot then
      (s.domain.release (id t) (some slot)).map fun d =>
        { s with domain := d, holds := s.holds.filter fun h => ¬(h.thread = t ∧ h.slot = slot) }
    else none
  | .retire none => some { s with domain := s.domain.retire none }
  | .retire (some p) =>
    if p ∈ s.retirements then none
    else some { s with domain := s.domain.retire (some p), retirements := p :: s.retirements }
  | .scan => some { s with domain := s.domain.scanAndReclaim }

def NonNull (ptr : Option α) : Prop := ptr ≠ none

/-- The call acquires only pointers of a given kind. -/
def Act.Acquires (mayAcquire : Option α → Prop) (a : Act ι α) : Prop :=
  ∀ t ptr, a = .acquire t ptr → mayAcquire ptr

/-- The states that calls on a new domain lead to. -/
inductive Reach (id : ι → Nat) (numThreads : Nat) (mayAcquire : Option α → Prop) :
    State ι α → Prop
  | new : Reach id numThreads mayAcquire (.new numThreads)
  | call {s s' : State ι α} {a : Act ι α} : Reach id numThreads mayAcquire s →
      a.Acquires mayAcquire → s.step id a = some s' → Reach id numThreads mayAcquire s'

/-! ## What one call does -/

/-- The calls, by what they do; ids in range. -/
inductive Stepped (id : ι → Nat) (s : State ι α) : Act ι α → State ι α → Prop
  | full (t : ι) (ptr : Option α) : Stepped id s (.acquire t ptr) s
  | acquired (t : ι) (ptr : Option α) (slot : Nat) : slot < maxHazardPtrs →
      s.domain.hazardPtrs[place (id t) slot]? = some none →
      Stepped id s (.acquire t ptr)
        { s with
          domain := s.domain.write (place (id t) slot) ptr
          holds := ⟨t, slot, ptr⟩ :: s.holds }
  | released (t : ι) (ptr : Option α) (slot : Nat) : ⟨t, slot, ptr⟩ ∈ s.holds →
      Stepped id s (.release t slot)
        { s with
          domain := s.domain.write (place (id t) slot) none
          holds := s.holds.filter fun h => ¬(h.thread = t ∧ h.slot = slot) }
  | idle : Stepped id s (.retire none) s
  | retired (p : α) (d : Domain α) : p ∉ s.retirements → Reclaims s.domain [p] d →
      Stepped id s (.retire (some p))
        { s with domain := d, retirements := p :: s.retirements }
  | scanned (d : Domain α) : Reclaims s.domain [] d → Stepped id s .scan { s with domain := d }

theorem step_stepped {id : ι → Nat} {s s' : State ι α} {a : Act ι α}
    (hid : ∀ t, id t < s.domain.numThreads) (h : s.step id a = some s') : Stepped id s a s' := by
  cases a with
  | acquire t ptr =>
    rw [State.step] at h
    rcases acquire_cases (hid t) ptr with hnone | ⟨slot, hslot, hfree, hsome⟩
    · rw [hnone] at h
      cases h
      exact .full t ptr
    · rw [hsome] at h
      cases h
      exact .acquired t ptr slot hslot hfree
  | release t slot =>
    rw [State.step] at h
    split at h
    · rename_i hheld
      obtain ⟨⟨t', slot', ptr⟩, hmem, hof⟩ := List.any_eq_true.mp hheld
      obtain ⟨rfl, rfl⟩ := of_decide_eq_true hof
      obtain ⟨d, hd, rfl⟩ := Option.map_eq_some_iff.mp h
      rw [write_of_store hd]
      exact .released _ ptr _ hmem
    · cases h
  | retire ptr =>
    cases ptr with
    | none =>
      cases h
      exact .idle
    | some p =>
      rw [State.step] at h
      split at h
      · cases h
      · rename_i hnew
        cases h
        exact .retired p _ hnew (reclaims_retire s.domain p)
  | scan =>
    cases h
    exact .scanned _ (reclaims_scan s.domain)

end Calls

/-! ## Where every acquired pointer is in its slot -/

/-- Null pointers and others are not both acquired by threads that share an
id. -/
def Separate (id : ι → Nat) (mayAcquire : Option α → Prop) : Prop :=
  ¬ (mayAcquire none ∧ (∃ p, mayAcquire (some p)) ∧ ∃ t t', t ≠ t' ∧ id t = id t')

/-- The place of the slot of an acquire. -/
def Holding.place (id : ι → Nat) (h : Holding ι α) : Nat := Hazard.place (id h.thread) h.slot

structure Inv (id : ι → Nat) (numThreads : Nat) (mayAcquire : Option α → Prop)
    (s : State ι α) : Prop where
  threads : s.domain.numThreads = numThreads
  slots : ∀ h ∈ s.holds, h.slot < maxHazardPtrs
  allowed : ∀ h ∈ s.holds, mayAcquire h.ptr
  stored : ∀ h ∈ s.holds, ∀ p, h.ptr = some p → s.domain.hazardPtrs[h.place id]? = some (some p)
  apart : s.holds.Pairwise fun h h' => h.ptr ≠ none → h'.ptr ≠ none → h.place id ≠ h'.place id

/-- Every retired pointer is on the list or deleted, once. -/
structure Accounted (s : State ι α) : Prop where
  perm : (s.domain.retired ++ s.domain.deleted).Perm s.retirements
  once : s.retirements.Nodup

section Steps

variable {id : ι → Nat} {numThreads : Nat} {mayAcquire : Option α → Prop} {s s' : State ι α}
  {a : Act ι α}

theorem inv_new : Inv id numThreads mayAcquire (State.new numThreads : State ι α) :=
  ⟨rfl, by simp [State.new], by simp [State.new], by simp [State.new], List.Pairwise.nil⟩

/-- A free slot is not that of an acquired pointer. -/
theorem Inv.place_ne_free (h : Inv id numThreads mayAcquire s) {i : Nat}
    (hfree : s.domain.hazardPtrs[i]? = some none) {x : Holding ι α} (hx : x ∈ s.holds)
    (hptr : x.ptr ≠ none) : i ≠ x.place id := by
  rintro rfl
  obtain ⟨p, hp⟩ := Option.ne_none_iff_exists'.mp hptr
  rw [h.stored x hx p hp] at hfree
  cases hfree

theorem Inv.acquired (h : Inv id numThreads mayAcquire s) (hid : ∀ t, id t < numThreads) {t : ι}
    {ptr : Option α} {slot : Nat} (hslot : slot < maxHazardPtrs)
    (hfree : s.domain.hazardPtrs[place (id t) slot]? = some none) (hptr : mayAcquire ptr) :
    Inv id numThreads mayAcquire
      { s with
        domain := s.domain.write (place (id t) slot) ptr
        holds := ⟨t, slot, ptr⟩ :: s.holds } := by
  refine ⟨h.threads, ?_, ?_, ?_, ?_⟩
  · intro x hx
    rcases List.mem_cons.mp hx with rfl | hx
    · exact hslot
    · exact h.slots x hx
  · intro x hx
    rcases List.mem_cons.mp hx with rfl | hx
    · exact hptr
    · exact h.allowed x hx
  · intro x hx p hp
    rcases List.mem_cons.mp hx with rfl | hx
    · refine (load_write_self ?_ hslot ptr).trans (congrArg some hp)
      rw [h.threads]
      exact hid t
    · have hne := h.place_ne_free hfree hx (by rw [hp]; exact nofun)
      exact (load_write_ne s.domain hne ptr).trans (h.stored x hx p hp)
  · refine List.pairwise_cons.mpr ⟨fun x hx _ hxptr => ?_, h.apart⟩
    exact h.place_ne_free hfree hx hxptr

/-- A slot released by one thread is not that of another one's pointer. -/
theorem Inv.place_ne_released (h : Inv id numThreads mayAcquire s) (hsep : Separate id mayAcquire)
    {t : ι} {ptr : Option α} {slot : Nat} (hheld : ⟨t, slot, ptr⟩ ∈ s.holds) {x : Holding ι α}
    (hx : x ∈ s.holds) (hother : ¬(x.thread = t ∧ x.slot = slot)) (hxptr : x.ptr ≠ none) :
    place (id t) slot ≠ x.place id := by
  intro heq
  obtain ⟨hbank, hslot⟩ := (place_inj (h.slots _ hheld) (h.slots x hx)).mp heq
  have hthread : t ≠ x.thread := fun ht => hother ⟨ht.symm, hslot.symm⟩
  cases ptr with
  | none =>
    obtain ⟨p, hp⟩ := Option.ne_none_iff_exists'.mp hxptr
    have hsome := h.allowed x hx
    rw [hp] at hsome
    exact hsep ⟨h.allowed _ hheld, ⟨p, hsome⟩, t, x.thread, hthread, hbank⟩
  | some p =>
    have hsymm : Std.Symm fun h h' : Holding ι α =>
        h.ptr ≠ none → h'.ptr ≠ none → h.place id ≠ h'.place id :=
      ⟨fun _ _ hapart hy hx => (hapart hx hy).symm⟩
    have hne : (⟨t, slot, some p⟩ : Holding ι α) ≠ x := by
      rintro rfl
      exact hthread rfl
    exact h.apart.forall hheld hx hne nofun hxptr heq

theorem Inv.released [DecidableEq ι] (h : Inv id numThreads mayAcquire s) (hsep : Separate id mayAcquire)
    {t : ι} {ptr : Option α} {slot : Nat} (hheld : ⟨t, slot, ptr⟩ ∈ s.holds) :
    Inv id numThreads mayAcquire
      { s with
        domain := s.domain.write (place (id t) slot) none
        holds := s.holds.filter fun h => ¬(h.thread = t ∧ h.slot = slot) } := by
  refine ⟨h.threads, ?_, ?_, ?_, h.apart.filter _⟩
  · exact fun x hx => h.slots x (List.mem_filter.mp hx).1
  · exact fun x hx => h.allowed x (List.mem_filter.mp hx).1
  · intro x hx p hp
    obtain ⟨hmem, hother⟩ := List.mem_filter.mp hx
    have hne := h.place_ne_released hsep hheld hmem (of_decide_eq_true hother)
      (by rw [hp]; exact nofun)
    exact (load_write_ne s.domain hne none).trans (h.stored x hmem p hp)

theorem Inv.reclaimed [DecidableEq α] (h : Inv id numThreads mayAcquire s) {new : List α} {d : Domain α}
    (hd : Reclaims s.domain new d) (retirements : List α) :
    Inv id numThreads mayAcquire { s with domain := d, retirements := retirements } := by
  refine ⟨hd.numThreads.trans h.threads, h.slots, h.allowed, ?_, h.apart⟩
  intro x hx p hp
  show d.hazardPtrs[x.place id]? = _
  rw [hd.hazardPtrs]
  exact h.stored x hx p hp

variable [DecidableEq ι] [DecidableEq α]

theorem numThreads_step (hs : Stepped id s a s') : s'.domain.numThreads = s.domain.numThreads := by
  cases hs with
  | full t ptr => rfl
  | acquired t ptr slot _ _ => rfl
  | released t ptr slot _ => rfl
  | idle => rfl
  | retired p d _ hd => exact hd.numThreads
  | scanned d hd => exact hd.numThreads

theorem inv_step (hid : ∀ t, id t < numThreads) (hsep : Separate id mayAcquire)
    (h : Inv id numThreads mayAcquire s) (ha : a.Acquires mayAcquire) (hs : Stepped id s a s') :
    Inv id numThreads mayAcquire s' := by
  cases hs with
  | full t ptr => exact h
  | acquired t ptr slot hslot hfree => exact h.acquired hid hslot hfree (ha t ptr rfl)
  | released t ptr slot hheld => exact h.released hsep hheld
  | idle => exact h
  | retired p d _ hd => exact h.reclaimed hd _
  | scanned d hd => exact h.reclaimed hd _

/-- The account is kept by every call, whoever acquires what. -/
theorem accounted_step (h : Accounted s) (hs : Stepped id s a s') : Accounted s' := by
  have hreclaim : ∀ {new : List α} {d : Domain α}, Reclaims s.domain new d →
      (d.retired ++ d.deleted).Perm (new ++ s.retirements) := by
    intro new d hd
    obtain ⟨gone, hdeleted, _, hperm⟩ := hd.deleted
    calc d.retired ++ d.deleted
      _ = d.retired ++ (s.domain.deleted ++ gone) := by rw [hdeleted]
      List.Perm _ (d.retired ++ gone ++ s.domain.deleted) := by
        rw [List.append_assoc]
        exact List.perm_append_comm.append_left _
      List.Perm _ (s.domain.retired ++ new ++ s.domain.deleted) := hperm.append_right _
      List.Perm _ (new ++ (s.domain.retired ++ s.domain.deleted)) := by
        rw [← List.append_assoc]
        exact List.perm_append_comm.append_right _
      List.Perm _ (new ++ s.retirements) := h.perm.append_left _
  cases hs with
  | full t ptr => exact h
  | acquired t ptr slot _ _ => exact ⟨h.perm, h.once⟩
  | released t ptr slot _ => exact ⟨h.perm, h.once⟩
  | idle => exact h
  | retired p d hnew hd => exact ⟨hreclaim hd, List.nodup_cons.mpr ⟨hnew, h.once⟩⟩
  | scanned d hd => exact ⟨hreclaim hd, h.once⟩

/-- The rule for what every call keeps. -/
theorem Reach.invariant (hid : ∀ t, id t < numThreads) {inv : State ι α → Prop}
    (hnew : inv (.new numThreads))
    (hstep : ∀ s a s', inv s → a.Acquires mayAcquire → Stepped id s a s' → inv s')
    (h : Reach id numThreads mayAcquire s) : inv s ∧ s.domain.numThreads = numThreads := by
  induction h with
  | new => exact ⟨hnew, rfl⟩
  | call _ ha hcall ih =>
    obtain ⟨hinv, hthreads⟩ := ih
    have hstepped := step_stepped (fun t => by rw [hthreads]; exact hid t) hcall
    exact ⟨hstep _ _ _ hinv ha hstepped, (numThreads_step hstepped).trans hthreads⟩

theorem inv_reach (hid : ∀ t, id t < numThreads) (hsep : Separate id mayAcquire)
    (h : Reach id numThreads mayAcquire s) : Inv id numThreads mayAcquire s :=
  (h.invariant hid inv_new fun _ _ _ hinv ha hs => inv_step hid hsep hinv ha hs).1

/-- Nothing retired is lost or deleted twice, whoever acquires what. -/
theorem accounted_reach (hid : ∀ t, id t < numThreads)
    (h : Reach id numThreads mayAcquire s) : Accounted s :=
  (h.invariant hid ⟨List.Perm.nil, List.nodup_nil⟩ fun _ _ _ hacc _ hs => accounted_step hacc hs).1

/-- A call deletes no pointer that is in a slot. -/
theorem deleted_step (hs : Stepped id s a s') {p : α} (hp : p ∈ s'.domain.deleted)
    (hslot : s.domain.isHazardous p = true) : p ∈ s.domain.deleted := by
  have hreclaim : ∀ {new : List α} {d : Domain α}, Reclaims s.domain new d → p ∈ d.deleted →
      p ∈ s.domain.deleted := by
    intro new d hd hp
    obtain ⟨gone, hdeleted, hfree, _⟩ := hd.deleted
    rw [hdeleted, List.mem_append] at hp
    rcases hp with hp | hp
    · exact hp
    · rw [hfree p hp] at hslot
      cases hslot
  cases hs with
  | full t ptr => exact hp
  | acquired t ptr slot _ _ => exact hp
  | released t ptr slot _ => exact hp
  | idle => exact hp
  | retired p d _ hd => exact hreclaim hd hp
  | scanned d hd => exact hreclaim hd hp

end Steps

/-! ## A slot taken twice -/

section Stolen

variable [DecidableEq ι] [DecidableEq α] {id : ι → Nat} {numThreads : Nat}
  {mayAcquire : Option α → Prop}

/-- Two threads with one id: the first acquires null, the second `p`, the first
releases its slot, `p` is retired. -/
def stolen (id : ι → Nat) (numThreads : Nat) (t' : ι) (p : α) : State ι α where
  domain :=
    { (((Domain.new numThreads).write (place (id t') 0) none).write (place (id t') 0)
        (some p)).write (place (id t') 0) none with
      retired := [p] }
  holds := [⟨t', 0, some p⟩]
  retirements := [p]

theorem reach_stolen (hid : ∀ t, id t < numThreads) (hnull : mayAcquire none) {p : α}
    (hp : mayAcquire (some p)) {t t' : ι} (hne : t ≠ t') (hsame : id t = id t') :
    Reach id numThreads mayAcquire (stolen id numThreads t' p) := by
  have hzero : 0 < maxHazardPtrs := Nat.succ_pos 15
  let d₁ := (Domain.new numThreads : Domain α).write (place (id t') 0) none
  let d₂ := d₁.write (place (id t') 0) (some p)
  have hfirst : (Domain.new numThreads).acquire (id t') none = some (some 0, d₁) :=
    acquire_first (hid t') (load_new (hid t') hzero) none
  -- the slot just returned still looks free
  have hsecond : d₁.acquire (id t') (some p) = some (some 0, d₂) :=
    acquire_first (hid t') (load_write_self (hid t') hzero none) (some p)
  have hrelease : d₂.release (id t') (some 0) = some (d₂.write (place (id t') 0) none) :=
    store_eq (hid t') hzero none
  have hreach₁ : Reach id numThreads mayAcquire ⟨d₁, [⟨t, 0, none⟩], []⟩ := by
    refine Reach.call (a := .acquire t none) .new ?_ ?_
    · intro _ _ h
      cases h
      exact hnull
    · rw [← hsame] at hfirst
      simp only [State.step, State.new, hfirst]
  have hreach₂ : Reach id numThreads mayAcquire ⟨d₂, [⟨t', 0, some p⟩, ⟨t, 0, none⟩], []⟩ := by
    refine hreach₁.call (a := .acquire t' (some p)) ?_ ?_
    · intro _ _ h
      cases h
      exact hp
    · simp only [State.step, hsecond]
  have hreach₃ : Reach id numThreads mayAcquire
      ⟨d₂.write (place (id t') 0) none, [⟨t', 0, some p⟩], []⟩ := by
    refine hreach₂.call (a := .release t 0) nofun ?_
    simp [State.step, hsame, hrelease, hne.symm]
  exact hreach₃.call (a := .retire (some p)) nofun rfl

/-- The next scan deletes the pointer. -/
theorem scan_stolen (id : ι → Nat) (numThreads : Nat) (t' : ι) (p : α) :
    ∃ s', (stolen id numThreads t' p).step id .scan = some s' ∧ s'.domain.deleted = [p] := by
  refine ⟨_, rfl, ?_⟩
  have hblank : (stolen id numThreads t' p).domain.hazardPtrs =
      List.replicate (numThreads * maxHazardPtrs) none := by
    show (((List.replicate _ none).set _ none).set _ (some p)).set _ none = _
    rw [List.set_set, List.set_set, List.set_replicate_self]
  have hfree : (stolen id numThreads t' p).domain.isHazardous p = false := by
    rw [isHazardous, hblank]
    simp
  rw [scanAndReclaim_eq]
  show [] ++ [p].filter _ = [p]
  simp [hfree]

end Stolen

/-- **When hazard pointers protect.** With thread ids in range, no call deletes
a pointer that some thread has acquired and not released exactly if null
pointers are not acquired, or nothing else is, or no two threads share an id.
No pointer is deleted twice, and every retired pointer is on the list or
deleted. -/
theorem hazards_protect_iff [DecidableEq ι] [DecidableEq α] (id : ι → Nat) (numThreads : Nat)
    (hid : ∀ t, id t < numThreads) (mayAcquire : Option α → Prop) :
    (∀ s : State ι α, Reach id numThreads mayAcquire s →
      (∀ a s', a.Acquires mayAcquire → s.step id a = some s' →
        ∀ p ∈ s'.domain.deleted, p ∈ s.domain.deleted ∨ ∀ h ∈ s.holds, h.ptr ≠ some p) ∧
      s.domain.deleted.Nodup ∧
      ∀ p ∈ s.retirements, p ∈ s.domain.retired ∨ p ∈ s.domain.deleted) ↔
    ¬ (mayAcquire none ∧ (∃ p, mayAcquire (some p)) ∧ ∃ t t', t ≠ t' ∧ id t = id t') := by
  constructor
  · rintro hprotect ⟨hnull, ⟨p, hp⟩, t, t', hne, hsame⟩
    obtain ⟨s', hscan, hdeleted⟩ := scan_stolen id numThreads t' p
    have hreach := reach_stolen hid hnull hp hne hsame
    rcases (hprotect _ hreach).1 .scan s' nofun hscan p (by rw [hdeleted]; simp) with hold | hfree
    · exact absurd hold (by simp [stolen, Domain.new, write])
    · exact hfree ⟨t', 0, some p⟩ (by simp [stolen]) rfl
  · intro hsep s hreach
    have hinv := inv_reach hid hsep hreach
    have hacc := accounted_reach hid hreach
    refine ⟨?_, ?_, ?_⟩
    · intro a s' _ hstep p hp
      have hstepped := step_stepped (fun t => by rw [hinv.threads]; exact hid t) hstep
      by_cases hheld : ∃ h ∈ s.holds, h.ptr = some p
      · obtain ⟨h, hmem, hptr⟩ := hheld
        exact .inl (deleted_step hstepped hp (isHazardous_of_load (hinv.stored h hmem p hptr)))
      · exact .inr fun h hmem hptr => hheld ⟨h, hmem, hptr⟩
    · exact (hacc.perm.nodup_iff.mpr hacc.once).of_append_right
    · exact fun p hp => List.mem_append.mp (hacc.perm.mem_iff.mpr hp)

/-- Two threads share the only id and acquire no null pointers: what one of
them holds survives being retired and scanned for. -/
theorem hazards_protect_shared_id :
    ∃ s s' : State Bool Nat, Reach (fun _ => 0) 1 NonNull s ∧ s.holds = [⟨true, 0, some 7⟩] ∧
      s.step (fun _ => 0) .scan = some s' ∧ 7 ∈ s.domain.retired ∧ 7 ∉ s'.domain.deleted := by
  let d : Domain Nat := (Domain.new 1).write 0 (some 7)
  have hreach₁ : Reach (fun _ => 0) 1 NonNull (⟨d, [⟨true, 0, some 7⟩], []⟩ : State Bool Nat) := by
    refine Reach.call (a := .acquire true (some 7)) .new ?_ rfl
    intro _ _ h
    cases h
    exact nofun
  have hreach₂ : Reach (fun _ => 0) 1 NonNull
      (⟨{ d with retired := [7] }, [⟨true, 0, some 7⟩], [7]⟩ : State Bool Nat) :=
    hreach₁.call (a := .retire (some 7)) nofun rfl
  refine ⟨_, _, hreach₂, rfl, rfl, List.mem_singleton.mpr rfl, fun hgone => ?_⟩
  have hprotect := (hazards_protect_iff (fun _ : Bool => 0) 1 (fun _ => Nat.one_pos)
    NonNull).mpr (fun hnull => hnull.1 rfl) _ hreach₂
  rcases hprotect.1 .scan _ nofun rfl 7 hgone with hold | hfree
  · exact absurd hold (by simp [d, Domain.new, write])
  · exact hfree ⟨true, 0, some 7⟩ (by simp) rfl

/-- Two threads share the only id; one acquires null, the other the pointer 7,
the first releases its slot.  Pointer 7 is retired and the next scan deletes
it, although the second thread still holds it. -/
theorem null_acquire_unprotects :
    ∃ s s' : State Bool Nat, Reach (fun _ => 0) 1 (fun _ => True) s ∧
      s.step (fun _ => 0) .scan = some s' ∧ ⟨true, 0, some 7⟩ ∈ s.holds ∧
      7 ∉ s.domain.deleted ∧ 7 ∈ s'.domain.deleted := by
  have hreach : Reach (fun _ => 0) 1 (fun _ => True) (stolen (fun _ => 0) 1 true 7) :=
    reach_stolen (fun _ => Nat.one_pos) trivial trivial (Bool.false_ne_true) rfl
  obtain ⟨s', hscan, hdeleted⟩ := scan_stolen (fun _ => 0) 1 true 7
  refine ⟨_, s', hreach, hscan, ?_, ?_, ?_⟩
  · exact List.mem_singleton.mpr rfl
  · exact List.not_mem_nil
  · rw [hdeleted]
    exact List.mem_singleton.mpr rfl

end HftEngine.Hazard
