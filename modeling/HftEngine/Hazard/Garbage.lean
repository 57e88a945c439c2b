import HftEngine.Hazard.Domain

/-!
# How much garbage a domain keeps

Every call is one step, of any thread, in any order; nothing is assumed of the
slots released or the pointers acquired.  A pointer that outlives a scan is in
some slot; so if pointers are retired only once, what a scan leaves are
different pointers in different slots (`length_retired_of_hazardous`).  Until
the next scan at most one more is added to an empty list, since a second one
triggers a scan: `garbage_call` for one call, `garbage_bounded` for every
sequence.
-/

namespace HftEngine.Hazard

open Domain

variable {α : Type}

inductive DomainCall (α : Type) where
  | acquire (threadId : Nat) (ptr : Option α)
  | release (threadId : Nat) (slot : Option Nat)
  | retire (ptr : Option α)
  | scan
deriving Repr, DecidableEq

namespace DomainCall

/-- The pointer that a call retires. -/
def retired : DomainCall α → Option α
  | .retire ptr => ptr
  | _ => none

/-- The thread's id is in range, and a slot to release is one of its bank. -/
def InRange (numThreads : Nat) : DomainCall α → Prop
  | .acquire threadId _ => threadId < numThreads
  | .release threadId slot => threadId < numThreads ∧ ∀ i ∈ slot, i < maxHazardPtrs
  | _ => True

end DomainCall

namespace Domain

variable [DecidableEq α]

/-- The calls; `none` where an access is out of range. -/
def call (d : Domain α) : DomainCall α → Option (Domain α)
  | .acquire threadId ptr => (d.acquire threadId ptr).map Prod.snd
  | .release threadId slot => d.release threadId slot
  | .retire ptr => some (d.retire ptr)
  | .scan => some d.scanAndReclaim

/-- A sequence of calls. -/
def calls (d : Domain α) (cs : List (DomainCall α)) : Option (Domain α) := cs.foldlM call d

/-- The call runs the scan. -/
def Scans (d : Domain α) : DomainCall α → Prop
  | .scan => True
  | .retire (some _) => retiredThreshold ≤ d.retired.length + 1
  | _ => False

/-! ## What one call does to the list -/

theorem call_isSome {d : Domain α} {c : DomainCall α} (h : c.InRange d.numThreads) :
    (d.call c).isSome := by
  cases c with
  | acquire threadId ptr =>
    rcases acquire_cases h ptr with hnone | ⟨slot, _, _, hsome⟩
    · rw [call, hnone]
      rfl
    · rw [call, hsome]
      rfl
  | release threadId slot =>
    cases slot with
    | none => rfl
    | some slot =>
      rw [call, release, store_eq h.1 (h.2 slot rfl)]
      rfl
  | retire ptr => rfl
  | scan => rfl

/-- What a scan leaves is in some slot. -/
theorem hazardous_scan (d : Domain α) {p : α} (hp : p ∈ d.scanAndReclaim.retired) :
    d.scanAndReclaim.isHazardous p = true := by
  rw [scanAndReclaim_eq] at hp ⊢
  exact (List.mem_filter.mp hp).2

theorem retired_scan_sublist (d : Domain α) : d.scanAndReclaim.retired.Sublist d.retired := by
  rw [scanAndReclaim_eq]
  exact List.filter_sublist

theorem load_of_isHazardous {d : Domain α} {p : α} (h : d.isHazardous p = true) :
    some p ∈ d.hazardPtrs := by
  obtain ⟨x, hx, heq⟩ := List.any_eq_true.mp h
  rwa [of_decide_eq_true heq] at hx

/-- Different pointers in slots are in different slots. -/
theorem length_retired_of_hazardous {d : Domain α} (hnodup : d.retired.Nodup)
    (h : ∀ p ∈ d.retired, d.isHazardous p = true) :
    d.retired.length ≤ d.numThreads * maxHazardPtrs := by
  have hslots : d.retired.map some ⊆ d.hazardPtrs := by
    intro x hx
    obtain ⟨p, hp, rfl⟩ := List.mem_map.mp hx
    exact load_of_isHazardous (h p hp)
  have hle := (List.subperm_of_subset (hnodup.map (Option.some_injective α)) hslots).length_le
  rwa [List.length_map, d.size] at hle

theorem retire_cases (d : Domain α) (p : α) :
    (d.Scans (.retire (some p)) ∧
      d.retire (some p) = { d with retired := d.retired ++ [p] }.scanAndReclaim) ∨
    (d.retired = [] ∧ d.retire (some p) = { d with retired := [p] }) := by
  unfold retire
  by_cases hscan : retiredThreshold ≤ d.retired.length + 1
  · refine .inl ⟨hscan, if_pos ?_⟩
    show retiredThreshold ≤ (d.retired ++ [p]).length
    rwa [List.length_append]
  · have hnil : d.retired = [] := by
      rw [← List.length_eq_zero_iff]
      unfold retiredThreshold at hscan
      omega
    refine .inr ⟨hnil, ?_⟩
    rw [hnil]
    rfl

/-- What a call does to the list of retired pointers: it scans, or does nothing
to it, or makes it a list of one. -/
theorem retired_call {d d' : Domain α} {c : DomainCall α} (h : d.call c = some d') :
    d'.numThreads = d.numThreads ∧ d'.retired.Sublist (d.retired ++ c.retired.toList) ∧
      (d.Scans c → ∀ p ∈ d'.retired, d'.isHazardous p = true) ∧
      (d.Scans c ∨ d'.retired = d.retired ∨ d'.retired.length ≤ 1) := by
  cases c with
  | acquire threadId ptr =>
    obtain ⟨⟨slot, d''⟩, hacquire, rfl⟩ := Option.map_eq_some_iff.mp h
    rcases written_of_acquire hacquire with rfl | ⟨i, rfl⟩
    · exact ⟨rfl, List.sublist_append_left _ _, False.elim, .inr (.inl rfl)⟩
    · exact ⟨rfl, List.sublist_append_left _ _, False.elim, .inr (.inl rfl)⟩
  | release threadId slot =>
    rcases written_of_release h with rfl | ⟨i, rfl⟩
    · exact ⟨rfl, List.sublist_append_left _ _, False.elim, .inr (.inl rfl)⟩
    · exact ⟨rfl, List.sublist_append_left _ _, False.elim, .inr (.inl rfl)⟩
  | retire ptr =>
    cases h
    cases ptr with
    | none => exact ⟨rfl, List.sublist_append_left _ _, False.elim, .inr (.inl rfl)⟩
    | some p =>
      rcases d.retire_cases p with ⟨hscan, heq⟩ | ⟨hnil, heq⟩
      · rw [heq]
        exact ⟨(reclaims_scan _).numThreads, retired_scan_sublist _,
          fun _ q hq => hazardous_scan _ hq, .inl hscan⟩
      · rw [heq]
        refine ⟨rfl, List.sublist_append_right _ _, fun hscan => ?_, .inr (.inr le_rfl)⟩
        -- one pointer is below the threshold
        rw [Scans, hnil, List.length_nil] at hscan
        exact absurd hscan (by decide)
  | scan =>
    cases h
    refine ⟨(reclaims_scan d).numThreads, ?_, fun _ p hp => hazardous_scan d hp, .inl trivial⟩
    exact (retired_scan_sublist d).trans (List.sublist_append_left _ _)

end Domain

/-! ## Every sequence of calls -/

/-- The pointers on the list are some of those retired in the past, and not too
many. -/
structure Garbage (numThreads : Nat) (past : List α) (d : Domain α) : Prop where
  threads : d.numThreads = numThreads
  retired : d.retired.Sublist past
  bounded : d.retired.length ≤ max 1 (numThreads * maxHazardPtrs)

section Calls

variable [DecidableEq α] {numThreads : Nat} {past : List α} {d d' : Domain α}

theorem garbage_call (h : Garbage numThreads past d) {c : DomainCall α}
    (honce : (past ++ c.retired.toList).Nodup) (hc : d.call c = some d') :
    Garbage numThreads (past ++ c.retired.toList) d' := by
  obtain ⟨hthreads, hsub, hslots, hcases⟩ := retired_call hc
  have hsub' := hsub.trans (h.retired.append_right c.retired.toList)
  refine ⟨hthreads.trans h.threads, hsub', ?_⟩
  rcases hcases with hscan | hsame | hone
  · have hle := length_retired_of_hazardous (honce.sublist hsub') (hslots hscan)
    rw [hthreads, h.threads] at hle
    exact hle.trans (le_max_right _ _)
  · rw [hsame]
    exact h.bounded
  · exact hone.trans (le_max_left _ _)

theorem garbage_calls (h : Garbage numThreads past d) (cs : List (DomainCall α))
    (honce : (past ++ cs.filterMap DomainCall.retired).Nodup) (hcs : d.calls cs = some d') :
    Garbage numThreads (past ++ cs.filterMap DomainCall.retired) d' := by
  induction cs generalizing past d with
  | nil =>
    cases hcs
    simpa using h
  | cons c cs ih =>
    obtain ⟨d₁, hc, hcs⟩ := Option.bind_eq_some_iff.mp hcs
    have hpast : past ++ (c :: cs).filterMap DomainCall.retired =
        past ++ c.retired.toList ++ cs.filterMap DomainCall.retired := by
      rw [List.append_assoc]
      cases hret : c.retired <;> simp [hret]
    rw [hpast] at honce ⊢
    exact ih (garbage_call h honce.of_append_left hc) honce hcs

theorem calls_isSome (cs : List (DomainCall α)) (h : ∀ c ∈ cs, c.InRange d.numThreads) :
    (d.calls cs).isSome := by
  induction cs generalizing d with
  | nil => rfl
  | cons c cs ih =>
    obtain ⟨d₁, hc⟩ := Option.isSome_iff_exists.mp (call_isSome (h c List.mem_cons_self))
    have hrest := ih (d := d₁) fun c' hc' => by
      rw [(retired_call hc).1]
      exact h c' (List.mem_cons_of_mem _ hc')
    rw [calls, List.foldlM_cons, hc]
    exact hrest

/-- **Bounded garbage.** If no pointer is retired twice, the list of retired
pointers has at most one element, or one for each hazard slot, after any
sequence of calls; and right after a scan every pointer on it is in some slot.
Calls whose thread ids and slots are in range never go wrong; the bound holds
for all that do not. -/
theorem garbage_bounded (numThreads : Nat) (cs : List (DomainCall α))
    (honce : (cs.filterMap DomainCall.retired).Nodup) :
    ((∀ c ∈ cs, c.InRange numThreads) → ∃ d, (Domain.new numThreads).calls cs = some d) ∧
      ∀ d, (Domain.new numThreads).calls cs = some d →
        d.retired.length ≤ max 1 (numThreads * maxHazardPtrs) ∧
        ∀ c d', d.call c = some d' → d.Scans c → ∀ p ∈ d'.retired, some p ∈ d'.hazardPtrs := by
  refine ⟨fun h => Option.isSome_iff_exists.mp (calls_isSome cs h), fun d hd => ⟨?_, ?_⟩⟩
  · have hnew : Garbage numThreads [] (Domain.new numThreads : Domain α) :=
      ⟨rfl, List.Sublist.refl _, Nat.zero_le _⟩
    exact (garbage_calls hnew cs honce hd).bounded
  · intro c d' hc hscan p hp
    exact load_of_isHazardous ((retired_call hc).2.2.1 hscan p hp)

end Calls

/-- Three pointers retired on a domain for one thread, which holds two of them. -/
def heldPair : List (DomainCall Nat) :=
  [.acquire 0 (some 7), .acquire 0 (some 8), .retire (some 7), .retire (some 9), .retire (some 8)]

theorem garbage_bounded_held_pair :
    ∃ d, (Domain.new 1).calls heldPair = some d ∧ d.retired = [7, 8] ∧ d.retired.length ≤ 16 := by
  obtain ⟨d, hd⟩ := (garbage_bounded 1 heldPair (by decide)).1
    (by simp [heldPair, DomainCall.InRange])
  refine ⟨d, hd, ?_, ?_⟩
  · cases hd
    rfl
  · exact ((garbage_bounded 1 heldPair (by decide)).2 d hd).1

end HftEngine.Hazard
