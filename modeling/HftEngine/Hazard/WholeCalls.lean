import HftEngine.Hazard.Garbage
import HftEngine.Hazard.Weak

/-!
# Calls that are not interrupted

A sequence of whole calls of a domain, one after the other, is a run of the
machine that takes the methods apart: each call is begun by the thread whose id it
gives, every load reads the latest store, and nothing else happens until it has
returned.  `Shows` relates
the two; each loop of the source is followed step by step (`run_search`,
`run_mark`, `run_sort`).

* `whole_calls_run` — every sequence of calls is such a run.
-/

namespace HftEngine.HazardWeak

open Lib Hazard

variable {α : Type}

/-- What a slot holds, by its latest store. -/
def latest (m : Mem α) (j : ℕ) : Option α :=
  ((m.history (.slot j)).getLast?.map Store.value).getD none

def slots (numThreads : ℕ) (m : Mem α) : List (Option α) :=
  (List.range (numThreads * maxHazardPtrs)).map (latest m)

/-- No call is under way, and the domain is as the machine has it. -/
structure Shows (numThreads : ℕ) (log : List (Event α)) (s : State α) (d : Domain α) : Prop where
  threads : d.numThreads = numThreads
  hazardPtrs : d.hazardPtrs = slots numThreads s.mem
  retired : d.retired = s.retired
  deleted : d.deleted = deletions log
  calls : ∀ t, s.calls t = .idle
  scan : s.scan = .idle

/-! ## Slots -/

section Slots

variable {m m' : Mem α}

theorem slots_of_history (numThreads : ℕ) (h : m'.history = m.history) :
    slots numThreads m' = slots numThreads m := by
  refine List.map_congr_left fun j _ => ?_
  rw [latest, h, latest]

theorem length_slots (numThreads : ℕ) (m : Mem α) :
    (slots numThreads m).length = numThreads * maxHazardPtrs := by
  rw [slots, List.length_map, List.length_range]

theorem getElem_slots {numThreads j : ℕ} (hj : j < (slots numThreads m).length) :
    (slots numThreads m)[j] = latest m j := by
  simp only [slots, List.getElem_map, List.getElem_range]

theorem latest_of_slots {numThreads j : ℕ} {x : Option α}
    (h : (slots numThreads m)[j]? = some x) : latest m j = x := by
  obtain ⟨hj, hx⟩ := List.getElem?_eq_some_iff.mp h
  rwa [getElem_slots hj] at hx

/-- A load may read the latest store. -/
theorem load_latest (hm : m.Causal) (t j : ℕ) :
    ∃ mem, m.acquire t (.slot j) ((m.history (.slot j)).length - 1) = some (latest m j, mem) ∧
      mem.history = m.history := by
  have hknown := (hm.views t).known (.slot j)
  have hlt : (m.history (.slot j)).length - 1 < (m.history (.slot j)).length := by omega
  obtain ⟨store, hstore⟩ : ∃ store,
      (m.history (.slot j))[(m.history (.slot j)).length - 1]? = some store :=
    ⟨_, List.getElem?_eq_getElem hlt⟩
  have hload := Memory.load_eq_some.mpr ⟨Nat.le_sub_one_of_lt hknown, hstore⟩
  refine ⟨m.learn t store.view, ?_, rfl⟩
  rw [Memory.acquire, hload, latest, List.getLast?_eq_getElem?, hstore]
  rfl

theorem latest_release_self (m : Mem α) (t j : ℕ) (ptr : Option α) :
    latest (m.release t (.slot j) ptr) j = ptr := by
  rw [latest, Memory.history_release_self, List.getLast?_concat]
  rfl

theorem latest_release_of_ne (m : Mem α) (t : ℕ) {j j' : ℕ} (h : j' ≠ j) (ptr : Option α) :
    latest (m.release t (.slot j) ptr) j' = latest m j' := by
  rw [latest, Memory.history_release_of_ne m t (fun heq => h (Location.slot.inj heq)), latest]

theorem slots_release (numThreads t j : ℕ) (m : Mem α) (ptr : Option α) :
    slots numThreads (m.release t (.slot j) ptr) = (slots numThreads m).set j ptr := by
  refine List.ext_getElem ?_ fun j' hj' hset => ?_
  · rw [List.length_set, length_slots, length_slots]
  · rw [getElem_slots hj', List.getElem_set]
    split
    · rename_i heq
      subst heq
      exact latest_release_self m t j ptr
    · rename_i hne
      rw [getElem_slots]
      exact latest_release_of_ne m t (Ne.symm hne) ptr

end Slots

section Runs

variable [DecidableEq α] {numThreads t : ℕ} {log : List (Event α)} {s : State α}

omit [DecidableEq α] in
theorem goto_of_calls {call : Call α} (h : s.calls t = call) : s.goto t call = s := by
  rw [State.goto, ← h, Function.update_eq_self]

theorem causal_trace (h : Trace (State.step id numThreads) State.new log s) : s.mem.Causal :=
  (inv_trace Function.injective_id h).mem.causal

/-! ## `acquire` -/

/-- Where the loop of `get_free_slot` ends. -/
def afterSearch (ptr : Option α) : Option ℕ → Call α
  | none => .searching ptr maxHazardPtrs
  | some slot => .found ptr slot

theorem run_search {ptr : Option α} {k i : ℕ} {r : Option ℕ}
    (h : Trace (State.step id numThreads) State.new log s) (hcall : s.calls t = .searching ptr i)
    (hk : i + k = maxHazardPtrs)
    (hfree : Domain.freeSlotFrom (slots numThreads s.mem) t k i = some r) :
    ∃ mem : Mem α, mem.history = s.mem.history ∧
      Trace (State.step id numThreads) State.new log
        ({ s with mem := mem }.goto t (afterSearch ptr r)) := by
  induction k generalizing i s with
  | zero =>
    cases hfree
    obtain rfl : i = maxHazardPtrs := hk
    refine ⟨s.mem, rfl, ?_⟩
    have hsame : s.goto t (afterSearch ptr none) = s := goto_of_calls hcall
    show Trace _ _ log (s.goto t (afterSearch ptr none))
    rwa [hsame]
  | succ k ih =>
    have hi : i < maxHazardPtrs := by omega
    obtain ⟨mem, hload, hhistory⟩ := load_latest (causal_trace h) t (place t i)
    rw [Domain.freeSlotFrom] at hfree
    cases hslot : (slots numThreads s.mem)[place t i]? with
    | none =>
      rw [hslot] at hfree
      cases hfree
    | some x =>
      rw [hslot] at hfree
      rw [latest_of_slots hslot] at hload
      cases x with
      | none =>
        cases hfree
        refine ⟨mem, hhistory, ?_⟩
        have hstep : s.step id numThreads
            (.next t ((s.mem.history (.slot (place t i))).length - 1)) =
            some ({ s with mem := mem }.goto t (.found ptr i), none) := by
          simp only [State.step, State.next, id_eq, hcall, if_pos hi, hload, Option.bind_eq_bind,
            Option.bind_some]
        exact h.silent hstep
      | some q =>
        have hstep : s.step id numThreads
            (.next t ((s.mem.history (.slot (place t i))).length - 1)) =
            some ({ s with mem := mem }.goto t (.searching ptr (i + 1)), none) := by
          simp only [State.step, State.next, id_eq, hcall, if_pos hi, hload, Option.bind_eq_bind,
            Option.bind_some]
        rw [← slots_of_history numThreads hhistory] at hfree
        obtain ⟨mem', hhistory', htrace⟩ :=
          ih (h.silent hstep) (Function.update_self ..) (by omega) hfree
        refine ⟨mem', hhistory'.trans hhistory, ?_⟩
        simpa only [State.goto, Function.update_idem] using htrace

variable {d d' : Domain α}

/-- What comes after a call that has returned. -/
def Runs (numThreads : ℕ) (log : List (Event α)) (retired : List α) (d : Domain α) : Prop :=
  ∃ log' s', Trace (State.step id numThreads) State.new (log ++ log') s' ∧
    Shows numThreads (log ++ log') s' d ∧ retirements log' = retired

omit [DecidableEq α] in
theorem Shows.return (hd : Shows numThreads log s d) (t : ℕ) :
    Function.update s.calls t .idle = s.calls := by
  rw [← hd.calls t, Function.update_eq_self]

omit [DecidableEq α] in
theorem Shows.stored (hd : Shows numThreads log s d) {mem : Mem α} {log' : List (Event α)}
    (hhistory : mem.history = s.mem.history) (hlog : deletions log' = deletions log) (t j : ℕ)
    (ptr : Option α) :
    Shows numThreads log' { s with mem := mem.release t (.slot j) ptr } (d.write j ptr) := by
  refine ⟨hd.threads, ?_, hd.retired, hd.deleted.trans hlog.symm, hd.calls, hd.scan⟩
  show d.hazardPtrs.set j ptr = slots numThreads (mem.release t (.slot j) ptr)
  rw [slots_release, slots_of_history numThreads hhistory, hd.hazardPtrs]

theorem run_acquire (h : Trace (State.step id numThreads) State.new log s)
    (hd : Shows numThreads log s d) (ht : t < numThreads) {ptr : Option α} {slot : Option ℕ}
    (hacquire : d.acquire t ptr = some (slot, d')) : Runs numThreads log [] d' := by
  have hbegin : s.step id numThreads (.acquire t ptr) = some (s.goto t (.searching ptr 0), none) :=
    if_pos ⟨hd.calls t, ht⟩
  have hreturn := hd.return t
  have hdeleted : deletions (log ++ [.acquired t slot]) = deletions log := by
    simp [deletions]
  unfold Domain.acquire Domain.getFreeSlot at hacquire
  rw [hd.hazardPtrs] at hacquire
  split at hacquire
  · cases hacquire
  · rename_i hfree
    cases hacquire
    obtain ⟨mem, hhistory, htrace⟩ :=
      run_search (h.silent hbegin) (Function.update_self ..) (Nat.zero_add _) hfree
    have hstep : ({ s with mem := mem }.goto t (.searching ptr maxHazardPtrs)).step id numThreads
        (.next t 0) = some ({ s with mem := mem }, some (.acquired t none)) := by
      simp only [State.step, State.next, State.goto, Function.update_self, lt_irrefl, if_false,
        Function.update_idem, hreturn]
    simp only [State.goto, Function.update_idem] at htrace
    refine ⟨[.acquired t none], _, htrace.step hstep, ?_, rfl⟩
    exact ⟨hd.threads, hd.hazardPtrs.trans (slots_of_history numThreads hhistory).symm,
      hd.retired, hd.deleted.trans hdeleted.symm, hd.calls, hd.scan⟩
  · rename_i slot hfree
    obtain ⟨d'', hstore, heq⟩ := Option.map_eq_some_iff.mp hacquire
    cases heq
    obtain ⟨mem, hhistory, htrace⟩ :=
      run_search (h.silent hbegin) (Function.update_self ..) (Nat.zero_add _) hfree
    have hstep : ({ s with mem := mem }.goto t (.found ptr slot)).step id numThreads (.next t 0) =
        some ({ s with mem := mem.release t (.slot (place t slot)) ptr },
          some (.acquired t (some slot))) := by
      simp only [State.step, State.next, State.goto, id_eq, Function.update_self,
        Function.update_idem, hreturn]
    simp only [State.goto, Function.update_idem] at htrace
    refine ⟨[.acquired t (some slot)], _, htrace.step hstep, ?_, rfl⟩
    rw [Domain.write_of_store hstore]
    exact hd.stored hhistory hdeleted t _ ptr

theorem run_release (h : Trace (State.step id numThreads) State.new log s)
    (hd : Shows numThreads log s d) (ht : t < numThreads) {slot : Option ℕ}
    (hslot : ∀ i ∈ slot, i < maxHazardPtrs) (hrelease : d.release t slot = some d') :
    Runs numThreads log [] d' := by
  cases slot with
  | none =>
    cases hrelease
    rw [← List.append_nil log] at h hd
    exact ⟨[], s, h, hd, rfl⟩
  | some slot =>
    have hstep : s.step id numThreads (.release t slot) =
        some ({ s with mem := s.mem.release t (.slot (place t slot)) none }, none) :=
      if_pos ⟨hd.calls t, ht, hslot slot rfl⟩
    refine ⟨[], _, h.step hstep, ?_, rfl⟩
    rw [Domain.write_of_store hrelease, List.append_nil]
    exact hd.stored rfl rfl t _ none

/-! ## `scan_and_reclaim` -/

/-- The inner loop, from slot `j` on with `k` slots to go. -/
theorem run_mark {start : View ℕ Location} {marks : List (α × Bool)} {p : α} {todo : List α}
    {k j : ℕ}
    (h : Trace (State.step id numThreads) State.new log
      { s with scan := .marking t start marks (p :: todo) j })
    (hk : j + k = numThreads * maxHazardPtrs) :
    ∃ mem : Mem α, mem.history = s.mem.history ∧
      Trace (State.step id numThreads) State.new log
        { s with
          mem := mem
          scan := .marking t start (marks ++ [(p, ((slots numThreads s.mem).drop j).any
            fun x => x = some p)]) todo 0 } := by
  induction k generalizing j s with
  | zero =>
    have hend : ¬ j < numThreads * maxHazardPtrs := by omega
    have hnone : (slots numThreads s.mem).drop j = [] := by
      rw [List.drop_eq_nil_iff, length_slots]
      omega
    refine ⟨s.mem, rfl, h.silent (a := .reclaim 0) ?_⟩
    simp only [State.step, State.reclaim, if_neg hend, hnone, List.any_nil]
  | succ k ih =>
    have hlt : j < numThreads * maxHazardPtrs := by omega
    have hlt' : j < (slots numThreads s.mem).length := by rwa [length_slots]
    have hcausal := causal_trace h
    obtain ⟨mem, hload, hhistory⟩ := load_latest (m := s.mem) hcausal t j
    rw [List.drop_eq_getElem_cons hlt', List.any_cons, getElem_slots hlt']
    by_cases hheld : latest s.mem j = some p
    · refine ⟨mem, hhistory,
        h.silent (a := .reclaim ((s.mem.history (.slot j)).length - 1)) ?_⟩
      simp only [State.step, State.reclaim, if_pos hlt, hload, Option.bind_eq_bind,
        Option.bind_some, hheld, if_true, decide_true, Bool.true_or]
    · have hstep : State.step id numThreads { s with scan := .marking t start marks (p :: todo) j }
          (.reclaim ((s.mem.history (.slot j)).length - 1)) =
          some ({ s with mem := mem, scan := .marking t start marks (p :: todo) (j + 1) },
            none) := by
        simp only [State.step, State.reclaim, if_pos hlt, hload, Option.bind_eq_bind,
          Option.bind_some, hheld, if_false]
      have hslots : slots numThreads mem = slots numThreads s.mem :=
        slots_of_history numThreads hhistory
      obtain ⟨mem', hhistory', htrace⟩ :=
        ih (s := { s with mem := mem }) (h.silent hstep) (by omega)
      refine ⟨mem', hhistory'.trans hhistory, ?_⟩
      rw [hslots] at htrace
      simpa only [hheld, decide_false, Bool.false_or] using htrace

/-- The first loop. -/
theorem run_marks {start : View ℕ Location} {marks : List (α × Bool)} {todo : List α}
    (h : Trace (State.step id numThreads) State.new log
      { s with scan := .marking t start marks todo 0 }) :
    ∃ mem : Mem α, mem.history = s.mem.history ∧
      Trace (State.step id numThreads) State.new log
        { s with
          mem := mem
          scan := .sorting t start (marks ++ todo.map fun p =>
            (p, (slots numThreads s.mem).any fun x => x = some p)) [] } := by
  induction todo generalizing marks s with
  | nil =>
    rw [List.map_nil, List.append_nil]
    exact ⟨s.mem, rfl, h.silent (a := .reclaim 0) rfl⟩
  | cons p todo ih =>
    obtain ⟨mem, hhistory, hmark⟩ := run_mark h (Nat.zero_add _)
    have hslots : slots numThreads mem = slots numThreads s.mem :=
      slots_of_history numThreads hhistory
    obtain ⟨mem', hhistory', htrace⟩ := ih (s := { s with mem := mem }) hmark
    refine ⟨mem', hhistory'.trans hhistory, ?_⟩
    rw [hslots] at htrace
    simpa only [List.map_cons, List.append_assoc, List.singleton_append, List.drop_zero] using
      htrace

/-- The second loop. -/
theorem run_sort {start : View ℕ Location} {kept : List α} (hazardous : α → Bool) (ps : List α)
    (h : Trace (State.step id numThreads) State.new log
      { s with scan := .sorting t start (ps.map fun p => (p, hazardous p)) kept }) :
    ∃ mem : Mem α, mem.history = s.mem.history ∧
      Trace (State.step id numThreads) State.new
        (log ++ (ps.filter fun p => !hazardous p).map .deleted)
        ({ s with
          mem := mem
          retired := kept ++ ps.filter hazardous
          scan := .idle }.goto t .idle) := by
  induction ps generalizing kept log s with
  | nil =>
    refine ⟨s.mem, rfl, ?_⟩
    simp only [List.filter_nil, List.map_nil, List.append_nil]
    exact h.silent (a := .reclaim 0) rfl
  | cons p ps ih =>
    cases hp : hazardous p with
    | true =>
      rw [List.map_cons, hp] at h
      have hkept : Trace (State.step id numThreads) State.new log
          { s with scan := .sorting t start (ps.map fun p => (p, hazardous p)) (kept ++ [p]) } :=
        h.silent (a := .reclaim 0) rfl
      obtain ⟨mem, hhistory, htrace⟩ := ih hkept
      refine ⟨mem, hhistory, ?_⟩
      simpa [hp] using htrace
    | false =>
      rw [List.map_cons, hp] at h
      have hdeleted : Trace (State.step id numThreads) State.new (log ++ [.deleted p])
          { s with
            mem := s.mem.touch t p true
            scan := .sorting t start (ps.map fun p => (p, hazardous p)) kept } :=
        h.step (a := .reclaim 0) (o := some _) rfl
      obtain ⟨mem, hhistory, htrace⟩ := ih (s := { s with mem := s.mem.touch t p true }) hdeleted
      refine ⟨mem, hhistory, ?_⟩
      simpa [hp] using htrace

theorem run_scan (h : Trace (State.step id numThreads) State.new log (s.beginScan t))
    (hd : Shows numThreads log s d) : Runs numThreads log [] d.scanAndReclaim := by
  rw [Domain.scanAndReclaim_eq]
  unfold State.beginScan at h
  split at h
  · rename_i hnil
    refine ⟨[], s, ?_, ?_, rfl⟩
    · rwa [List.append_nil]
    · rw [List.append_nil]
      refine ⟨hd.threads, hd.hazardPtrs, ?_, ?_, hd.calls, hd.scan⟩
      · simp [hd.retired, hnil]
      · simp [hd.retired, hnil, hd.deleted]
  · obtain ⟨mem, hhistory, hmarked⟩ := run_marks (s := s.goto t .reclaiming) h
    obtain ⟨mem', hhistory', htrace⟩ :=
      run_sort (s := { s.goto t .reclaiming with mem := mem }) _ s.retired hmarked
    have hhazardous : d.isHazardous =
        fun p => (slots numThreads s.mem).any fun x => x = some p := by
      funext p
      rw [Domain.isHazardous, hd.hazardPtrs]
    have hdeletions := (deletions_deleted log (s.retired.filter fun p => !d.isHazardous p)).1
    have hretirements := (deletions_deleted [] (s.retired.filter fun p => !d.isHazardous p)).2
    rw [hhazardous] at hdeletions hretirements
    refine ⟨_, _, htrace, ⟨hd.threads, ?_, ?_, ?_, fun t' => ?_, rfl⟩, hretirements⟩
    · exact hd.hazardPtrs.trans (slots_of_history numThreads (hhistory'.trans hhistory)).symm
    · show d.retired.filter d.isHazardous = [] ++ _
      rw [List.nil_append, hd.retired, hhazardous]
      rfl
    · show d.deleted ++ d.retired.filter (fun p => !d.isHazardous p) = _
      rw [hd.deleted, hd.retired, hhazardous]
      exact hdeletions.symm
    · show Function.update (Function.update s.calls t .reclaiming) t .idle t' = .idle
      rw [Function.update_idem, hd.return t]
      exact hd.calls t'

/-! ## All calls -/

theorem run_retire (h : Trace (State.step id numThreads) State.new log s)
    (hd : Shows numThreads log s d) (t : ℕ) (ptr : Option α) :
    Runs numThreads log ptr.toList (d.retire ptr) := by
  cases ptr with
  | none =>
    rw [← List.append_nil log] at h hd
    exact ⟨[], s, h, hd, rfl⟩
  | some p =>
    have hstep : s.step id numThreads (.retire t (some p)) = some (s.retire t (some p)) :=
      if_pos ⟨hd.calls t, hd.scan⟩
    have htrace : Trace (State.step id numThreads) State.new (log ++ [.retired p])
        (s.retire t (some p)).1 := h.step hstep
    have hpushed : Shows numThreads (log ++ [.retired p]) { s with retired := s.retired ++ [p] }
        { d with retired := d.retired ++ [p] } := by
      refine ⟨hd.threads, hd.hazardPtrs, ?_, ?_, hd.calls, hd.scan⟩
      · show d.retired ++ [p] = s.retired ++ [p]
        rw [hd.retired]
      · simpa [deletions] using hd.deleted
    by_cases hscan : (s.retired ++ [p]).length ≥ retiredThreshold
    · have hcall : d.retire (some p) = { d with retired := d.retired ++ [p] }.scanAndReclaim := by
        rw [← hd.retired] at hscan
        exact if_pos hscan
      have hmachine : (s.retire t (some p)).1 =
          { s with retired := s.retired ++ [p] }.beginScan t := if_pos hscan
      rw [hmachine] at htrace
      obtain ⟨log', s', htrace', hd', hretired⟩ := run_scan htrace hpushed
      rw [List.append_assoc, ← hcall] at hd'
      rw [List.append_assoc] at htrace'
      refine ⟨_, s', htrace', hd', ?_⟩
      show p :: retirements log' = [p]
      rw [hretired]
    · have hcall : d.retire (some p) = { d with retired := d.retired ++ [p] } := by
        rw [← hd.retired] at hscan
        exact if_neg hscan
      have hmachine : (s.retire t (some p)).1 = { s with retired := s.retired ++ [p] } :=
        if_neg hscan
      rw [hmachine] at htrace
      rw [hcall]
      exact ⟨[.retired p], _, htrace, hpushed, rfl⟩

theorem run_call (h : Trace (State.step id numThreads) State.new log s)
    (hd : Shows numThreads log s d) {c : DomainCall α} (hrange : c.InRange numThreads)
    (hc : d.call c = some d') : Runs numThreads log c.retired.toList d' := by
  cases c with
  | acquire t ptr =>
    obtain ⟨⟨slot, d''⟩, hacquire, rfl⟩ := Option.map_eq_some_iff.mp hc
    exact run_acquire h hd hrange hacquire
  | release t slot => exact run_release h hd hrange.1 hrange.2 hc
  | retire ptr =>
    cases hc
    exact run_retire h hd 0 ptr
  | scan =>
    cases hc
    have hstep : s.step id numThreads (.scan 0) = some (s.beginScan 0, none) :=
      if_pos ⟨hd.calls 0, hd.scan⟩
    exact run_scan (h.silent hstep) hd

theorem run_calls (h : Trace (State.step id numThreads) State.new log s)
    (hd : Shows numThreads log s d) (cs : List (DomainCall α))
    (hrange : ∀ c ∈ cs, c.InRange numThreads) (hcs : d.calls cs = some d') :
    Runs numThreads log (cs.filterMap DomainCall.retired) d' := by
  induction cs generalizing log s d with
  | nil =>
    cases hcs
    rw [← List.append_nil log] at h hd
    exact ⟨[], s, h, hd, rfl⟩
  | cons c cs ih =>
    obtain ⟨d₁, hc, hcs⟩ := Option.bind_eq_some_iff.mp hcs
    obtain ⟨log₁, s₁, h₁, hd₁, hretired₁⟩ := run_call h hd (hrange c List.mem_cons_self) hc
    obtain ⟨log₂, s₂, h₂, hd₂, hretired₂⟩ :=
      ih h₁ hd₁ (fun c' hc' => hrange c' (List.mem_cons_of_mem _ hc')) hcs
    rw [List.append_assoc] at h₂ hd₂
    refine ⟨_, s₂, h₂, hd₂, ?_⟩
    rw [retirements, List.filterMap_append]
    show retirements log₁ ++ retirements log₂ = _
    rw [hretired₁, hretired₂]
    cases hret : c.retired <;> simp [hret]

end Runs

theorem shows_new (numThreads : ℕ) :
    Shows numThreads [] (State.new : State α) (Domain.new numThreads) := by
  refine ⟨rfl, ?_, rfl, rfl, fun _ => rfl, rfl⟩
  show List.replicate (numThreads * maxHazardPtrs) none = _
  refine List.ext_getElem ?_ fun j hj hj' => ?_
  · rw [List.length_replicate, length_slots]
  · rw [List.getElem_replicate, getElem_slots]
    rfl

variable [DecidableEq α]

/-- **Whole calls.** Every sequence of calls with ids and slots in range, on a new
domain, is a run of the machine in which the methods are taken apart: the machine
ends in no call, with the slots, the retired pointers and the deletions, in order,
that the calls have led to. -/
theorem whole_calls_run (numThreads : ℕ) (cs : List (DomainCall α))
    (hrange : ∀ c ∈ cs, c.InRange numThreads) :
    ∃ d log s, (Domain.new numThreads).calls cs = some d ∧
      Trace (State.step id numThreads) State.new log s ∧ Shows numThreads log s d ∧
      retirements log = cs.filterMap DomainCall.retired := by
  obtain ⟨d, hd⟩ := Option.isSome_iff_exists.mp
    (calls_isSome (d := Domain.new numThreads) cs hrange)
  obtain ⟨log, s, htrace, hshows, hretired⟩ := run_calls .nil (shows_new numThreads) cs hrange hd
  exact ⟨d, log, s, hd, htrace, hshows, hretired⟩

theorem whole_calls_run_held_pair :
    ∃ log s, Trace (State.step id 1) State.new log s ∧ s.retired = [7, 8] ∧
      deletions log = [9] := by
  obtain ⟨d, log, s, hd, htrace, hshows, _⟩ :=
    whole_calls_run 1 heldPair (by simp [heldPair, DomainCall.InRange])
  cases hd
  exact ⟨log, s, htrace, hshows.retired.symm, hshows.deleted.symm⟩

end HftEngine.HazardWeak
