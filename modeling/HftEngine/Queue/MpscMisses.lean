import HftEngine.Queue.MpscOrder

/-!
# When a pop finds nothing

`pop` returns none when the load of `head->next` finds a null pointer.  On a
list with items that is so exactly when the oldest of them belongs to a push
that has not reached its link store (`next_front_iff`): the items behind it are
out of reach, those of calls that have returned included.

* `found_trace` — once it has loaded `next`, what the `pop` returns is decided;
* `stalled_push_hides_returned_push` — a schedule in which a `pop` returns none
  although a push has returned whose item has not been delivered;
* `mpsc_pop_misses_iff` — when this happens.
-/

namespace HftEngine.Mpsc

open Lib

variable {ι α : Type} [DecidableEq ι] {stub : α} {log log' : List (Event ι α)} {s s' : State ι α}
  {q rest : List (Nat × α)} {o : Option (Event ι α)} {a : Act ι α}

/-! ## The gap after the head -/

omit [DecidableEq ι] in
theorem next_front_iff {x : Nat × α} (h : Holds s (x :: rest)) :
    (s.nodes s.front).next = none ↔ ∃ p prev, s.producers p = .exchanged prev x.1 := by
  have hadj : Adjacent (s.front :: (x :: rest).map Prod.fst) s.front x.1 := .inl ⟨rfl, rfl⟩
  constructor
  · intro hnone
    rcases h.linked.link _ _ hadj with hsome | ⟨_, p, hp⟩
    · rw [hnone] at hsome
      cases hsome
    · exact ⟨p, _, hp⟩
  · rintro ⟨p, prev, hp⟩
    obtain ⟨hprev, hnone⟩ := h.linked.pending p prev x.1 hp
    rwa [hadj.unique_left h.linked.nodup hprev]

/-- In terms of the log: the oldest undelivered call has not returned. -/
theorem next_front_log {c : ι × Nat × α} (h : Trace State.step (State.new stub) log s)
    (hc : (undelivered log).head? = some c) :
    (s.nodes s.front).next = none ↔ .linked c.1 c.2.1 ∉ log := by
  obtain ⟨q, hq, hlog⟩ := inv_trace h
  have hcalls := calls_trace h
  obtain ⟨cs, hcs⟩ : ∃ cs, undelivered log = c :: cs := by
    cases hu : undelivered log with
    | nil => rw [hu] at hc; cases hc
    | cons c' cs =>
      rw [hu] at hc
      injection hc with hc
      exact ⟨cs, by rw [hc]⟩
  have hmem : c ∈ exchanges log := List.mem_of_mem_drop (by rw [← undelivered, hcs]; simp)
  have hu := undelivered_eq hlog
  rw [hcs] at hu
  subst hu
  rw [next_front_iff hq]
  constructor
  · rintro ⟨p, prev, hp⟩ hlinked
    exact (hcalls.linked _ _ hlinked).2 p prev hp
  · intro hlinked
    obtain ⟨prev, hprev⟩ := (hcalls.returned c hmem).resolve_left hlinked
    exact ⟨c.1, prev, hprev⟩

/-! ## One call of `pop` -/

/-- A step of `pop` that is observed. -/
def Event.ofPop : Event ι α → Bool
  | .began | .probed | .missed | .popped _ _ => true
  | _ => false

/-- Whether the load of `next` found a node, once it has been made. -/
def Pop.found? : Pop α → Option Bool
  | .idle | .headLoaded _ => none
  | .nextLoaded _ next => some next.isSome
  | .dataRead _ _ _ | .headStored _ _ _ => some true

theorem consumer_of_produce {p : ι} (hs : s.produce p = some (s', o)) :
    s'.consumer = s.consumer := by
  unfold State.produce at hs
  split at hs <;> cases hs <;> rfl

theorem consumer_of_push {p : ι} {item : α} (hs : s.push p item = some (s', o)) :
    s'.consumer = s.consumer := by
  unfold State.push at hs
  split at hs <;> cases hs
  rfl

theorem found_step {b : Bool} (hs : s.step a = some (s', o)) (hb : s.consumer.found? = some b)
    (ho : ∀ e ∈ o.toList, e.ofPop = false) : s'.consumer.found? = some b := by
  cases a with
  | push p item => rw [consumer_of_push hs, hb]
  | produce p => rw [consumer_of_produce hs, hb]
  | consume =>
    injection hs with hs
    unfold State.consume at hs
    split at hs
    all_goals
      rename_i hpc
      cases hs
      rw [hpc] at hb
    · cases hb
    · cases hb
    · cases ho .missed (by simp)
    · exact hb
    · exact hb
    · cases ho (.popped _ _) List.mem_cons_self

/-- Until the `pop` returns, what it has found stands. -/
theorem found_trace {b : Bool} (h : Trace State.step s log s') (hb : s.consumer.found? = some b)
    (hlog : ∀ e ∈ log, e.ofPop = false) : s'.consumer.found? = some b := by
  induction h with
  | nil => exact hb
  | step _ hs ih =>
    refine found_step hs (ih fun e he => hlog e (List.mem_append_left _ he)) ?_
    exact fun e he => hlog e (List.mem_append_right _ he)

theorem probed_step (hs : s.step a = some (s', some .probed)) :
    ∃ head, s.consumer = .headLoaded head ∧
      s'.consumer = .nextLoaded head (s.nodes head).next := by
  cases a with
  | push p item =>
    simp only [State.step, State.push] at hs
    split at hs <;> cases hs
  | produce p =>
    simp only [State.step, State.produce] at hs
    split at hs <;> cases hs
  | consume =>
    injection hs with hs
    unfold State.consume at hs
    split at hs <;> cases hs
    exact ⟨_, by assumption, rfl⟩

/-- The step with which a `pop` returns. -/
theorem result_step {r : Event ι α} (hs : s.step a = some (s', some r)) (hr : r.result.isSome) :
    s.consume.2 = some r := by
  cases a with
  | push p item =>
    simp only [State.step, State.push] at hs
    split at hs <;> cases hs
    cases hr
  | produce p =>
    simp only [State.step, State.produce] at hs
    split at hs <;> cases hs <;> cases hr
  | consume =>
    injection hs with hs
    rw [hs]

omit [DecidableEq ι] in
theorem consume_of_found {b : Bool} {r : Event ι α} (hb : s.consumer.found? = some b)
    (hs : s.consume.2 = some r) : r = .missed ↔ b = false := by
  unfold State.consume at hs
  split at hs
  all_goals
    rename_i hpc
    rw [hpc] at hb
    cases hb
  · cases hs
    exact ⟨fun _ => rfl, fun _ => rfl⟩
  · cases hs
  · cases hs
  · cases hs
    exact ⟨nofun, nofun⟩

omit [DecidableEq ι] in
theorem popped_of_not_ofPop (h : ∀ e ∈ log, e.ofPop = false) : popped log = [] := by
  refine List.filterMap_eq_nil_iff.mpr ?_
  intro e he
  have hpop := h e he
  cases e with
  | popped node item => cases hpop
  | _ => rfl

omit [DecidableEq ι] in
/-- As long as no `pop` returns an item, calls are only added. -/
theorem undelivered_append (h : Fifo (log.filterMap Event.fifo) q) (hpop : popped log' = []) :
    undelivered (log ++ log') = undelivered log ++ exchanges log' := by
  have hle : (popped log).length ≤ (exchanges log).length := by
    have hlen := congrArg List.length (exchanges_eq h)
    rw [List.length_map, List.length_append] at hlen
    omega
  unfold undelivered
  rw [exchanges_append, popped_append, hpop, List.append_nil, List.drop_append_of_le_length hle]

omit [DecidableEq ι] in
/-- So the oldest undelivered call stays the same. -/
theorem oldest_append (h : Fifo (log.filterMap Event.fifo) q) (hpop : popped log' = [])
    {oldest : ι × Nat × α} (holdest : (undelivered log).head? = some oldest) :
    (undelivered (log ++ log')).head? = some oldest := by
  rw [undelivered_append h hpop, List.head?_append, holdest]
  rfl

/-! ## Returned, and out of reach -/

/-- Producer `true` makes its exchange and stalls; producer `false` completes
its call, after which the consumer pops. -/
def stalled : List (Act Bool Nat) :=
  [.push true 1, .produce true, .push false 2, .produce false, .produce false,
   .consume, .consume, .consume]

def stalledLog : List (Event Bool Nat) :=
  [.created true 1 1, .exchanged true 1 1, .created false 2 2, .exchanged false 2 2,
   .linked false 2]

theorem stalled_push_hides_returned_push :
    (∃ s, Trace State.step (State.new 0) (stalledLog ++ [.began, .probed, .missed]) s) ∧
      .linked false 2 ∈ stalledLog ∧ (false, 2, 2) ∈ undelivered stalledLog := by
  have hlog : (run State.step stalled (State.new 0)).map Prod.snd =
      some (stalledLog ++ [.began, .probed, .missed]) := by decide
  exact ⟨trace_of_log hlog, by decide, by decide⟩

/-- A `pop` that begins when the item of some push has not been delivered
returns none exactly if the oldest undelivered push has not made its link store
before the `pop` loads `next`; otherwise it returns the item of that push.  So
when a push has returned, the `pop` misses its item only because of another
push, whose exchange came before. -/
theorem mpsc_pop_misses_iff {before mid during after : List (Event ι α)} {r : Event ι α}
    {c : ι × Nat × α}
    (h : Trace State.step (State.new stub)
      (before ++ .began :: mid ++ .probed :: (during ++ r :: after)) s)
    (hmid : ∀ e ∈ mid, e.ofPop = false) (hduring : ∀ e ∈ during, e.ofPop = false)
    (hr : r.result.isSome) (hundelivered : c ∈ undelivered before) :
    ∃ oldest, (undelivered before).head? = some oldest ∧
      (r = .missed ↔ .linked oldest.1 oldest.2.1 ∉ before ++ .began :: mid) ∧
      (r ≠ .missed → r = .popped oldest.2.1 oldest.2.2) ∧
      (.linked c.1 c.2.1 ∈ before → r = .missed → c ≠ oldest) := by
  obtain ⟨oldest, holdest⟩ : ∃ oldest, (undelivered before).head? = some oldest := by
    cases hu : undelivered before with
    | nil => rw [hu] at hundelivered; cases hundelivered
    | cons c' cs => exact ⟨c', rfl⟩
  obtain ⟨s₁, a, s₂, h₁, hprobed, h₂⟩ := h.observed
  obtain ⟨s₃, b, s₄, h₃, hresult, _⟩ := h₂.observed
  obtain ⟨s₀, _, _, h₀, _⟩ := h₁.observed
  obtain ⟨q₀, _, hlog₀⟩ := inv_trace h₀
  obtain ⟨q₁, hq₁, hlog₁⟩ := inv_trace h₁
  have h₁₃ := (h₁.trans (Trace.step .nil hprobed)).trans h₃
  obtain ⟨q₃, hq₃, hlog₃⟩ := inv_trace h₁₃
  -- the oldest undelivered call stays the same while the `pop` is on its way
  have hpop₁ : popped (.began :: mid) = [] := show popped mid = [] from popped_of_not_ofPop hmid
  have hpop₃ : popped (.probed :: during) = [] :=
    show popped during = [] from popped_of_not_ofPop hduring
  have holdest₁ := oldest_append hlog₀ hpop₁ holdest
  have holdest₃ : q₃.head? = some oldest.2 := by
    rw [← undelivered_eq hlog₃, List.append_assoc, List.head?_map]
    exact congrArg (Option.map Prod.snd) (oldest_append hlog₁ hpop₃ holdest₁)
  have hmissed : r = .missed ↔ .linked oldest.1 oldest.2.1 ∉ before ++ .began :: mid := by
    obtain ⟨head, hpc, hpc'⟩ := probed_step hprobed
    have hfront : s₁.front = head := by
      have hok := hq₁.consumer
      rw [hpc] at hok
      unfold State.front
      rw [hpc]
      exact hok.symm
    have hfound : s₃.consumer.found? = some (s₁.nodes s₁.front).next.isSome := by
      refine found_trace h₃ ?_ hduring
      rw [hpc', hfront]
      rfl
    rw [consume_of_found hfound (result_step hresult hr), ← next_front_log h₁ holdest₁,
      Option.isSome_eq_false_iff, Option.isNone_iff_eq_none]
  refine ⟨oldest, holdest, hmissed, ?_, ?_⟩
  · intro hne
    have hconsume := result_step hresult hr
    obtain ⟨_, ⟨node, item, rest, rfl, hpopped, _⟩ | ⟨hquiet, _⟩⟩ := holds_consume hq₃
    · injection holdest₃ with hx
      rw [hconsume] at hpopped
      injection hpopped with hpopped
      rw [hpopped, ← hx]
    · rw [hconsume] at hquiet
      cases r with
      | missed => exact absurd rfl hne
      | popped node item => cases hquiet
      | _ => cases hr
  · rintro hlinked hmiss rfl
    exact hmissed.mp hmiss (List.mem_append_left _ hlinked)

theorem mpsc_pop_misses_stalled :
    (true, 1, 1) ∈ undelivered stalledLog ∧ .linked true 1 ∉ stalledLog ++ [.began] ∧
      ∃ oldest, (undelivered stalledLog).head? = some oldest ∧
        .linked oldest.1 oldest.2.1 ∉ stalledLog ++ [.began] ∧ (false, 2, 2) ≠ oldest := by
  have hlog : (run State.step stalled (State.new 0)).map Prod.snd =
      some (stalledLog ++ .began :: [] ++ .probed :: ([] ++ .missed :: [])) := by decide
  obtain ⟨s, hs⟩ := trace_of_log hlog
  obtain ⟨oldest, holdest, hmissed, _, hother⟩ :=
    mpsc_pop_misses_iff hs nofun nofun rfl (c := (false, 2, 2)) (by decide)
  exact ⟨by decide, by decide, oldest, holdest, hmissed.mp rfl, hother (by decide) rfl⟩

end HftEngine.Mpsc
