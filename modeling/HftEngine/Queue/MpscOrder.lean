import HftEngine.Queue.MpscInvariant

/-!
# The order in which pushed items come out

A call of `push` is known by the node it creates.  From the log we read off the
calls in the order they began, the exchanges in the order they were made, and
the pops that returned an item.

* `Calls` — how the log and the state belong together, for every interleaving:
  each producer exchanges in the order of its calls, a call that has exchanged
  is between its exchange and its link store until it returns, and the nodes
  left behind are those of the popped items;
* `Pops` — what the consumer returns when it runs alone; with no gap in the
  list it returns every item that is left (`pops_all`);
* `mpsc_fifo` — the items come out in the order of the exchanges.
-/

namespace HftEngine.Mpsc

open Lib

variable {ι α : Type}

/-! ## The calls of a log -/

/-- The call of `push` that creates its node: producer, node, item. -/
def Event.call : Event ι α → Option (ι × Nat × α)
  | .created p node item => some (p, node, item)
  | _ => none

/-- The call of `push` that exchanges `tail_`. -/
def Event.exchange : Event ι α → Option (ι × Nat × α)
  | .exchanged p node item => some (p, node, item)
  | _ => none

/-- The node and item of a `pop` that returns an item. -/
def Event.pop : Event ι α → Option (Nat × α)
  | .popped node item => some (node, item)
  | _ => none

/-- What a `pop` returns. -/
def Event.result : Event ι α → Option (Option α)
  | .missed => some none
  | .popped _ item => some (some item)
  | _ => none

def calls (log : List (Event ι α)) : List (ι × Nat × α) := log.filterMap Event.call

def exchanges (log : List (Event ι α)) : List (ι × Nat × α) := log.filterMap Event.exchange

def popped (log : List (Event ι α)) : List (Nat × α) := log.filterMap Event.pop

def results (log : List (Event ι α)) : List (Option α) := log.filterMap Event.result

/-- The calls that have exchanged and whose item has not been popped. -/
def undelivered (log : List (Event ι α)) : List (ι × Nat × α) :=
  (exchanges log).drop (popped log).length

section Append

variable (log log' : List (Event ι α))

theorem calls_append : calls (log ++ log') = calls log ++ calls log' := List.filterMap_append

theorem exchanges_append : exchanges (log ++ log') = exchanges log ++ exchanges log' :=
  List.filterMap_append

theorem popped_append : popped (log ++ log') = popped log ++ popped log' := List.filterMap_append

theorem results_append : results (log ++ log') = results log ++ results log' :=
  List.filterMap_append

end Append

theorem puts_fifo (log : List (Event ι α)) :
    Fifo.puts (log.filterMap Event.fifo) = (exchanges log).map Prod.snd := by
  unfold Fifo.puts exchanges
  rw [List.filterMap_filterMap, List.map_filterMap]
  congr 1
  funext e
  cases e <;> rfl

theorem takes_fifo (log : List (Event ι α)) :
    Fifo.takes (log.filterMap Event.fifo) = popped log := by
  unfold Fifo.takes popped
  rw [List.filterMap_filterMap]
  congr 1
  funext e
  cases e <;> rfl

/-- What is in the queue is what the log has as undelivered. -/
theorem exchanges_eq {log : List (Event ι α)} {q : List (Nat × α)}
    (h : Fifo (log.filterMap Event.fifo) q) : (exchanges log).map Prod.snd = popped log ++ q := by
  rw [← puts_fifo, ← takes_fifo]
  exact h.puts_eq

theorem undelivered_eq {log : List (Event ι α)} {q : List (Nat × α)}
    (h : Fifo (log.filterMap Event.fifo) q) : (undelivered log).map Prod.snd = q := by
  rw [undelivered, List.map_drop, exchanges_eq h, List.drop_left]

/-! ## Log and state -/

/-- The call a producer has begun without having made its exchange. -/
def State.begun (s : State ι α) (p : ι) : List (ι × Nat × α) :=
  match s.producers p with
  | .created node => [(p, node, (s.nodes node).data)]
  | _ => []

variable [DecidableEq ι]

/-- The calls of one producer. -/
def ofProducer (p : ι) (cs : List (ι × Nat × α)) : List (ι × Nat × α) := cs.filter (·.1 = p)

structure Calls (log : List (Event ι α)) (s : State ι α) : Prop where
  allocated : 0 :: (calls log).map (·.2.1) = List.range s.allocated
  order : ∀ p, ofProducer p (calls log) = ofProducer p (exchanges log) ++ s.begun p
  behind : s.deleted ++ [s.front] = 0 :: (popped log).map Prod.fst
  returned : ∀ c ∈ exchanges log,
    .linked c.1 c.2.1 ∈ log ∨ ∃ prev, s.producers c.1 = .exchanged prev c.2.1
  linked : ∀ p node, .linked p node ∈ log →
    node ∈ (exchanges log).map (·.2.1) ∧ ∀ p' prev, s.producers p' ≠ .exchanged prev node

section Steps

variable {s s' : State ι α} {q : List (Nat × α)} {log : List (Event ι α)} {p : ι}
  {o : Option (Event ι α)}

omit [DecidableEq ι] in
theorem exchanged_nodes (hlog : Fifo (log.filterMap Event.fifo) q) :
    (exchanges log).map (·.2.1) = (popped log).map Prod.fst ++ q.map Prod.fst := by
  have hsnd : (exchanges log).map (·.2.1) = ((exchanges log).map Prod.snd).map Prod.fst := by
    rw [List.map_map]
    rfl
  rw [hsnd, exchanges_eq hlog, List.map_append]

omit [DecidableEq ι] in
/-- The nodes that have been exchanged are left behind or in the list. -/
theorem mem_of_exchanged (hlog : Fifo (log.filterMap Event.fifo) q)
    (hbehind : s.deleted ++ [s.front] = 0 :: (popped log).map Prod.fst) {node : Nat}
    (hnode : node ∈ (exchanges log).map (·.2.1)) :
    node ∈ s.deleted ∨ node ∈ s.front :: q.map Prod.fst := by
  rw [exchanged_nodes hlog, List.mem_append] at hnode
  rcases hnode with hpopped | hq
  · have hmem : node ∈ s.deleted ++ [s.front] := by
      rw [hbehind]
      exact List.mem_cons_of_mem _ hpopped
    rcases List.mem_append.mp hmem with hdeleted | hfront
    · exact .inl hdeleted
    · exact .inr (by rw [List.mem_singleton.mp hfront]; exact List.mem_cons_self)
  · exact .inr (List.mem_cons_of_mem _ hq)

omit [DecidableEq ι] in
theorem begun_of_created {node : Nat} (hp : s.producers p = .created node) :
    s.begun p = [(p, node, (s.nodes node).data)] := by
  unfold State.begun
  rw [hp]

omit [DecidableEq ι] in
theorem begun_of_not_created (hp : ∀ node, s.producers p ≠ .created node) : s.begun p = [] := by
  unfold State.begun
  split
  · rename_i node hcreated
    exact absurd hcreated (hp node)
  · rfl

omit [DecidableEq ι] in
/-- A step of another thread, which changes the data of no node in hand. -/
theorem begun_congr (hp : s'.producers p = s.producers p)
    (hdata : ∀ node, s.producers p = .created node → (s'.nodes node).data = (s.nodes node).data) :
    s'.begun p = s.begun p := by
  unfold State.begun
  rw [hp]
  split
  · rename_i node hcreated
    rw [hdata node hcreated]
  · rfl

/-- A step of a producer leaves the calls of the others as they were. -/
theorem begun_update {x : Push} {p' : ι}
    (hproducers : s'.producers = Function.update s.producers p x) (hp : p ≠ p')
    (hdata : ∀ node, s.producers p' = .created node → (s'.nodes node).data = (s.nodes node).data) :
    s'.begun p' = s.begun p' := by
  refine begun_congr ?_ hdata
  rw [hproducers, Function.update_of_ne (Ne.symm hp)]

/-- A call that has exchanged stays so while its producer takes no step from
there. -/
theorem Calls.returned_update {x : Push} (hc : Calls log s)
    (hproducers : s'.producers = Function.update s.producers p x) (es : List (Event ι α))
    {c : ι × Nat × α} (hmem : c ∈ exchanges log)
    (hp : c.1 = p → ∀ prev, s.producers p ≠ .exchanged prev c.2.1) :
    .linked c.1 c.2.1 ∈ log ++ es ∨ ∃ prev, s'.producers c.1 = .exchanged prev c.2.1 := by
  rcases hc.returned c hmem with hlinked | ⟨prev, hprev⟩
  · exact .inl (List.mem_append_left _ hlinked)
  · refine .inr ⟨prev, ?_⟩
    rw [hproducers, Function.update_of_ne, hprev]
    intro hcp
    rw [hcp] at hprev
    exact hp hcp prev hprev

/-- A node whose call has returned is not exchanged again, unless the producer
that takes the step has just done so. -/
theorem Calls.linked_update {x : Push} (hc : Calls log s)
    (hproducers : s'.producers = Function.update s.producers p x) {p' : ι} {node : Nat}
    (hold : .linked p' node ∈ log) (hx : ∀ prev, x ≠ .exchanged prev node) (p'' : ι) (prev : Nat) :
    s'.producers p'' ≠ .exchanged prev node := by
  rw [hproducers]
  by_cases hp : p'' = p
  · rw [hp, Function.update_self]
    exact hx prev
  · rw [Function.update_of_ne hp]
    exact (hc.linked p' node hold).2 p'' prev

theorem ofProducer_append (p : ι) (cs cs' : List (ι × Nat × α)) :
    ofProducer p (cs ++ cs') = ofProducer p cs ++ ofProducer p cs' := List.filter_append ..

theorem ofProducer_self (p : ι) (x : Nat × α) : ofProducer p [(p, x)] = [(p, x)] := by
  simp [ofProducer]

theorem ofProducer_other {p p' : ι} (hp : p' ≠ p) (x : Nat × α) : ofProducer p [(p', x)] = [] := by
  simp [ofProducer, hp]

theorem calls_push {item : α} (h : Holds s q) (hc : Calls log s)
    (hs : s.push p item = some (s', o)) : Calls (log ++ o.toList) s' := by
  obtain ⟨_, rfl, hidle, hproducers⟩ := holds_push h hs
  have hcalls : calls (log ++ [.created p s.allocated item]) =
      calls log ++ [(p, s.allocated, item)] := calls_append ..
  have hexchanges : exchanges (log ++ [.created p s.allocated item]) = exchanges log := by
    simp [exchanges, Event.exchange]
  have hpopped : popped (log ++ [.created p s.allocated item]) = popped log := by
    simp [popped, Event.pop]
  unfold State.push at hs
  rw [hidle] at hs
  cases hs
  refine ⟨?_, ?_, ?_, ?_, ?_⟩
  · show 0 :: (calls (log ++ [_])).map _ = List.range (s.allocated + 1)
    rw [hcalls, List.map_append, List.range_succ, ← hc.allocated]
    rfl
  · intro p'
    show ofProducer p' (calls (log ++ [_])) = ofProducer p' (exchanges (log ++ [_])) ++ _
    rw [hcalls, hexchanges, ofProducer_append, hc.order p']
    by_cases hp : p = p'
    · subst hp
      rw [ofProducer_self, begun_of_not_created (by rw [hidle]; exact nofun),
        begun_of_created (Function.update_self ..), List.append_nil]
      simp
    · rw [ofProducer_other hp, List.append_nil]
      refine congrArg _ (begun_update rfl hp ?_).symm
      intro node hnode
      show (Function.update s.nodes s.allocated _ node).data = _
      rw [Function.update_of_ne (Nat.ne_of_lt (h.owned.created p' node hnode).1)]
  · rw [Option.toList_some, hpopped]
    exact hc.behind
  · rw [Option.toList_some, hexchanges]
    intro c hmem
    refine hc.returned_update rfl _ hmem ?_
    rw [hidle]
    exact fun _ => nofun
  · rw [Option.toList_some, hexchanges]
    intro p' node hmem
    have hold : .linked p' node ∈ log := by simpa using hmem
    exact ⟨(hc.linked p' node hold).1, hc.linked_update rfl hold nofun⟩

theorem calls_exchange {node : Nat} (h : Holds s q) (hlog : Fifo (log.filterMap Event.fifo) q)
    (hc : Calls log s) (hp : s.producers p = .created node) (hs : s.produce p = some (s', o)) :
    Calls (log ++ o.toList) s' := by
  unfold State.produce at hs
  rw [hp] at hs
  cases hs
  have hcalls : calls (log ++ [.exchanged p node (s.nodes node).data]) = calls log := by
    simp [calls, Event.call]
  have hexchanges : exchanges (log ++ [.exchanged p node (s.nodes node).data]) =
      exchanges log ++ [(p, node, (s.nodes node).data)] := exchanges_append ..
  have hpopped : popped (log ++ [.exchanged p node (s.nodes node).data]) = popped log := by
    simp [popped, Event.pop]
  obtain ⟨_, hchain, hdeleted, _⟩ := h.owned.created p node hp
  refine ⟨?_, ?_, ?_, ?_, ?_⟩
  · rw [Option.toList_some, hcalls]
    exact hc.allocated
  · intro p'
    rw [Option.toList_some, hcalls, hexchanges, ofProducer_append, hc.order p']
    by_cases hpp : p = p'
    · subst hpp
      rw [ofProducer_self, begun_of_created hp, begun_of_not_created, List.append_nil]
      intro node'
      show Function.update s.producers p _ p ≠ _
      rw [Function.update_self]
      exact nofun
    · rw [ofProducer_other hpp, List.append_nil]
      refine congrArg _ (begun_update rfl hpp ?_).symm
      exact fun _ _ => rfl
  · rw [Option.toList_some, hpopped]
    exact hc.behind
  · rw [Option.toList_some, hexchanges]
    intro c hmem
    rcases List.mem_append.mp hmem with hold | hnew
    · refine hc.returned_update rfl _ hold ?_
      rw [hp]
      exact fun _ => nofun
    · rw [List.mem_singleton.mp hnew]
      exact .inr ⟨s.tail, Function.update_self ..⟩
  · rw [Option.toList_some, hexchanges]
    intro p' node' hmem
    have hold : .linked p' node' ∈ log := by simpa using hmem
    have hmem' := (hc.linked p' node' hold).1
    refine ⟨by rw [List.map_append]; exact List.mem_append_left _ hmem',
      hc.linked_update rfl hold ?_⟩
    -- a node in hand has not been exchanged before
    rintro prev ⟨⟩
    rcases mem_of_exchanged hlog hc.behind hmem' with hgone | hlisted
    · exact hdeleted hgone
    · exact hchain hlisted

/-- The node that is being linked has been exchanged, and by nobody else. -/
theorem exchanged_of_pending {prev node : Nat} (h : Holds s q)
    (hlog : Fifo (log.filterMap Event.fifo) q) (hp : s.producers p = .exchanged prev node) :
    node ∈ (exchanges log).map (·.2.1) ∧
      ∀ p' prev', Function.update s.producers p .idle p' ≠ .exchanged prev' node := by
  refine ⟨?_, fun p' prev' hprev => ?_⟩
  · rw [exchanged_nodes hlog]
    exact List.mem_append_right _ (h.linked.pending p prev node hp).1.right_mem_tail
  · by_cases hpp : p' = p
    · rw [hpp, Function.update_self] at hprev
      cases hprev
    · rw [Function.update_of_ne hpp] at hprev
      exact hpp (h.linked.owner p' p node (by rw [hprev]; rfl) (by rw [hp]; rfl))

theorem calls_link {prev node : Nat} (h : Holds s q) (hlog : Fifo (log.filterMap Event.fifo) q)
    (hc : Calls log s) (hp : s.producers p = .exchanged prev node)
    (hs : s.produce p = some (s', o)) : Calls (log ++ o.toList) s' := by
  unfold State.produce at hs
  rw [hp] at hs
  cases hs
  have hcalls : calls (log ++ [.linked p node]) = calls log := by
    simp [calls, Event.call]
  have hexchanges : exchanges (log ++ [.linked p node]) = exchanges log := by
    simp [exchanges, Event.exchange]
  have hpopped : popped (log ++ [.linked p node]) = popped log := by
    simp [popped, Event.pop]
  refine ⟨?_, ?_, ?_, ?_, ?_⟩
  · rw [Option.toList_some, hcalls]
    exact hc.allocated
  · intro p'
    rw [Option.toList_some, hcalls, hexchanges, hc.order p']
    refine congrArg _ ?_
    by_cases hpp : p = p'
    · subst hpp
      rw [begun_of_not_created (by rw [hp]; exact nofun), begun_of_not_created]
      intro node'
      show Function.update s.producers p _ p ≠ _
      rw [Function.update_self]
      exact nofun
    · refine (begun_update rfl hpp ?_).symm
      intro node' _
      show (Function.update s.nodes prev _ node').data = _
      by_cases hprev : node' = prev
      · rw [hprev, Function.update_self]
      · rw [Function.update_of_ne hprev]
  · rw [Option.toList_some, hpopped]
    exact hc.behind
  · rw [Option.toList_some, hexchanges]
    intro c hmem
    by_cases hown : c.1 = p ∧ c.2.1 = node
    · -- this is the call that returns
      rw [hown.1, hown.2]
      exact .inl (List.mem_append_right _ List.mem_cons_self)
    · refine hc.returned_update rfl _ hmem ?_
      intro hcp prev' hprev
      rw [hp] at hprev
      injection hprev with _ hnode
      exact hown ⟨hcp, hnode.symm⟩
  · rw [Option.toList_some, hexchanges]
    intro p' node' hmem
    rcases List.mem_append.mp hmem with hold | hnew
    · exact ⟨(hc.linked p' node' hold).1, hc.linked_update rfl hold nofun⟩
    · cases List.mem_singleton.mp hnew
      exact exchanged_of_pending h hlog hp

omit [DecidableEq ι] in
/-- The consumer touches no producer and no node. -/
theorem consume_frame (s : State ι α) :
    s.consume.1.producers = s.producers ∧ s.consume.1.nodes = s.nodes ∧
      s.consume.1.allocated = s.allocated ∧ calls s.consume.2.toList = [] ∧
      exchanges s.consume.2.toList = [] ∧ ∀ p node, .linked p node ∉ s.consume.2.toList := by
  unfold State.consume
  split <;> exact ⟨rfl, rfl, rfl, rfl, rfl, by simp⟩

omit [DecidableEq ι] in
/-- A node is left behind when its successor's item is returned. -/
theorem consume_behind (h : Holds s q) :
    s.consume.1.deleted ++ [s.consume.1.front] =
      s.deleted ++ [s.front] ++ (popped s.consume.2.toList).map Prod.fst := by
  have hok := h.consumer
  cases hpc : s.consumer with
  | idle => simp [State.consume, State.front, hpc, popped, Event.pop]
  | headLoaded head => simp [State.consume, State.front, hpc, popped, Event.pop]
  | nextLoaded head next =>
    cases next <;> simp [State.consume, State.front, hpc, popped, Event.pop]
  | dataRead head next data =>
    rw [hpc] at hok
    simp [State.consume, State.front, hpc, popped, hok.1]
  | headStored head next data =>
    rw [hpc] at hok
    simp [State.consume, State.front, hpc, popped, Event.pop, hok.1]

theorem calls_consume (h : Holds s q) (hc : Calls log s) :
    Calls (log ++ s.consume.2.toList) s.consume.1 := by
  obtain ⟨hproducers, hnodes, hallocated, hcalls, hexchanges, hlinked⟩ := consume_frame s
  have hcalls' : calls (log ++ s.consume.2.toList) = calls log := by
    rw [calls_append, hcalls, List.append_nil]
  have hexchanges' : exchanges (log ++ s.consume.2.toList) = exchanges log := by
    rw [exchanges_append, hexchanges, List.append_nil]
  refine ⟨?_, ?_, ?_, ?_, ?_⟩
  · rw [hcalls', hallocated]
    exact hc.allocated
  · intro p
    rw [hcalls', hexchanges', hc.order p]
    refine congrArg _ (begun_congr ?_ ?_).symm
    · rw [hproducers]
    · rw [hnodes]
      exact fun _ _ => rfl
  · rw [consume_behind h, hc.behind, popped_append, List.map_append]
    rfl
  · rw [hexchanges', hproducers]
    intro c hmem
    exact (hc.returned c hmem).imp (List.mem_append_left _) id
  · rw [hexchanges', hproducers]
    intro p node hmem
    rcases List.mem_append.mp hmem with hold | hnew
    · exact hc.linked p node hold
    · exact absurd hnew (hlinked p node)

end Steps

/-! ## Every run -/

theorem calls_new (stub : α) : Calls [] (State.new stub : State ι α) :=
  ⟨rfl, fun _ => rfl, rfl, nofun, nofun⟩

theorem calls_trace {stub : α} {log : List (Event ι α)} {s : State ι α}
    (h : Trace State.step (State.new stub) log s) : Calls log s := by
  induction h with
  | nil => exact calls_new stub
  | @step log s s' a o htrace hs ih =>
    obtain ⟨q, hq, hlog⟩ := inv_trace htrace
    cases a with
    | push p item => exact calls_push hq ih hs
    | produce p =>
      rcases holds_produce hq hs with ⟨node, hp, _⟩ | ⟨prev, node, hp, _⟩
      · exact calls_exchange hq hlog ih hp hs
      · exact calls_link hq hlog ih hp hs
    | consume =>
      injection hs with hs
      have hconsume := calls_consume hq ih
      rw [hs] at hconsume
      exact hconsume

/-! ## The consumer alone -/

/-- What the consumer is bound to return, whatever the list holds by now: none,
if it has found no successor. -/
def Pop.owed : Pop α → List (Option α)
  | .nextLoaded _ none => [none]
  | _ => []

/-- The steps to the return of a `pop` that finds an item. -/
def Pop.left : Pop α → Nat
  | .idle => 5
  | .headLoaded _ => 4
  | .nextLoaded _ _ => 3
  | .dataRead _ _ _ => 2
  | .headStored _ _ _ => 1

/-- Steps of the consumer alone lead from one state to the other, and these
are the results of the pops that return on the way. -/
def Pops (s : State ι α) (rs : List (Option α)) (s' : State ι α) : Prop :=
  ∃ k log, run State.step (List.replicate k .consume) s = some (s', log) ∧ results log = rs

theorem Pops.refl (s : State ι α) : Pops s [] s := ⟨0, [], rfl, rfl⟩

theorem Pops.trans {s s' s'' : State ι α} {rs rs' : List (Option α)} (h : Pops s rs s')
    (h' : Pops s' rs' s'') : Pops s (rs ++ rs') s'' := by
  obtain ⟨k, log, hrun, rfl⟩ := h
  obtain ⟨k', log', hrun', rfl⟩ := h'
  refine ⟨k + k', log ++ log', ?_, results_append log log'⟩
  rw [← List.replicate_append_replicate]
  exact run_append hrun hrun'

theorem pops_consume (s : State ι α) : Pops s (results s.consume.2.toList) s.consume.1 :=
  ⟨1, s.consume.2.toList ++ [], run_cons rfl rfl, by rw [List.append_nil]⟩

/-- The rule for one `pop`: if every step returns `r` or comes closer to the
return, `r` is returned. -/
theorem pops_one {inv post : State ι α → Prop} {r : Option α}
    (hstep : ∀ s, inv s →
      (results s.consume.2.toList = [r] ∧ post s.consume.1) ∨
      (results s.consume.2.toList = [] ∧ inv s.consume.1 ∧
        s.consume.1.consumer.left < s.consumer.left))
    {s : State ι α} (hs : inv s) : ∃ s', Pops s [r] s' ∧ post s' := by
  -- by induction on the steps left
  generalize hleft : s.consumer.left = left
  induction left using Nat.strongRecOn generalizing s with
  | ind left ih =>
    have hpops := pops_consume s
    rcases hstep s hs with ⟨hrs, hpost⟩ | ⟨hrs, hinv, hlt⟩
    · rw [hrs] at hpops
      exact ⟨_, hpops, hpost⟩
    · rw [hrs] at hpops
      obtain ⟨s', hpops', hpost⟩ := ih _ (hleft ▸ hlt) hinv rfl
      exact ⟨s', hpops.trans hpops', hpost⟩

section Drain

variable {s : State ι α} {q rest : List (Nat × α)} {x : Nat × α}

/-- No push is between its exchange and its link store. -/
def State.NoGap (s : State ι α) : Prop := ∀ p prev node, s.producers p ≠ .exchanged prev node

omit [DecidableEq ι] in
theorem next_of_noGap (h : Holds s (x :: rest)) (hgap : s.NoGap) :
    (s.nodes s.front).next = some x.1 := by
  rcases h.linked.link s.front x.1 (.inl ⟨rfl, rfl⟩) with hnext | ⟨_, p, hp⟩
  · exact hnext
  · exact absurd hp (hgap p _ _)

omit [DecidableEq ι] in
theorem next_of_empty (h : Holds s []) : (s.nodes s.front).next = none := by
  have hlast := h.linked.last
  injection hlast with htail
  rw [show s.front = s.tail from htail]
  exact h.linked.tail_next

omit [DecidableEq ι] in
/-- A step of the consumer returns the oldest item or comes closer to it. -/
theorem consume_advances (h : Holds s (x :: rest)) (hgap : s.NoGap) (howed : s.consumer.owed = []) :
    (results s.consume.2.toList = [some x.2] ∧ Holds s.consume.1 rest ∧
      s.consume.1.consumer = .idle) ∨
    (results s.consume.2.toList = [] ∧ Holds s.consume.1 (x :: rest) ∧
      s.consume.1.consumer.owed = [] ∧ s.consume.1.consumer.left < s.consumer.left) := by
  obtain ⟨_, ⟨node, item, rest', hq, hpop, h', hidle⟩ | ⟨hquiet, h'⟩⟩ := holds_consume h
  · injection hq with hx hrest
    subst hx hrest
    rw [hpop]
    exact .inl ⟨rfl, h', hidle⟩
  · have hok := h.consumer
    have hnext := next_of_noGap h hgap
    unfold State.front at hnext
    cases hpc : s.consumer with
    | idle =>
      refine .inr ⟨?_, h', ?_, ?_⟩ <;>
        simp [State.consume, hpc, results, Event.result, Pop.owed, Pop.left]
    | headLoaded head =>
      -- the successor is there to be found
      rw [hpc] at hok hnext
      cases hok
      refine .inr ⟨?_, h', ?_, ?_⟩ <;>
        simp [State.consume, hpc, results, Event.result, Pop.owed, Pop.left, hnext]
    | nextLoaded head next =>
      cases next with
      | none =>
        rw [hpc] at howed
        cases howed
      | some next =>
        refine .inr ⟨?_, h', ?_, ?_⟩ <;> simp [State.consume, hpc, results, Pop.owed, Pop.left]
    | dataRead head next data =>
      refine .inr ⟨?_, h', ?_, ?_⟩ <;> simp [State.consume, hpc, results, Pop.owed, Pop.left]
    | headStored head next data => simp [State.consume, hpc, Event.fifo] at hquiet

/-- With no gap in the list, the next `pop` returns the oldest item. -/
theorem pops_first (h : Holds s (x :: rest)) (hgap : s.NoGap) (howed : s.consumer.owed = []) :
    ∃ s', Pops s [some x.2] s' ∧ Holds s' rest ∧ s'.NoGap ∧ s'.consumer.owed = [] := by
  have hstep : ∀ s : State ι α, Holds s (x :: rest) ∧ s.NoGap ∧ s.consumer.owed = [] →
      (results s.consume.2.toList = [some x.2] ∧ Holds s.consume.1 rest ∧ s.consume.1.NoGap ∧
        s.consume.1.consumer.owed = []) ∨
      (results s.consume.2.toList = [] ∧
        (Holds s.consume.1 (x :: rest) ∧ s.consume.1.NoGap ∧ s.consume.1.consumer.owed = []) ∧
        s.consume.1.consumer.left < s.consumer.left) := by
    rintro s ⟨h, hgap, howed⟩
    have hgap' : s.consume.1.NoGap := by
      unfold State.NoGap
      rw [(holds_consume h).1]
      exact hgap
    rcases consume_advances h hgap howed with ⟨hrs, h', hidle⟩ | ⟨hrs, h', howed', hlt⟩
    · exact .inl ⟨hrs, h', hgap', by rw [hidle]; rfl⟩
    · exact .inr ⟨hrs, ⟨h', hgap', howed'⟩, hlt⟩
  exact pops_one hstep ⟨h, hgap, howed⟩

omit [DecidableEq ι] in
/-- On the empty list a step of the consumer returns none or comes closer to it. -/
theorem consume_empty (h : Holds s []) :
    (results s.consume.2.toList = [none] ∧ Holds s.consume.1 []) ∨
    (results s.consume.2.toList = [] ∧ Holds s.consume.1 [] ∧
      s.consume.1.consumer.left < s.consumer.left) := by
  obtain ⟨_, ⟨node, item, rest', hq, _⟩ | ⟨_, h'⟩⟩ := holds_consume h
  · cases hq
  · have hok := h.consumer
    have hnext := next_of_empty h
    unfold State.front at hnext
    cases hpc : s.consumer with
    | idle =>
      refine .inr ⟨?_, h', ?_⟩ <;> simp [State.consume, hpc, results, Event.result, Pop.left]
    | headLoaded head =>
      refine .inr ⟨?_, h', ?_⟩ <;> simp [State.consume, hpc, results, Event.result, Pop.left]
    | nextLoaded head next =>
      cases next with
      | none =>
        refine .inl ⟨?_, h'⟩
        simp [State.consume, hpc, results, Event.result]
      | some next =>
        rw [hpc] at hok hnext
        obtain ⟨rfl, hsome⟩ := hok
        rw [hsome next rfl] at hnext
        cases hnext
    | dataRead head next data =>
      rw [hpc] at hok
      cases hok.2.2
    | headStored head next data =>
      rw [hpc] at hok
      cases hok.2.2

/-- On the empty list every `pop` returns none. -/
theorem pops_none (h : Holds s []) : ∃ s', Pops s [none] s' ∧ Holds s' [] :=
  pops_one (fun _ => consume_empty) h

theorem pops_nones (h : Holds s []) (n : Nat) : ∃ s', Pops s (List.replicate n none) s' := by
  induction n generalizing s with
  | zero => exact ⟨s, .refl s⟩
  | succ n ih =>
    obtain ⟨s₁, hpops, h₁⟩ := pops_none h
    obtain ⟨s', hpops'⟩ := ih h₁
    exact ⟨s', hpops.trans hpops'⟩

/-- A `pop` that has found no successor returns none first. -/
theorem pops_owed (h : Holds s q) (hgap : s.NoGap) :
    ∃ s', Pops s s.consumer.owed s' ∧ Holds s' q ∧ s'.NoGap ∧ s'.consumer.owed = [] := by
  by_cases howed : s.consumer.owed = []
  · exact ⟨s, howed ▸ .refl s, h, hgap, howed⟩
  · obtain ⟨head, hpc⟩ : ∃ head, s.consumer = .nextLoaded head none := by
      unfold Pop.owed at howed
      split at howed
      · exact ⟨_, by assumption⟩
      · exact absurd rfl howed
    obtain ⟨_, ⟨node, item, rest', _, hpop, _⟩ | ⟨_, h'⟩⟩ := holds_consume h
    · simp [State.consume, hpc] at hpop
    · have hpops := pops_consume s
      simp only [State.consume, hpc] at hpops h'
      exact ⟨_, by rw [hpc]; exact hpops, h', hgap, rfl⟩

theorem pops_rest (h : Holds s q) (hgap : s.NoGap) (howed : s.consumer.owed = []) (n : Nat) :
    ∃ s', Pops s ((q.map fun x => some x.2) ++ List.replicate n none) s' := by
  induction q generalizing s with
  | nil => exact pops_nones h n
  | cons x rest ih =>
    obtain ⟨s₁, hpops, h₁, hgap₁, howed₁⟩ := pops_first h hgap howed
    obtain ⟨s', hpops'⟩ := ih h₁ hgap₁ howed₁
    exact ⟨s', hpops.trans hpops'⟩

/-- With no gap in the list, pops return all that is left, then none. -/
theorem pops_all (h : Holds s q) (hgap : s.NoGap) (n : Nat) :
    ∃ s', Pops s (s.consumer.owed ++ ((q.map fun x => some x.2) ++ List.replicate n none)) s' := by
  obtain ⟨s₁, hpops, h₁, hgap₁, howed₁⟩ := pops_owed h hgap
  obtain ⟨s', hpops'⟩ := pops_rest h₁ hgap₁ howed₁ n
  exact ⟨s', hpops.trans hpops'⟩

end Drain

/-! ## First in, first out -/

variable {stub : α} {log : List (Event ι α)} {s : State ι α}

/-- No two calls have the same node. -/
theorem nodup_exchanges (h : Trace State.step (State.new stub) log s) :
    ((exchanges log).map (·.2.1)).Nodup := by
  obtain ⟨q, hq, hlog⟩ := inv_trace h
  have hbehind := (calls_trace h).behind
  have hall : s.deleted ++ s.front :: q.map Prod.fst = 0 :: (exchanges log).map (·.2.1) := by
    calc s.deleted ++ s.front :: q.map Prod.fst
        = s.deleted ++ [s.front] ++ q.map Prod.fst := by simp
      _ = 0 :: (popped log ++ q).map Prod.fst := by rw [hbehind, List.map_append]; rfl
      _ = 0 :: (exchanges log).map (·.2.1) := by rw [← exchanges_eq hlog, List.map_map]; rfl
  have hnodup := hq.nodup
  rw [hall] at hnodup
  exact (List.nodup_cons.mp hnodup).2

/-- In every interleaving, the items that pops return are those of the first
exchanges, in the order of the exchanges; each call's item comes out at most
once, and each producer's items come out in the order of its calls.  When no
push is between its exchange and its link store, pops return the items that
are left, in that order, and then none (a `pop` that had already found the list
empty returns none first). -/
theorem mpsc_fifo (h : Trace State.step (State.new stub) log s) :
    (∃ delivered, delivered <+: exchanges log ∧ delivered.map Prod.snd = popped log ∧
      (delivered.map (·.2.1)).Nodup ∧
      ∀ p, ofProducer p delivered <+: ofProducer p (calls log)) ∧
    (s.NoGap → ∀ n, ∃ s', Pops s (s.consumer.owed ++
      (((undelivered log).map fun c => some c.2.2) ++ List.replicate n none)) s') := by
  obtain ⟨q, hq, hlog⟩ := inv_trace h
  refine ⟨⟨(exchanges log).take (popped log).length, List.take_prefix _ _, ?_, ?_, ?_⟩, ?_⟩
  · rw [List.map_take, exchanges_eq hlog, List.take_left]
  · exact (nodup_exchanges h).sublist ((List.take_sublist _ _).map _)
  · intro p
    rw [(calls_trace h).order p]
    exact ((List.take_prefix _ _).filter _).trans (List.prefix_append _ _)
  · intro hgap n
    have hitems : ((undelivered log).map fun c => some c.2.2) = q.map fun x => some x.2 := by
      rw [← undelivered_eq hlog, List.map_map]
      rfl
    rw [hitems]
    exact pops_all hq hgap n

/-- Producer `true` is overtaken between its exchange and its link store by a
whole `push` of producer `false`; its first item is popped, then both push
another. -/
def overtaken : List (Act Bool Nat) :=
  [.push true 1, .produce true, .push false 2, .produce false, .produce false, .produce true,
   .consume, .consume, .consume, .consume, .consume,
   .push false 3, .push true 4, .produce true, .produce false, .produce true, .produce false]

def overtakenLog : List (Event Bool Nat) :=
  [.created true 1 1, .exchanged true 1 1, .created false 2 2, .exchanged false 2 2,
   .linked false 2, .linked true 1, .began, .probed, .popped 1 1,
   .created false 3 3, .created true 4 4, .exchanged true 4 4, .exchanged false 3 3,
   .linked true 4, .linked false 3]

theorem trace_overtaken :
    ∃ s, Trace State.step (State.new 0) overtakenLog s ∧ (∀ p, s.producers p = .idle) ∧
      s.consumer = .idle := by
  have hend : (run State.step overtaken (State.new 0)).map
      (fun r => (r.1.producers true, r.1.producers false, r.1.consumer, r.2)) =
      some (.idle, .idle, .idle, overtakenLog) := by decide
  obtain ⟨⟨s, log⟩, hrun, heq⟩ := Option.map_eq_some_iff.mp hend
  injection heq with htrue heq
  injection heq with hfalse heq
  injection heq with hidle hlog
  subst hlog
  refine ⟨s, trace_run hrun, ?_, hidle⟩
  intro p
  cases p with
  | true => exact htrue
  | false => exact hfalse

theorem mpsc_fifo_overtaken :
    ∃ s, Trace State.step (State.new 0) overtakenLog s ∧ s.NoGap ∧
      (∃ delivered, delivered <+: exchanges overtakenLog ∧
        delivered.map Prod.snd = popped overtakenLog ∧ (delivered.map (·.2.1)).Nodup ∧
        ∀ p, ofProducer p delivered <+: ofProducer p (calls overtakenLog)) ∧
      ∃ s', Pops s [some 2, some 4, some 3, none] s' := by
  obtain ⟨s, htrace, hproducers, hidle⟩ := trace_overtaken
  have hgap : s.NoGap := by
    intro p prev node
    rw [hproducers p]
    exact nofun
  have hpops := (mpsc_fifo htrace).2 hgap 1
  rw [hidle] at hpops
  exact ⟨s, htrace, hgap, (mpsc_fifo htrace).1, hpops⟩

end HftEngine.Mpsc
