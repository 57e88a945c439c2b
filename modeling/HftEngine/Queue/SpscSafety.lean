import HftEngine.Queue.Spsc

/-!
# The ring under every interleaving

What a thread has loaded stays good enough for what it does with it: the
producer's test for room is made against a `tail_` that only moves on, and the
consumer's test for an item against a `head_` that only moves on
(`Producer.Ok`, `Consumer.Ok`).  `effect_of_stepped` says what one step of
either thread then does to the queue; from it:

* `inv_trace` — seen through its stores to `head_` and `tail_`, the ring is a
  first-in first-out list of slots and items;
* `spsc_fifo` — pops return the pushed items in order, and no slot is written
  while its item waits to be popped.
-/

namespace HftEngine.Spsc

open Lib

variable {α : Type} {k : Nat}

/-- What the producer relies on between its steps. -/
def Producer.Ok (q : SpscQueue α k) : Producer α → Prop
  | .idle => True
  | .headLoaded _ head => head = q.head
  | .roomFound _ head => head = q.head ∧ q.slotted.length + 1 < 2 ^ k
  | .itemWritten item head => head = q.head ∧ q.slotted.length + 1 < 2 ^ k ∧ q.data head = item
  | .asking _ => True

/-- What the consumer relies on between its steps. -/
def Consumer.Ok (q : SpscQueue α k) : Consumer α → Prop
  | .idle => True
  | .tailLoaded tail => tail = q.tail
  | .itemFound tail => tail = q.tail ∧ q.slotted ≠ []
  | .itemRead tail item => tail = q.tail ∧ ∃ rest, q.slotted = (tail, item) :: rest
  | .asking _ => True

/-- The store of a `push` or a `pop` that succeeds, as the log of a list of
slots and items. -/
def Event.fifo : Event α → Option (FifoEvent (Nat × α))
  | .pushed slot item => some (.put (slot, item))
  | .popped slot item => some (.take (slot, item))
  | _ => none

/-- The event is of a step that stores nothing. -/
def Event.quiet : Event α → Bool
  | .wrote _ _ | .pushed _ _ | .popped _ _ => false
  | _ => true

theorem fifo_of_quiet {o : Option (Event α)} (h : o.all Event.quiet = true) :
    o.toList.filterMap Event.fifo = [] := by
  cases o with
  | none => rfl
  | some e => cases e <;> first | rfl | cases h

/-! ## What one step can do -/

inductive Effect (s : State α k) : Option (Event α) → State α k → Prop
  | producer {pc : Producer α} {o : Option (Event α)} : pc.Ok s.queue →
      o.all Event.quiet = true → Effect s o { s with producer := pc }
  | consumer {pc : Consumer α} {o : Option (Event α)} : pc.Ok s.queue →
      o.all Event.quiet = true → Effect s o { s with consumer := pc }
  | wrote (item : α) : s.queue.slotted.length + 1 < 2 ^ k →
      Effect s (some (.wrote s.queue.head item))
        { s with
          queue := s.queue.write s.queue.head item
          producer := .itemWritten item s.queue.head }
  | pushed : s.queue.slotted.length + 1 < 2 ^ k →
      Effect s (some (.pushed s.queue.head (s.queue.data s.queue.head)))
        { s with queue := s.queue.storeHead s.queue.head, producer := .idle }
  | popped {item : α} {rest : List (Nat × α)} : s.queue.slotted = (s.queue.tail, item) :: rest →
      Effect s (some (.popped s.queue.tail item))
        { s with queue := s.queue.storeTail s.queue.tail, consumer := .idle }

/-- What a step does to the queue, the threads being where they can be. -/
theorem effect_of_stepped {s s' : State α k} {o : Option (Event α)} (hp : s.producer.Ok s.queue)
    (hc : s.consumer.Ok s.queue) (hs : Stepped s o s') : Effect s o s' := by
  cases hs with
  | push item _ => exact .producer rfl rfl
  | refused _ _ => exact .producer trivial rfl
  | roomFound hpc hroom =>
    rw [hpc] at hp
    obtain rfl : _ = s.queue.head := hp
    exact .producer ⟨rfl, s.queue.room_iff.mp hroom⟩ rfl
  | wrote hpc =>
    rw [hpc] at hp
    obtain ⟨rfl, hroom⟩ := hp
    exact .wrote _ hroom
  | pushed hpc =>
    rw [hpc] at hp
    obtain ⟨rfl, hroom, rfl⟩ := hp
    exact .pushed hroom
  | pop _ => exact .consumer rfl rfl
  | missed _ _ => exact .consumer trivial rfl
  | itemFound hpc hitem =>
    rw [hpc] at hc
    obtain rfl : _ = s.queue.tail := hc
    exact .consumer ⟨rfl, fun hnil => hitem (s.queue.slotted_eq_nil_iff.mp hnil)⟩ rfl
  | itemRead hpc =>
    rw [hpc] at hc
    obtain ⟨rfl, hne⟩ := hc
    exact .consumer ⟨rfl, _, SpscQueue.slotted_storeTail hne⟩ rfl
  | popped hpc =>
    rw [hpc] at hc
    obtain ⟨rfl, rest, hslotted⟩ := hc
    exact .popped hslotted
  | producerAsked _ _ => exact .producer trivial rfl
  | consumerAsked _ _ => exact .consumer trivial rfl
  | @producerAnswered a _ => exact .producer trivial (by cases a <;> rfl)
  | @consumerAnswered a _ => exact .consumer trivial (by cases a <;> rfl)

/-! ## What the other thread relies on is kept -/

section Frames

variable {q : SpscQueue α k}

theorem Consumer.ok_write {pc : Consumer α} (item : α) (h : pc.Ok q) :
    pc.Ok (q.write q.head item) := by
  cases pc with
  | idle => trivial
  | tailLoaded tail => exact h
  | itemFound tail => exact ⟨h.1, by rw [SpscQueue.slotted_write]; exact h.2⟩
  | itemRead tail item => exact ⟨h.1, by rw [SpscQueue.slotted_write]; exact h.2⟩
  | asking a => trivial

theorem Consumer.ok_storeHead {pc : Consumer α} (hroom : q.slotted.length + 1 < 2 ^ k)
    (h : pc.Ok q) : pc.Ok (q.storeHead q.head) := by
  have hslotted := SpscQueue.slotted_storeHead hroom
  cases pc with
  | idle => trivial
  | tailLoaded tail => exact h
  | itemFound tail => exact ⟨h.1, by rw [hslotted]; simp⟩
  | itemRead tail item =>
    obtain ⟨htail, rest, hrest⟩ := h
    exact ⟨htail, _, by rw [hslotted, hrest]; rfl⟩
  | asking a => trivial

theorem Producer.ok_storeTail {pc : Producer α} (hne : q.slotted ≠ []) (h : pc.Ok q) :
    pc.Ok (q.storeTail q.tail) := by
  -- a slot is freed, so there is room for one more than before
  have hlen : (q.storeTail q.tail).slotted.length + 1 = q.slotted.length := by
    conv_rhs => rw [SpscQueue.slotted_storeTail hne]
    rfl
  cases pc with
  | idle => trivial
  | headLoaded item head => exact h
  | roomFound item head => exact ⟨h.1, by have := h.2; omega⟩
  | itemWritten item head => exact ⟨h.1, by have := h.2.1; omega, h.2.2⟩
  | asking a => trivial

end Frames

/-! ## Every run -/

/-- The invariant: both threads can rely on what they loaded, and the stores
seen so far are those of a list that now holds what is in the ring. -/
structure Inv (log : List (Event α)) (s : State α k) : Prop where
  producer : s.producer.Ok s.queue
  consumer : s.consumer.Ok s.queue
  fifo : Fifo (log.filterMap Event.fifo) s.queue.slotted

theorem inv_effect {log : List (Event α)} {s s' : State α k} {o : Option (Event α)}
    (hinv : Inv log s) (he : Effect s o s') : Inv (log ++ o.toList) s' := by
  cases he with
  | producer hpc hquiet =>
    refine ⟨hpc, hinv.consumer, ?_⟩
    rw [List.filterMap_append, fifo_of_quiet hquiet, List.append_nil]
    exact hinv.fifo
  | consumer hpc hquiet =>
    refine ⟨hinv.producer, hpc, ?_⟩
    rw [List.filterMap_append, fifo_of_quiet hquiet, List.append_nil]
    exact hinv.fifo
  | wrote item hroom =>
    refine ⟨⟨rfl, ?_, Function.update_self ..⟩, Consumer.ok_write item hinv.consumer, ?_⟩
    · rw [SpscQueue.slotted_write]
      exact hroom
    · rw [List.filterMap_append, SpscQueue.slotted_write]
      show Fifo (_ ++ []) _
      rw [List.append_nil]
      exact hinv.fifo
  | pushed hroom =>
    refine ⟨trivial, Consumer.ok_storeHead hroom hinv.consumer, ?_⟩
    rw [List.filterMap_append, SpscQueue.slotted_storeHead hroom]
    exact hinv.fifo.put _
  | @popped item rest hslotted =>
    have hne : s.queue.slotted ≠ [] := by rw [hslotted]; simp
    refine ⟨Producer.ok_storeTail hne hinv.producer, trivial, ?_⟩
    have hfifo := hinv.fifo
    -- the item read is the one in the slot that is given up
    have hcons := SpscQueue.slotted_storeTail hne
    rw [hslotted] at hcons
    injection hcons with hitem hrest
    rw [hslotted, hrest] at hfifo
    rw [List.filterMap_append]
    exact hfifo.take

theorem inv_trace {data : Nat → α} {log : List (Event α)} {s : State α k}
    (h : Trace State.step (State.new k data) log s) : Inv log s := by
  have hnew : Inv [] (State.new k data) := by
    refine ⟨trivial, trivial, ?_⟩
    show Fifo [] (SpscQueue.new k data).slotted
    rw [SpscQueue.slotted_new]
    exact .nil
  refine h.invariant hnew ?_
  intro log s a s' o hinv hs
  exact inv_effect hinv (effect_of_stepped hinv.producer hinv.consumer (step_stepped hs))

/-- The items whose push has stored `head_`, in order. -/
def pushedItems (log : List (Event α)) : List α :=
  log.filterMap fun
    | .pushed _ item => some item
    | _ => none

/-- The items pops have returned, in order. -/
def poppedItems (log : List (Event α)) : List α :=
  log.filterMap fun
    | .popped _ item => some item
    | _ => none

theorem pushedItems_eq (log : List (Event α)) :
    pushedItems log = (Fifo.puts (log.filterMap Event.fifo)).map Prod.snd := by
  unfold pushedItems Fifo.puts
  rw [List.filterMap_filterMap, List.map_filterMap]
  congr 1
  funext e
  cases e <;> rfl

theorem poppedItems_eq (log : List (Event α)) :
    poppedItems log = (Fifo.takes (log.filterMap Event.fifo)).map Prod.snd := by
  unfold poppedItems Fifo.takes
  rw [List.filterMap_filterMap, List.map_filterMap]
  congr 1
  funext e
  cases e <;> rfl

/-- The slot written is the one `head_` names. -/
theorem head_of_wrote {s s' : State α k} {slot : Nat} {item : α}
    (he : Effect s (some (.wrote slot item)) s') : slot = s.queue.head := by
  cases he with
  | producer _ hquiet => cases hquiet
  | consumer _ hquiet => cases hquiet
  | wrote => rfl

/-- In every interleaving of any number of calls, what pops return is a first
part of what was pushed, in the same order; and between the store to `head_`
that published the item in a slot and the next write to that slot lies the
store to `tail_` that gave the slot up. -/
theorem spsc_fifo {data : Nat → α} {log : List (Event α)} {s : State α k}
    (h : Trace State.step (State.new k data) log s) :
    poppedItems log <+: pushedItems log ∧
      ∀ before mid after slot item item',
        log = before ++ .pushed slot item :: (mid ++ .wrote slot item' :: after) →
        .popped slot item ∈ mid := by
  refine ⟨?_, ?_⟩
  · rw [poppedItems_eq, pushedItems_eq]
    exact ((inv_trace h).fifo.takes_prefix).map Prod.snd
  · intro before mid after slot item item' hlog
    rw [hlog, ← List.cons_append, ← List.append_assoc] at h
    obtain ⟨s₁, a, s₂, hbefore, hwrite, _⟩ := h.observed
    have hinv := inv_trace hbefore
    have heffect := effect_of_stepped hinv.producer hinv.consumer (step_stepped hwrite)
    have hslot := head_of_wrote heffect
    have hfifo := hinv.fifo
    rw [List.filterMap_append, List.filterMap_cons] at hfifo
    -- the slot is free when it is written, so its item has been taken
    have htaken := hfifo.taken_since (x := (slot, item))
      (by rw [hslot]; exact s₁.queue.head_not_mem_slotted item)
    obtain ⟨e, he, heq⟩ := List.mem_filterMap.mp htaken
    cases e with
    | popped slot' item' => cases heq; exact he
    | _ => cases heq

/-- A ring of two slots, which holds one item at a time.  The second `push`
loads `head_` while the first item is being popped; the third writes the slot
of the first again. -/
def wrapAround : List (Act Nat) :=
  [.push 7, .next .producer, .next .producer, .next .producer,
   .pop, .next .consumer, .push 8, .next .consumer, .next .consumer, .next .producer,
   .next .producer, .next .producer,
   .pop, .next .consumer, .next .consumer, .next .consumer,
   .push 9, .next .producer, .next .producer]

/-- What is observed between the first item's publication and the write of the
third. -/
def wrapAroundMid : List (Event Nat) := [.popped 0 7, .wrote 1 8, .pushed 1 8, .popped 1 8]

theorem spsc_fifo_wrap_around :
    ∃ s, Trace State.step (State.new 1 fun _ => 0)
        ([.wrote 0 7] ++ .pushed 0 7 :: (wrapAroundMid ++ .wrote 0 9 :: [])) s ∧
      .popped 0 7 ∈ wrapAroundMid := by
  have hlog : (run State.step wrapAround (State.new 1 fun _ => 0)).map Prod.snd =
      some ([.wrote 0 7] ++ .pushed 0 7 :: (wrapAroundMid ++ .wrote 0 9 :: [])) := by decide
  obtain ⟨s, hs⟩ := trace_of_log hlog
  exact ⟨s, hs, (spsc_fifo hs).2 _ _ _ _ _ _ rfl⟩

end HftEngine.Spsc
