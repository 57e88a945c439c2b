import HftEngine.Queue.SpscSafety

/-!
# `size` and `empty` while the other side moves

The two indices are loaded one after the other, and the other thread may run
between the loads, round the ring if it likes.  But of the two indices one is
the caller's own, which nobody else stores to: the answer is that of the moment
at which the other index was loaded.  For a producer that asks for the size this
is the second load, for a consumer the first.

* `askEffect_of_stepped`, `sameCall_trace` — while a call is open, its thread's
  index stands still;
* `answer_eq` — the answer is right at the first load or at the second;
* `ask_linearizable` — so in every run every answer is the number of items
  pushed and not popped, at some moment from the first load to the second.
-/

namespace HftEngine.Spsc

open Lib

variable {α : Type} {k : Nat}

/-- The number of items pushed and not yet popped. -/
def queueLength (log : List (Event α)) : Nat := (pushedItems log).length - (poppedItems log).length

theorem queueLength_eq {log : List (Event α)} {s : State α k} (h : Inv log s) :
    queueLength log = s.queue.slotted.length := by
  have hputs := congrArg List.length h.fifo.puts_eq
  rw [List.length_append] at hputs
  rw [queueLength, pushedItems_eq, poppedItems_eq, List.length_map, List.length_map, hputs,
    Nat.add_sub_cancel_left]

/-- Only the stores count. -/
theorem queueLength_asked (log : List (Event α)) (thread : Thread) :
    queueLength (log ++ [.asked thread]) = queueLength log := by
  simp [queueLength, pushedItems, poppedItems]

/-! ## The call a thread is in -/

namespace State

/-- The call of `size` or `empty` that a thread is in. -/
def asking (s : State α k) : Thread → Option Asking
  | .producer =>
    match s.producer with
    | .asking a => some a
    | _ => none
  | .consumer =>
    match s.consumer with
    | .asking a => some a
    | _ => none

end State

/-- The index that a thread stores to. -/
def ownIndex (q : SpscQueue α k) : Thread → Nat
  | .producer => q.head
  | .consumer => q.tail

/-- The answer of a queue of `n` items. -/
def Asking.reply (thread : Thread) (n : Nat) : Asking → Event α
  | .sizeHead _ => .sized thread n
  | .emptyHead _ => .emptied thread (n == 0)
  | .emptyTail _ => .emptied thread (n == 0)

/-- The second load is of the other index or the first one was; the answer is
that of the queue as it was then. -/
theorem answer_eq (hk : k < 64) {q q' : SpscQueue α k} {thread : Thread} {a : Asking}
    (hload : a.LoadedFrom q) (hown : ownIndex q' thread = ownIndex q thread) :
    answer q' thread a = a.reply thread q.slotted.length ∨
      answer q' thread a = a.reply thread q'.slotted.length := by
  -- with both indices of one queue the answer is that of the queue
  have hsize : ∀ q : SpscQueue α k,
      (q.head + 2 ^ 64 - q.tail) % 2 ^ 64 &&& SpscQueue.mask k = q.slotted.length := by
    intro q
    rw [SpscQueue.sub_and_mask hk.le q.head q.tail_lt, SpscQueue.length_slotted]
  have hempty : ∀ q : SpscQueue α k, (q.head == q.tail) = (q.slotted.length == 0) := by
    intro q
    rw [Bool.eq_iff_iff, beq_iff_eq, beq_iff_eq, List.length_eq_zero_iff, q.slotted_eq_nil_iff,
      eq_comm]
  cases thread with
  | producer =>
    have hhead : q'.head = q.head := hown
    cases a with
    | sizeHead head =>
      right
      rw [answer, Asking.reply, ← hsize q', hhead, show head = q.head from hload]
    | emptyHead head =>
      right
      rw [answer, Asking.reply, ← hempty q', hhead, show head = q.head from hload]
    | emptyTail tail =>
      left
      rw [answer, Asking.reply, ← hempty q, hhead, show tail = q.tail from hload]
  | consumer =>
    have htail : q'.tail = q.tail := hown
    cases a with
    | sizeHead head =>
      left
      rw [answer, Asking.reply, ← hsize q, htail, show head = q.head from hload]
    | emptyHead head =>
      left
      rw [answer, Asking.reply, ← hempty q, htail, show head = q.head from hload]
    | emptyTail tail =>
      right
      rw [answer, Asking.reply, ← hempty q', htail, show tail = q.tail from hload]

/-! ## What one step can do to an open call -/

/-- The thread whose `size` or `empty` an event belongs to. -/
def Event.asker : Event α → Option Thread
  | .asked thread | .sized thread _ | .emptied thread _ => some thread
  | _ => none

theorem asker_answer (q : SpscQueue α k) (thread : Thread) (a : Asking) :
    (answer q thread a).asker = some thread := by
  cases a <;> rfl

/-- A step, seen by a thread that may be in a call: its first load, its second
load, or another step, of which it notices nothing but a change of the other
index. -/
inductive AskEffect (thread : Thread) (s : State α k) : Option (Event α) → State α k → Prop
  | asked {s' : State α k} {a : Asking} : s'.queue = s.queue → s'.asking thread = some a →
      a.LoadedFrom s.queue → AskEffect thread s (some (.asked thread)) s'
  | answered {s' : State α k} {o : Option (Event α)} {a : Asking} : s.asking thread = some a →
      s'.asking thread = none → o = some (answer s.queue thread a) → AskEffect thread s o s'
  | other {s' : State α k} {o : Option (Event α)} : (∀ e, o = some e → e.asker ≠ some thread) →
      (∀ a, s'.asking thread = some a → s.asking thread = some a ∧
        ownIndex s'.queue thread = ownIndex s.queue thread) →
      AskEffect thread s o s'

section Steps

variable {s s' : State α k} {o : Option (Event α)} {thread : Thread}

/-- A step of the producer that is none of a call of `size` or `empty`. -/
theorem AskEffect.ofProducer (thread : Thread) (hquiet : o.bind Event.asker = none)
    (hpc : s'.asking .producer = none) (hconsumer : s'.consumer = s.consumer)
    (htail : s'.queue.tail = s.queue.tail) : AskEffect thread s o s' := by
  refine .other ?_ ?_
  · rintro e rfl
    rw [show e.asker = none from hquiet]
    exact nofun
  · intro a ha
    cases thread with
    | producer =>
      rw [hpc] at ha
      cases ha
    | consumer =>
      rw [State.asking, hconsumer] at ha
      exact ⟨ha, htail⟩

/-- The same of the consumer. -/
theorem AskEffect.ofConsumer (thread : Thread) (hquiet : o.bind Event.asker = none)
    (hpc : s'.asking .consumer = none) (hproducer : s'.producer = s.producer)
    (hhead : s'.queue.head = s.queue.head) : AskEffect thread s o s' := by
  refine .other ?_ ?_
  · rintro e rfl
    rw [show e.asker = none from hquiet]
    exact nofun
  · intro a ha
    cases thread with
    | producer =>
      rw [State.asking, hproducer] at ha
      exact ⟨ha, hhead⟩
    | consumer =>
      rw [hpc] at ha
      cases ha

theorem askEffect_of_stepped (thread : Thread) (hs : Stepped s o s') : AskEffect thread s o s' := by
  cases hs with
  | push _ _ => exact .ofProducer thread rfl rfl rfl rfl
  | refused _ _ => exact .ofProducer thread rfl rfl rfl rfl
  | roomFound _ _ => exact .ofProducer thread rfl rfl rfl rfl
  | wrote _ => exact .ofProducer thread rfl rfl rfl rfl
  | pushed _ => exact .ofProducer thread rfl rfl rfl rfl
  | pop _ => exact .ofConsumer thread rfl rfl rfl rfl
  | missed _ _ => exact .ofConsumer thread rfl rfl rfl rfl
  | itemFound _ _ => exact .ofConsumer thread rfl rfl rfl rfl
  | itemRead _ => exact .ofConsumer thread rfl rfl rfl rfl
  | popped _ => exact .ofConsumer thread rfl rfl rfl rfl
  | producerAsked _ hload =>
    cases thread with
    | producer => exact .asked rfl rfl hload
    | consumer => exact .other (by rintro e ⟨⟩; exact nofun) fun a ha => ⟨ha, rfl⟩
  | consumerAsked _ hload =>
    cases thread with
    | producer => exact .other (by rintro e ⟨⟩; exact nofun) fun a ha => ⟨ha, rfl⟩
    | consumer => exact .asked rfl rfl hload
  | producerAnswered hpc =>
    cases thread with
    | producer => exact .answered (by rw [State.asking, hpc]) rfl rfl
    | consumer =>
      refine .other ?_ fun a ha => ⟨ha, rfl⟩
      rintro e ⟨⟩
      rw [asker_answer]
      exact nofun
  | consumerAnswered hpc =>
    cases thread with
    | producer =>
      refine .other ?_ fun a ha => ⟨ha, rfl⟩
      rintro e ⟨⟩
      rw [asker_answer]
      exact nofun
    | consumer => exact .answered (by rw [State.asking, hpc]) rfl rfl

end Steps

/-! ## From the first load to the second -/

section Calls

variable {s₁ s₂ s : State α k} {log : List (Event α)} {thread : Thread}

/-- Unless the thread has asked again, a call it is in is the one it was in at
`s₁`, and its own index has not moved. -/
def SameCall (thread : Thread) (s₁ : State α k) (log : List (Event α)) (s : State α k) : Prop :=
  .asked thread ∉ log → ∀ a, s.asking thread = some a →
    s₁.asking thread = some a ∧ ownIndex s.queue thread = ownIndex s₁.queue thread

theorem sameCall_trace (h : Trace State.step s₁ log s) : SameCall thread s₁ log s := by
  refine h.invariant (fun _ a ha => ⟨ha, rfl⟩) ?_
  intro log s act s' o ih hs hlog a ha
  rw [List.mem_append, not_or] at hlog
  cases askEffect_of_stepped thread (step_stepped hs) with
  | asked _ _ _ => exact absurd (by simp) hlog.2
  | answered _ hnone _ =>
    rw [hnone] at ha
    cases ha
  | other _ hframe =>
    obtain ⟨ha, hown⟩ := hframe a ha
    obtain ⟨hfirst, hstill⟩ := ih hlog.1 a ha
    exact ⟨hfirst, hown.trans hstill⟩

/-- **Every answer was true** at the first load or at the second. -/
theorem answered_trace (hk : k < 64) {data : Nat → α} {before mid after : List (Event α)}
    {e : Event α} (h : Trace State.step (State.new k data)
      (before ++ .asked thread :: (mid ++ e :: after)) s)
    (hmid : .asked thread ∉ mid) (he : e.asker = some thread) (hanswer : e ≠ .asked thread) :
    ∃ (a : Asking) (mid₁ : List (Event α)), mid₁ <+: mid ∧
      e = a.reply thread (queueLength (before ++ .asked thread :: mid₁)) := by
  obtain ⟨s₀, act₀, s₁, hbefore, hfirst, hrest⟩ := h.observed
  obtain ⟨s₂, act₂, s₃, hbetween, hsecond, _⟩ := hrest.observed
  have hinv₀ := inv_trace hbefore
  have hinv₂ := inv_trace (Trace.trans (Trace.step hbefore hfirst) hbetween)
  cases askEffect_of_stepped thread (step_stepped hsecond) with
  | asked _ _ _ => exact absurd rfl hanswer
  | other hno _ => exact absurd he (hno e rfl)
  | @answered _ _ a ha _ hreply =>
    injection hreply with hreply
    obtain ⟨ha₁, hown⟩ := sameCall_trace hbetween hmid a ha
    cases askEffect_of_stepped thread (step_stepped hfirst) with
    | other hno _ => exact absurd rfl (hno _ rfl)
    | answered _ hnone _ =>
      rw [hnone] at ha₁
      cases ha₁
    | @asked _ a₁ hqueue ha₁' hload =>
      obtain rfl : a₁ = a := by
        rw [ha₁'] at ha₁
        injection ha₁
      rw [hqueue] at hown
      refine ⟨a₁, ?_⟩
      rcases answer_eq hk hload hown with hold | hnew
      · refine ⟨[], List.nil_prefix, ?_⟩
        rw [hreply, hold, queueLength_asked, queueLength_eq hinv₀]
      · refine ⟨mid, List.prefix_rfl, ?_⟩
        rw [hreply, hnew, ← queueLength_eq hinv₂, Option.toList_some, List.append_assoc]
        rfl

end Calls

/-- The second load of an open call is always possible, and returns. -/
theorem answer_of_asking {s : State α k} {thread : Thread} {a : Asking}
    (h : s.asking thread = some a) :
    ∃ s', s.step (.next thread) = some (s', some (answer s.queue thread a)) := by
  cases thread with
  | producer =>
    cases hpc : s.producer <;> rw [State.asking, hpc] at h <;> cases h
    exact ⟨_, by rw [State.step, State.produce, hpc]⟩
  | consumer =>
    cases hpc : s.consumer <;> rw [State.asking, hpc] at h <;> cases h
    exact ⟨_, by rw [State.step, State.consume, hpc]⟩

/-- **`size` and `empty` are linearizable for the two endpoints.** In every
interleaving, what a thread is told between its other calls was the number of
items pushed and not popped, or whether there were any, at some moment from the
first load of its call to the second, both included; and a call that has made
its first load returns with its next step. -/
theorem ask_linearizable (hk : k < 64) {data : Nat → α} {log : List (Event α)} {s : State α k}
    (h : Trace State.step (State.new k data) log s) :
    (∀ (thread : Thread) (before mid after : List (Event α)) (n : Nat),
      log = before ++ .asked thread :: (mid ++ .sized thread n :: after) → .asked thread ∉ mid →
      ∃ mid₁, mid₁ <+: mid ∧ n = queueLength (before ++ .asked thread :: mid₁)) ∧
    (∀ (thread : Thread) (before mid after : List (Event α)) (b : Bool),
      log = before ++ .asked thread :: (mid ++ .emptied thread b :: after) → .asked thread ∉ mid →
      ∃ mid₁, mid₁ <+: mid ∧ (b = true ↔ queueLength (before ++ .asked thread :: mid₁) = 0)) ∧
    ∀ thread a, s.asking thread = some a →
      ∃ s', s.step (.next thread) = some (s', some (answer s.queue thread a)) := by
  refine ⟨?_, ?_, fun thread a => answer_of_asking⟩
  · rintro thread before mid after n rfl hmid
    obtain ⟨a, mid₁, hmid₁, hreply⟩ := answered_trace hk h hmid rfl nofun
    refine ⟨mid₁, hmid₁, ?_⟩
    cases a with
    | sizeHead head => injection hreply
    | emptyHead head => cases hreply
    | emptyTail tail => cases hreply
  · rintro thread before mid after b rfl hmid
    obtain ⟨a, mid₁, hmid₁, hreply⟩ := answered_trace hk h hmid rfl nofun
    refine ⟨mid₁, hmid₁, ?_⟩
    cases a with
    | sizeHead head => cases hreply
    | emptyHead head =>
      injection hreply with _ hb
      rw [hb, beq_iff_eq]
    | emptyTail tail =>
      injection hreply with _ hb
      rw [hb, beq_iff_eq]

/-- The consumer loads `head_`, the producer pushes once more, and the consumer
loads `tail_`. -/
def overtaken : List (Act Nat) :=
  [.push 7, .next .producer, .next .producer, .next .producer, .size .consumer,
   .push 8, .next .producer, .next .producer, .next .producer, .next .consumer]

/-- What is observed before the first load, and between the two. -/
def overtakenBefore : List (Event Nat) := [.wrote 0 7, .pushed 0 7]

def overtakenMid : List (Event Nat) := [.wrote 1 8, .pushed 1 8]

/-- It is told 1, which is the size before that push. -/
theorem ask_linearizable_overtaken :
    ∃ s : State Nat 2, Trace State.step (State.new 2 fun _ => 0)
        (overtakenBefore ++ .asked .consumer :: (overtakenMid ++ .sized .consumer 1 :: [])) s ∧
      ∃ mid₁, mid₁ <+: overtakenMid ∧
        1 = queueLength (overtakenBefore ++ .asked .consumer :: mid₁) := by
  have hlog : (run State.step overtaken (State.new 2 fun _ => 0)).map Prod.snd =
      some (overtakenBefore ++ .asked .consumer :: (overtakenMid ++ .sized .consumer 1 :: [])) :=
    rfl
  obtain ⟨s, hs⟩ := trace_of_log hlog
  exact ⟨s, hs, (ask_linearizable (by omega) hs).1 _ _ _ _ _ rfl (by simp [overtakenMid])⟩

end HftEngine.Spsc
