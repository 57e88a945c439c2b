import HftEngine.Queue.MpscOrder

/-!
# Which nodes are deleted, and when

A node is deleted by the `pop` that leaves it behind, or by the destructor.  A
producer may still hold the node a `pop` leaves behind as its `prev`; but then
the node has no successor yet, and the `pop` does not leave it behind.

* `listed_of_reaches` — what `head_` leads to is in the list;
* `destroy_list` — on a list without gaps the destructor deletes every node
  once, from the head to the tail;
* `mpsc_reclaims` — no deleted node is in use, none is deleted twice, and in
  the end none is left.
-/

namespace HftEngine.Mpsc

open Lib

variable {ι α : Type} {s : State ι α} {q : List (Nat × α)}

/-- `next` of the one node is the other. -/
def Next (nodes : Nat → Node α) (a b : Nat) : Prop := (nodes a).next = some b

theorem head_listed (h : Holds s q) : s.head ∈ s.front :: q.map Prod.fst := by
  have hok := h.consumer
  unfold State.front
  cases hpc : s.consumer with
  | headStored head next data =>
    -- `head_` is already at the node whose item is about to be returned
    rw [hpc] at hok
    obtain ⟨rfl, _, hq⟩ := hok
    exact List.mem_cons_of_mem _ (List.mem_map_of_mem (List.mem_of_mem_head? hq))
  | _ => exact List.mem_cons_self

theorem listed_of_reaches (h : Holds s q) {node : Nat}
    (hnode : Relation.ReflTransGen (Next s.nodes) s.head node) :
    node ∈ s.front :: q.map Prod.fst := by
  induction hnode with
  | refl => exact head_listed h
  | tail _ hnext ih => exact (h.linked.adjacent_of_next ih hnext).right_mem

/-- The destructor on a list without gaps. -/
theorem destroy_list (nodes : Nat → Node α) (a : Nat) (l deleted : List Nat)
    (hlink : ∀ b c, Adjacent (a :: l) b c → (nodes b).next = some c)
    (hlast : ∀ b, (a :: l).getLast? = some b → (nodes b).next = none) :
    loop (State.destroyStep nodes) (l.length + 2) (some a, deleted) =
      some (none, deleted ++ a :: l) := by
  induction l generalizing a deleted with
  | nil =>
    rw [loop_next (show State.destroyStep nodes (some a, deleted) = _ from rfl), hlast a rfl]
    exact loop_exit rfl 0
  | cons b l ih =>
    rw [loop_next (show State.destroyStep nodes (some a, deleted) = _ from rfl),
      hlink a b (.inl ⟨rfl, rfl⟩)]
    have hrest := ih b (deleted ++ [a])
      (fun c d hadj => hlink c d (.inr hadj))
      (fun c hc => hlast c (by rw [List.getLast?_cons_cons]; exact hc))
    rw [List.append_assoc] at hrest
    exact hrest

theorem destroy_eq (h : Holds s q) (hgap : s.NoGap) (hidle : s.consumer = .idle) :
    s.destroy (q.length + 2) = some (s.deleted ++ s.front :: q.map Prod.fst) := by
  have hfront : s.front = s.head := by
    unfold State.front
    rw [hidle]
  have hlist := destroy_list s.nodes s.front (q.map Prod.fst) s.deleted ?_ ?_
  · unfold State.destroy
    rw [← hfront]
    rw [List.length_map] at hlist
    rw [hlist]
    rfl
  · intro b c hadj
    rcases h.linked.link b c hadj with hnext | ⟨_, p, hp⟩
    · exact hnext
    · exact absurd hp (hgap p b c)
  · intro b hb
    rw [h.linked.last] at hb
    injection hb with hb
    rw [← hb]
    exact h.linked.tail_next

/-- No step deletes a node that `head_`, `tail_`, the list from `head_` on or a
producer on its way to its link store needs; no node is deleted twice; and
when the destructor has run, with no call on its way, the stub and the nodes
of all calls have been deleted once each. -/
theorem mpsc_reclaims [DecidableEq ι] {stub : α} {log : List (Event ι α)}
    (h : Trace State.step (State.new stub) log s) :
    s.deleted.Nodup ∧
    (∀ node ∈ s.deleted, node ≠ s.head ∧ node ≠ s.tail ∧
      ¬ Relation.ReflTransGen (Next s.nodes) s.head node ∧
      ∀ p prev own, s.producers p = .exchanged prev own → node ≠ prev) ∧
    ((∀ p, s.producers p = .idle) → s.consumer = .idle →
      ∃ fuel deleted, s.destroy fuel = some deleted ∧ deleted.Nodup ∧
        deleted.Perm (0 :: (calls log).map (·.2.1))) := by
  obtain ⟨q, hq, _⟩ := inv_trace h
  refine ⟨hq.owned.once, ?_, ?_⟩
  · intro node hnode
    have hnot := (hq.owned.gone node hnode).2
    refine ⟨?_, ?_, ?_, ?_⟩
    · rintro rfl
      exact hnot (head_listed hq)
    · rintro rfl
      exact hnot hq.linked.tail_mem
    · exact fun hreach => hnot (listed_of_reaches hq hreach)
    · rintro p prev own hp rfl
      exact hnot (hq.linked.pending p node own hp).1.left_mem
  · intro hproducers hidle
    have hgap : s.NoGap := by
      intro p prev node
      rw [hproducers p]
      exact nofun
    refine ⟨_, _, destroy_eq hq hgap hidle, hq.nodup, ?_⟩
    rw [(calls_trace h).allocated]
    refine (List.perm_ext_iff_of_nodup hq.nodup List.nodup_range).mpr ?_
    intro node
    rw [List.mem_append, List.mem_range]
    constructor
    · rintro (hgone | hlisted)
      · exact (hq.owned.gone node hgone).1
      · exact hq.owned.listed node hlisted
    · intro hlt
      rcases hq.owned.known node hlt with hlisted | hgone | ⟨p, hp⟩
      · exact .inr hlisted
      · exact .inl hgone
      · rw [hproducers p] at hp
        cases hp

theorem mpsc_reclaims_overtaken :
    ∃ s, Trace State.step (State.new 0) overtakenLog s ∧ (∀ p, s.producers p = .idle) ∧
      s.consumer = .idle ∧ s.deleted.Nodup ∧
      ∃ fuel deleted, s.destroy fuel = some deleted ∧ deleted.Nodup ∧
        deleted.Perm [0, 1, 2, 3, 4] := by
  obtain ⟨s, htrace, hproducers, hidle⟩ := trace_overtaken
  obtain ⟨hnodup, _, hdestroy⟩ := mpsc_reclaims htrace
  exact ⟨s, htrace, hproducers, hidle, hnodup, hdestroy hproducers hidle⟩

end HftEngine.Mpsc
