import HftEngine.Lib.Adjacent
import HftEngine.Lib.Fifo
import HftEngine.Queue.Mpsc

/-!
# The list of nodes under every interleaving

The nodes that are in the queue form a list, in the order of the exchanges,
headed by the node the consumer is about to leave behind (`State.front`).
Between its exchange and its link store a producer leaves a gap in the linked
list: two neighbours of which the first has no `next` yet.  There may be as
many gaps as there are producers.  The invariant says that these are the only
gaps (`Linked.link`), that each belongs to one producer (`Linked.pending`),
and that every node is in the list, deleted, or in the hands of one producer
(`Owned`).

`inv_trace`: all this holds in every interleaving, and the exchanges and the
pops are the log of a first-in first-out list.
-/

namespace HftEngine.Mpsc

open Lib

variable {ι α : Type}

/-- The node a producer is pushing. -/
def Push.node? : Push → Option Nat
  | .idle => none
  | .created node => some node
  | .exchanged _ node => some node

/-- The node the consumer leaves behind, or is to leave behind next: the old
head, until it is deleted. -/
def State.front (s : State ι α) : Nat :=
  match s.consumer with
  | .headStored head _ _ => head
  | _ => s.head

/-- The linked list, gaps included. -/
structure Linked (tail : Nat) (nodes : Nat → Node α) (producers : ι → Push)
    (chain : List Nat) : Prop where
  nodup : chain.Nodup
  last : chain.getLast? = some tail
  tail_next : (nodes tail).next = none
  link : ∀ a b, Adjacent chain a b →
    (nodes a).next = some b ∨ (nodes a).next = none ∧ ∃ p, producers p = .exchanged a b
  pending : ∀ p a b, producers p = .exchanged a b → Adjacent chain a b ∧ (nodes a).next = none
  owner : ∀ p p' node, (producers p).node? = some node → (producers p').node? = some node → p = p'

/-- Who has which node. -/
structure Owned (allocated : Nat) (deleted : List Nat) (nodes : Nat → Node α)
    (producers : ι → Push) (chain : List Nat) : Prop where
  listed : ∀ node ∈ chain, node < allocated
  gone : ∀ node ∈ deleted, node < allocated ∧ node ∉ chain
  once : deleted.Nodup
  created : ∀ p node, producers p = .created node →
    node < allocated ∧ node ∉ chain ∧ node ∉ deleted ∧ (nodes node).next = none
  known : ∀ node < allocated, node ∈ chain ∨ node ∈ deleted ∨ ∃ p, producers p = .created node

/-- What the consumer relies on between its steps. -/
def Pop.Ok (head : Nat) (nodes : Nat → Node α) (q : List (Nat × α)) : Pop α → Prop
  | .idle => True
  | .headLoaded head' => head' = head
  | .nextLoaded head' next => head' = head ∧ ∀ node, next = some node → (nodes head').next = some node
  | .dataRead head' next data =>
    head' = head ∧ (nodes head').next = some next ∧ q.head? = some (next, data)
  | .headStored head' next data =>
    next = head ∧ (nodes head').next = some next ∧ q.head? = some (next, data)

/-- The invariant, for a queue that holds the items `q` in the nodes named
with them. -/
structure Holds (s : State ι α) (q : List (Nat × α)) : Prop where
  linked : Linked s.tail s.nodes s.producers (s.front :: q.map Prod.fst)
  owned : Owned s.allocated s.deleted s.nodes s.producers (s.front :: q.map Prod.fst)
  data : ∀ x ∈ q, (s.nodes x.1).data = x.2
  consumer : s.consumer.Ok s.head s.nodes q

/-! ## Consequences -/

section Lists

variable {tail : Nat} {nodes : Nat → Node α} {producers : ι → Push} {chain : List Nat}

/-- A node of the list whose `next` is set is linked to its successor. -/
theorem Linked.adjacent_of_next (h : Linked tail nodes producers chain) {a b : Nat}
    (ha : a ∈ chain) (hnext : (nodes a).next = some b) : Adjacent chain a b := by
  rcases adjacent_or_last ha with ⟨c, hc⟩ | hlast
  · rcases h.link a c hc with hsome | ⟨hnone, _⟩
    · rw [hnext] at hsome
      injection hsome with hbc
      rw [hbc]
      exact hc
    · rw [hnext] at hnone
      cases hnone
  · rw [h.last] at hlast
    injection hlast with htail
    rw [← htail, h.tail_next] at hnext
    cases hnext

/-- Each gap has one producer. -/
theorem Linked.pending_unique (h : Linked tail nodes producers chain) {p p' : ι} {a b b' : Nat}
    (hp : producers p = .exchanged a b) (hp' : producers p' = .exchanged a b') : p = p' := by
  have hb := Adjacent.unique h.nodup (h.pending p a b hp).1 (h.pending p' a b' hp').1
  subst hb
  exact h.owner p p' b (by rw [hp]; rfl) (by rw [hp']; rfl)

/-- The node after the head of the list. -/
theorem Linked.next_front {front node : Nat} {q : List (Nat × α)}
    (h : Linked tail nodes producers (front :: q.map Prod.fst))
    (hnext : (nodes front).next = some node) : ∃ item rest, q = (node, item) :: rest := by
  have hadj := h.adjacent_of_next List.mem_cons_self hnext
  cases q with
  | nil =>
    rcases hadj with ⟨_, hhead⟩ | hadj
    · cases hhead
    · exact hadj.elim
  | cons x rest =>
    have hx := Adjacent.unique h.nodup hadj (.inl ⟨rfl, rfl⟩)
    exact ⟨x.2, rest, by rw [hx]⟩

/-- A producer's node has been allocated. -/
theorem Owned.node_lt {allocated : Nat} {deleted : List Nat}
    (h : Owned allocated deleted nodes producers chain) (hl : Linked tail nodes producers chain)
    {p : ι} {node : Nat} (hp : (producers p).node? = some node) : node < allocated := by
  cases hpc : producers p with
  | idle =>
    rw [hpc] at hp
    cases hp
  | created node' =>
    rw [hpc] at hp
    injection hp with hp
    rw [← hp]
    exact (h.created p node' hpc).1
  | exchanged prev node' =>
    rw [hpc] at hp
    injection hp with hp
    rw [← hp]
    exact h.listed _ (hl.pending p prev node' hpc).1.right_mem

theorem Linked.tail_mem (h : Linked tail nodes producers chain) : tail ∈ chain :=
  List.mem_of_getLast? h.last

/-! ## The producers' steps -/

section Producers

variable [DecidableEq ι] {p p' : ι} {x y : Push}

/-- The state of a producer after a step of `p`, which may be the one that took
it. -/
theorem producer_cases (h : Function.update producers p x p' = y) :
    (p' = p ∧ x = y) ∨ (p' ≠ p ∧ producers p' = y) := by
  by_cases hp : p' = p
  · rw [hp, Function.update_self] at h
    exact .inl ⟨hp, h⟩
  · rw [Function.update_of_ne hp] at h
    exact .inr ⟨hp, h⟩

/-- A producer in another state than `p` is not the one that takes the step. -/
theorem producer_kept (h : producers p' = y) (hp : producers p ≠ y) :
    Function.update producers p x p' = y := by
  rw [Function.update_of_ne, h]
  rintro rfl
  exact hp h

end Producers

section Create

variable [DecidableEq ι] {allocated : Nat} {deleted : List Nat} {p : ι}
  (hl : Linked tail nodes producers chain) (ho : Owned allocated deleted nodes producers chain)
  (hp : producers p = .idle) (item : α)

include hl ho hp

/-- Creating a node changes nothing in the list: the new number is not in it,
not deleted, and nobody's. -/
theorem linked_create : Linked tail (Function.update nodes allocated ⟨item, none⟩)
    (Function.update producers p (.created allocated)) chain := by
  have hsame : ∀ node ∈ chain, Function.update nodes allocated ⟨item, none⟩ node = nodes node :=
    fun node hmem => Function.update_of_ne (Nat.ne_of_lt (ho.listed node hmem)) ..
  refine ⟨hl.nodup, hl.last, ?_, ?_, ?_, ?_⟩
  · rw [hsame _ hl.tail_mem]
    exact hl.tail_next
  · intro a b hadj
    rw [hsame _ hadj.left_mem]
    rcases hl.link a b hadj with hnext | ⟨hnone, p', hp'⟩
    · exact .inl hnext
    · exact .inr ⟨hnone, p', producer_kept hp' (by rw [hp]; exact nofun)⟩
  · intro p' a b hp'
    rcases producer_cases hp' with ⟨_, hnew⟩ | ⟨_, hp'⟩
    · cases hnew
    · obtain ⟨hadj, hnext⟩ := hl.pending p' a b hp'
      rw [hsame _ hadj.left_mem]
      exact ⟨hadj, hnext⟩
  · -- whoever has the new number is the one that was given it
    have hnew : ∀ p' node, (Function.update producers p (.created allocated) p').node? = some node →
        (p' = p ∧ node = allocated) ∨ (node < allocated ∧ (producers p').node? = some node) := by
      intro p' node hp'
      by_cases heq : p' = p
      · rw [heq, Function.update_self] at hp'
        injection hp' with hp'
        exact .inl ⟨heq, hp'.symm⟩
      · rw [Function.update_of_ne heq] at hp'
        exact .inr ⟨ho.node_lt hl hp', hp'⟩
    intro p₁ p₂ node h₁ h₂
    rcases hnew p₁ node h₁ with ⟨rfl, hnode⟩ | ⟨hlt, h₁⟩
    · rcases hnew p₂ node h₂ with ⟨rfl, _⟩ | ⟨hlt, _⟩
      · rfl
      · omega
    · rcases hnew p₂ node h₂ with ⟨_, hnode⟩ | ⟨_, h₂⟩
      · omega
      · exact hl.owner p₁ p₂ node h₁ h₂

omit hl in
theorem owned_create : Owned (allocated + 1) deleted
    (Function.update nodes allocated ⟨item, none⟩)
    (Function.update producers p (.created allocated)) chain := by
  refine ⟨?_, ?_, ho.once, ?_, ?_⟩
  · exact fun node hmem => Nat.lt_succ_of_lt (ho.listed node hmem)
  · exact fun node hmem => ⟨Nat.lt_succ_of_lt (ho.gone node hmem).1, (ho.gone node hmem).2⟩
  · intro p' node hp'
    rcases producer_cases hp' with ⟨_, hnew⟩ | ⟨_, hp'⟩
    · cases hnew
      refine ⟨Nat.lt_succ_self _, ?_, ?_, by rw [Function.update_self]⟩
      · exact fun hmem => absurd (ho.listed _ hmem) (Nat.lt_irrefl _)
      · exact fun hmem => absurd (ho.gone _ hmem).1 (Nat.lt_irrefl _)
    · obtain ⟨hlt, hchain, hdeleted, hnext⟩ := ho.created p' node hp'
      refine ⟨Nat.lt_succ_of_lt hlt, hchain, hdeleted, ?_⟩
      rw [Function.update_of_ne (Nat.ne_of_lt hlt)]
      exact hnext
  · intro node hlt
    rcases Nat.lt_succ_iff_lt_or_eq.mp hlt with hlt | rfl
    · rcases ho.known node hlt with hchain | hdeleted | ⟨p', hp'⟩
      · exact .inl hchain
      · exact .inr (.inl hdeleted)
      · exact .inr (.inr ⟨p', producer_kept hp' (by rw [hp]; exact nofun)⟩)
    · exact .inr (.inr ⟨p, Function.update_self ..⟩)

end Create

section Exchange

variable [DecidableEq ι] {allocated : Nat} {deleted : List Nat} {p : ι} {node : Nat}
  (hl : Linked tail nodes producers chain) (ho : Owned allocated deleted nodes producers chain)
  (hp : producers p = .created node)

include hl ho hp

/-- The exchange puts the node at the end of the list, behind a gap. -/
theorem linked_exchange : Linked node nodes
    (Function.update producers p (.exchanged tail node)) (chain ++ [node]) := by
  obtain ⟨_, hchain, _, hnone⟩ := ho.created p node hp
  refine ⟨?_, List.getLast?_concat .., hnone, ?_, ?_, ?_⟩
  · refine List.nodup_append.mpr ⟨hl.nodup, by simp, ?_⟩
    rintro a ha b hb rfl
    rw [List.mem_singleton.mp hb] at ha
    exact hchain ha
  · intro a b hadj
    rcases (adjacent_concat _).mp hadj with hadj | ⟨hlast, rfl⟩
    · rcases hl.link a b hadj with hnext | ⟨hnext, p', hp'⟩
      · exact .inl hnext
      · exact .inr ⟨hnext, p', producer_kept hp' (by rw [hp]; exact nofun)⟩
    · -- the new gap, behind what was the last node
      rw [hl.last] at hlast
      injection hlast with hlast
      subst hlast
      exact .inr ⟨hl.tail_next, p, Function.update_self ..⟩
  · intro p' a b hp'
    rcases producer_cases hp' with ⟨_, hnew⟩ | ⟨_, hp'⟩
    · cases hnew
      exact ⟨(adjacent_concat _).mpr (.inr ⟨hl.last, rfl⟩), hl.tail_next⟩
    · obtain ⟨hadj, hnext⟩ := hl.pending p' a b hp'
      exact ⟨(adjacent_concat _).mpr (.inl hadj), hnext⟩
  · have hnode : ∀ p', (Function.update producers p (.exchanged tail node) p').node? =
        (producers p').node? := by
      intro p'
      by_cases heq : p' = p
      · rw [heq, Function.update_self, hp]
        rfl
      · rw [Function.update_of_ne heq]
    intro p₁ p₂ node' h₁ h₂
    rw [hnode] at h₁ h₂
    exact hl.owner p₁ p₂ node' h₁ h₂

theorem owned_exchange : Owned allocated deleted nodes
    (Function.update producers p (.exchanged tail node)) (chain ++ [node]) := by
  obtain ⟨hlt, _, hdeleted, _⟩ := ho.created p node hp
  refine ⟨?_, ?_, ho.once, ?_, ?_⟩
  · intro node' hmem
    rcases List.mem_append.mp hmem with hmem | hmem
    · exact ho.listed node' hmem
    · rw [List.mem_singleton.mp hmem]
      exact hlt
  · intro node' hgone
    refine ⟨(ho.gone node' hgone).1, ?_⟩
    intro hmem
    rcases List.mem_append.mp hmem with hmem | hmem
    · exact (ho.gone node' hgone).2 hmem
    · rw [List.mem_singleton.mp hmem] at hgone
      exact hdeleted hgone
  · intro p' node' hp'
    rcases producer_cases hp' with ⟨_, hnew⟩ | ⟨heq, hp'⟩
    · cases hnew
    · obtain ⟨hlt', hchain', hdeleted', hnext'⟩ := ho.created p' node' hp'
      refine ⟨hlt', ?_, hdeleted', hnext'⟩
      intro hmem
      rcases List.mem_append.mp hmem with hmem | hmem
      · exact hchain' hmem
      · -- two producers never have the same node
        rw [List.mem_singleton.mp hmem] at hp'
        exact heq (hl.owner p' p node (by rw [hp']; rfl) (by rw [hp]; rfl))
  · intro node' hlt'
    rcases ho.known node' hlt' with hchain' | hdeleted' | ⟨p', hp'⟩
    · exact .inl (List.mem_append_left _ hchain')
    · exact .inr (.inl hdeleted')
    · by_cases heq : p' = p
      · rw [heq, hp] at hp'
        injection hp' with hp'
        exact .inl (List.mem_append_right _ (by rw [hp']; exact List.mem_singleton_self _))
      · exact .inr (.inr ⟨p', by rw [Function.update_of_ne heq]; exact hp'⟩)

end Exchange

section Link

variable [DecidableEq ι] {allocated : Nat} {deleted : List Nat} {p : ι} {prev node : Nat}
  (hl : Linked tail nodes producers chain) (ho : Owned allocated deleted nodes producers chain)
  (hp : producers p = .exchanged prev node)

include hl hp

/-- The link store closes the producer's gap and no other. -/
theorem linked_link : Linked tail
    (Function.update nodes prev { nodes prev with next := some node })
    (Function.update producers p .idle) chain := by
  obtain ⟨hadj, _⟩ := hl.pending p prev node hp
  refine ⟨hl.nodup, hl.last, ?_, ?_, ?_, ?_⟩
  · have htail : tail ≠ prev := by
      rintro rfl
      exact hadj.ne_last hl.nodup hl.last
    rw [Function.update_of_ne htail]
    exact hl.tail_next
  · intro a b hab
    by_cases ha : a = prev
    · subst ha
      rw [Function.update_self, Adjacent.unique hl.nodup hab hadj]
      exact .inl rfl
    · rw [Function.update_of_ne ha]
      rcases hl.link a b hab with hnext | ⟨hnext, p', hp'⟩
      · exact .inl hnext
      · refine .inr ⟨hnext, p', producer_kept hp' ?_⟩
        rw [hp]
        intro hsame
        injection hsame with hprev _
        exact ha hprev.symm
  · intro p' a b hp'
    rcases producer_cases hp' with ⟨_, hnew⟩ | ⟨heq, hp'⟩
    · cases hnew
    · have ha : a ≠ prev := by
        rintro rfl
        exact heq (hl.pending_unique hp' hp)
      rw [Function.update_of_ne ha]
      exact hl.pending p' a b hp'
  · have hpc : ∀ p' node', (Function.update producers p .idle p').node? = some node' →
        (producers p').node? = some node' := by
      intro p' node' hp'
      by_cases heq : p' = p
      · rw [heq, Function.update_self] at hp'
        cases hp'
      · rwa [Function.update_of_ne heq] at hp'
    intro p₁ p₂ node' h₁ h₂
    exact hl.owner p₁ p₂ node' (hpc p₁ node' h₁) (hpc p₂ node' h₂)

include ho

theorem owned_link : Owned allocated deleted
    (Function.update nodes prev { nodes prev with next := some node })
    (Function.update producers p .idle) chain := by
  obtain ⟨hadj, _⟩ := hl.pending p prev node hp
  refine ⟨ho.listed, ho.gone, ho.once, ?_, ?_⟩
  · intro p' node' hp'
    rcases producer_cases hp' with ⟨_, hnew⟩ | ⟨_, hp'⟩
    · cases hnew
    · obtain ⟨hlt, hchain, hdeleted, hnext⟩ := ho.created p' node' hp'
      refine ⟨hlt, hchain, hdeleted, ?_⟩
      rw [Function.update_of_ne (fun heq => hchain (by rw [heq]; exact hadj.left_mem))]
      exact hnext
  · intro node' hlt
    rcases ho.known node' hlt with hchain | hdeleted | ⟨p', hp'⟩
    · exact .inl hchain
    · exact .inr (.inl hdeleted)
    · exact .inr (.inr ⟨p', producer_kept hp' (by rw [hp]; exact nofun)⟩)

end Link

/-! ## The consumer's last step -/

/-- Deleting the old head shortens the list by it. -/
theorem linked_delete {front node : Nat} {rest : List Nat}
    (hl : Linked tail nodes producers (front :: node :: rest))
    (hnext : (nodes front).next = some node) : Linked tail nodes producers (node :: rest) := by
  refine ⟨(List.nodup_cons.mp hl.nodup).2, ?_, hl.tail_next, ?_, ?_, hl.owner⟩
  · have hlast := hl.last
    rwa [List.getLast?_cons_cons] at hlast
  · intro a b hadj
    exact hl.link a b (.inr hadj)
  · intro p a b hp
    obtain ⟨hadj, hnone⟩ := hl.pending p a b hp
    refine ⟨?_, hnone⟩
    rcases hadj with ⟨rfl, _⟩ | hadj
    · -- the old head is linked, so nobody has yet to link it
      rw [hnext] at hnone
      cases hnone
    · exact hadj

theorem owned_delete {allocated : Nat} {deleted : List Nat} {front node : Nat} {rest : List Nat}
    (hl : Linked tail nodes producers (front :: node :: rest))
    (ho : Owned allocated deleted nodes producers (front :: node :: rest)) :
    Owned allocated (deleted ++ [front]) nodes producers (node :: rest) := by
  obtain ⟨hfront, _⟩ := List.nodup_cons.mp hl.nodup
  refine ⟨?_, ?_, ?_, ?_, ?_⟩
  · exact fun node' hmem => ho.listed node' (List.mem_cons_of_mem _ hmem)
  · intro node' hmem
    rcases List.mem_append.mp hmem with hmem | hmem
    · obtain ⟨hlt, hchain⟩ := ho.gone node' hmem
      exact ⟨hlt, fun hmem' => hchain (List.mem_cons_of_mem _ hmem')⟩
    · rw [List.mem_singleton.mp hmem]
      exact ⟨ho.listed _ List.mem_cons_self, hfront⟩
  · refine List.nodup_append.mpr ⟨ho.once, by simp, ?_⟩
    rintro a ha b hb rfl
    rw [List.mem_singleton.mp hb] at ha
    exact (ho.gone front ha).2 List.mem_cons_self
  · intro p node' hp
    obtain ⟨hlt, hchain, hdeleted, hnext⟩ := ho.created p node' hp
    refine ⟨hlt, fun hmem => hchain (List.mem_cons_of_mem _ hmem), ?_, hnext⟩
    intro hmem
    rcases List.mem_append.mp hmem with hmem | hmem
    · exact hdeleted hmem
    · rw [List.mem_singleton.mp hmem] at hchain
      exact hchain List.mem_cons_self
  · intro node' hlt
    rcases ho.known node' hlt with hchain | hdeleted | hcreated
    · rcases List.mem_cons.mp hchain with rfl | hchain
      · exact .inr (.inl (List.mem_append_right _ (List.mem_singleton_self _)))
      · exact .inl hchain
    · exact .inr (.inl (List.mem_append_left _ hdeleted))
    · exact .inr (.inr hcreated)

end Lists

/-! ## Every step -/

section Steps

variable {s s' : State ι α} {q : List (Nat × α)} {p : ι} {o : Option (Event ι α)}

/-- What the consumer relies on is kept by a step that unsets no link. -/
theorem Holds.ok_of_nodes (h : Holds s q) {nodes' : Nat → Node α}
    (hnext : ∀ b, (s.nodes s.front).next = some b → (nodes' s.front).next = some b) :
    s.consumer.Ok s.head nodes' q := by
  have hok := h.consumer
  unfold State.front at hnext
  cases hpc : s.consumer with
  | idle => trivial
  | headLoaded head =>
    rw [hpc] at hok
    exact hok
  | nextLoaded head next =>
    rw [hpc] at hok hnext
    obtain ⟨rfl, hok⟩ := hok
    exact ⟨rfl, fun node hn => hnext _ (hok node hn)⟩
  | dataRead head next data =>
    rw [hpc] at hok hnext
    obtain ⟨rfl, hok, hq⟩ := hok
    exact ⟨rfl, hnext _ hok, hq⟩
  | headStored head next data =>
    rw [hpc] at hok hnext
    exact ⟨hok.1, hnext _ hok.2.1, hok.2.2⟩

theorem Pop.ok_append {pc : Pop α} {head : Nat} {nodes : Nat → Node α} (h : pc.Ok head nodes q)
    (q' : List (Nat × α)) : pc.Ok head nodes (q ++ q') := by
  cases pc with
  | idle => trivial
  | headLoaded head' => exact h
  | nextLoaded head' next => exact h
  | dataRead head' next data =>
    refine ⟨h.1, h.2.1, ?_⟩
    rw [List.head?_append, h.2.2]
    rfl
  | headStored head' next data =>
    refine ⟨h.1, h.2.1, ?_⟩
    rw [List.head?_append, h.2.2]
    rfl

/-- The exchange of a `push` and the return of a `pop` with an item, as the log
of a list of nodes and items. -/
def Event.fifo : Event ι α → Option (FifoEvent (Nat × α))
  | .exchanged _ node item => some (.put (node, item))
  | .popped node item => some (.take (node, item))
  | _ => none

variable [DecidableEq ι]

theorem holds_push {item : α} (h : Holds s q) (hs : s.push p item = some (s', o)) :
    Holds s' q ∧ o = some (.created p s.allocated item) ∧ s.producers p = .idle ∧
      s'.producers = Function.update s.producers p (.created s.allocated) := by
  unfold State.push at hs
  split at hs
  · rename_i hidle
    cases hs
    refine ⟨⟨linked_create h.linked h.owned hidle item, owned_create h.owned hidle item, ?_, ?_⟩,
      rfl, hidle, rfl⟩
    · intro x hx
      have hlt := h.owned.listed _ (List.mem_cons_of_mem _ (List.mem_map_of_mem hx))
      show (Function.update s.nodes s.allocated _ x.1).data = _
      rw [Function.update_of_ne (Nat.ne_of_lt hlt)]
      exact h.data x hx
    · refine h.ok_of_nodes ?_
      intro b hb
      show (Function.update s.nodes s.allocated _ s.front).next = _
      rw [Function.update_of_ne (Nat.ne_of_lt (h.owned.listed _ List.mem_cons_self))]
      exact hb
  · cases hs

/-- A producer's step is its exchange or its link store. -/
theorem holds_produce (h : Holds s q) (hs : s.produce p = some (s', o)) :
    (∃ node, s.producers p = .created node ∧
      o = some (.exchanged p node (s.nodes node).data) ∧
      s'.producers = Function.update s.producers p (.exchanged s.tail node) ∧
      Holds s' (q ++ [(node, (s.nodes node).data)])) ∨
    (∃ prev node, s.producers p = .exchanged prev node ∧ o = some (.linked p node) ∧
      s'.producers = Function.update s.producers p .idle ∧ Holds s' q) := by
  unfold State.produce at hs
  split at hs
  · cases hs
  · rename_i node hcreated
    cases hs
    refine .inl ⟨node, hcreated, rfl, rfl, ?_, ?_, ?_, Pop.ok_append h.consumer _⟩
    · rw [List.map_append]
      exact linked_exchange h.linked h.owned hcreated
    · rw [List.map_append]
      exact owned_exchange h.linked h.owned hcreated
    · intro x hx
      rcases List.mem_append.mp hx with hx | hx
      · exact h.data x hx
      · rw [List.mem_singleton.mp hx]
  · rename_i prev node hexchanged
    cases hs
    refine .inr ⟨prev, node, hexchanged, rfl, rfl, linked_link h.linked hexchanged,
      owned_link h.linked h.owned hexchanged, ?_, ?_⟩
    · intro x hx
      show (Function.update s.nodes prev _ x.1).data = _
      by_cases hprev : x.1 = prev
      · rw [hprev, Function.update_self, ← hprev]
        exact h.data x hx
      · rw [Function.update_of_ne hprev]
        exact h.data x hx
    · refine h.ok_of_nodes ?_
      intro b hb
      by_cases hprev : s.front = prev
      · -- the gap is still open, so the consumer has seen no link there
        rw [hprev, (h.linked.pending p prev node hexchanged).2] at hb
        cases hb
      · show (Function.update s.nodes prev _ s.front).next = _
        rw [Function.update_of_ne hprev]
        exact hb

omit [DecidableEq ι] in
/-- A step of the consumer returns the oldest item, or returns none, or returns
nothing yet and leaves the items as they are. -/
theorem holds_consume (h : Holds s q) :
    s.consume.1.producers = s.producers ∧
    ((∃ node item rest, q = (node, item) :: rest ∧ s.consume.2 = some (.popped node item) ∧
        Holds s.consume.1 rest ∧ s.consume.1.consumer = .idle) ∨
      (s.consume.2.toList.filterMap Event.fifo = [] ∧ Holds s.consume.1 q)) := by
  have hok := h.consumer
  have hl := h.linked
  have ho := h.owned
  unfold State.front at hl ho
  cases hpc : s.consumer with
  | idle =>
    rw [hpc] at hl ho
    simp only [State.consume, hpc, true_and]
    exact .inr ⟨rfl, hl, ho, h.data, rfl⟩
  | headLoaded head =>
    rw [hpc] at hl ho hok
    simp only [State.consume, hpc, true_and]
    exact .inr ⟨rfl, hl, ho, h.data, hok, fun _ hn => hn⟩
  | nextLoaded head next =>
    rw [hpc] at hl ho hok
    obtain ⟨rfl, hnext⟩ := hok
    cases next with
    | none =>
      simp only [State.consume, hpc, true_and]
      exact .inr ⟨rfl, hl, ho, h.data, trivial⟩
    | some node =>
      simp only [State.consume, hpc, true_and]
      have hlink := hnext node rfl
      obtain ⟨item, rest, hq⟩ := hl.next_front hlink
      -- the data is that of the oldest item
      have hdata : (s.nodes node).data = item := h.data (node, item) (by rw [hq]; simp)
      refine .inr ⟨rfl, hl, ho, h.data, rfl, hlink, ?_⟩
      rw [hq, hdata]
      rfl
  | dataRead head next data =>
    rw [hpc] at hl ho hok
    obtain ⟨rfl, hlink, hq⟩ := hok
    simp only [State.consume, hpc, true_and]
    exact .inr ⟨rfl, hl, ho, h.data, rfl, hlink, hq⟩
  | headStored head next data =>
    rw [hpc] at hl ho hok
    obtain ⟨rfl, hlink, hq⟩ := hok
    obtain ⟨rest, rfl⟩ : ∃ rest, q = (s.head, data) :: rest := by
      cases q with
      | nil => cases hq
      | cons x rest =>
        injection hq with hq
        exact ⟨rest, by rw [hq]⟩
    simp only [State.consume, hpc, true_and]
    refine .inl ⟨s.head, data, rest, rfl, rfl, ⟨?_, ?_, ?_, trivial⟩, trivial⟩
    · exact linked_delete hl hlink
    · exact owned_delete hl ho
    · exact fun x hx => h.data x (List.mem_cons_of_mem _ hx)

/-- One step, seen as a step of a first-in first-out list. -/
theorem holds_step {a : Act ι α} (h : Holds s q) (hs : s.step a = some (s', o)) :
    ∃ q', Holds s' q' ∧
      ∀ log, Fifo log q → Fifo (log ++ o.toList.filterMap Event.fifo) q' := by
  cases a with
  | push p item =>
    obtain ⟨h', rfl, _⟩ := holds_push h hs
    refine ⟨q, h', fun log hlog => ?_⟩
    show Fifo (log ++ []) q
    rwa [List.append_nil]
  | produce p =>
    rcases holds_produce h hs with ⟨node, _, rfl, _, h'⟩ | ⟨prev, node, _, rfl, _, h'⟩
    · exact ⟨_, h', fun log hlog => hlog.put _⟩
    · refine ⟨q, h', fun log hlog => ?_⟩
      show Fifo (log ++ []) q
      rwa [List.append_nil]
  | consume =>
    injection hs with hs
    obtain ⟨_, ⟨node, item, rest, rfl, ho, h', _⟩ | ⟨hquiet, h'⟩⟩ := holds_consume h
    · rw [hs] at h' ho
      subst ho
      exact ⟨rest, h', fun log hlog => hlog.take⟩
    · rw [hs] at h' hquiet
      exact ⟨q, h', fun log hlog => by rw [hquiet, List.append_nil]; exact hlog⟩

end Steps

/-- No node is both deleted and in the list, and none is in either twice. -/
theorem Holds.nodup {s : State ι α} {q : List (Nat × α)} (h : Holds s q) :
    (s.deleted ++ s.front :: q.map Prod.fst).Nodup := by
  refine List.nodup_append.mpr ⟨h.owned.once, h.linked.nodup, ?_⟩
  intro a ha b hb hab
  exact (h.owned.gone a ha).2 (hab ▸ hb)

/-! ## Every run -/

theorem holds_new (stub : α) : Holds (State.new stub : State ι α) [] := by
  refine ⟨⟨by simp, rfl, rfl, ?_, ?_, ?_⟩, ⟨?_, ?_, by simp [State.new], ?_, ?_⟩, by simp, trivial⟩
  · rintro a b (⟨_, hhead⟩ | hadj)
    · cases hhead
    · exact hadj.elim
  · intro p a b hp
    cases hp
  · intro p p' node hp
    cases hp
  · intro node hmem
    rw [List.mem_singleton.mp hmem]
    exact Nat.one_pos
  · intro node hmem
    cases hmem
  · intro p node hp
    cases hp
  · intro node hlt
    exact .inl (by rw [Nat.lt_one_iff.mp hlt]; exact List.mem_cons_self)

/-- The items in the queue are those exchanged and not yet popped. -/
def Inv (log : List (Event ι α)) (s : State ι α) : Prop :=
  ∃ q, Holds s q ∧ Fifo (log.filterMap Event.fifo) q

theorem inv_trace [DecidableEq ι] {stub : α} {log : List (Event ι α)} {s : State ι α}
    (h : Trace State.step (State.new stub) log s) : Inv log s := by
  have hnew : Inv [] (State.new stub : State ι α) := ⟨[], holds_new stub, .nil⟩
  refine h.invariant hnew ?_
  rintro log s a s' o ⟨q, hq, hlog⟩ hs
  obtain ⟨q', hq', hstep⟩ := holds_step hq hs
  refine ⟨q', hq', ?_⟩
  rw [List.filterMap_append]
  exact hstep _ hlog

end HftEngine.Mpsc
