import HftEngine.Lib.Loop
import HftEngine.Lib.Trace

/-!
# The multi-producer single-consumer list, step by step (`mpsc_queue.hpp`)

Any number of producers push while one consumer pops.  A producer takes three
steps: it creates its node, exchanges `tail_` for it, and links it to the node
it got back.  The consumer's steps are its two loads, the read of the data, the
store to `head_` and the deletion of the old head.  Steps of all of them come
in any order.

A node is a number; numbers are given out once, in the order of the `new`
expressions, node 0 being the stub.  Deleted nodes are listed, in order, as often
as they are deleted, and keep their contents: that no step touches one is
proved, not assumed.
-/

namespace HftEngine.Mpsc

open Lib

variable {ι α : Type} [DecidableEq ι]

structure Node (α : Type) where
  data : α
  next : Option Nat

/-- Where a producer stands, and its local variables. -/
inductive Push where
  | idle
  | created (node : Nat)
  | exchanged (prev node : Nat)
deriving Repr, DecidableEq

/-- Where the consumer stands, and its local variables. -/
inductive Pop (α : Type) where
  | idle
  | headLoaded (head : Nat)
  | nextLoaded (head : Nat) (next : Option Nat)
  | dataRead (head next : Nat) (data : α)
  | headStored (head next : Nat) (data : α)
deriving Repr, DecidableEq

structure State (ι α : Type) where
  head : Nat
  tail : Nat
  nodes : Nat → Node α
  allocated : Nat
  deleted : List Nat
  producers : ι → Push
  consumer : Pop α

/-- The constructor: `head_` and `tail_` both at the stub, whose data is `T()`. -/
def State.new (stub : α) : State ι α where
  head := 0
  tail := 0
  nodes := fun _ => ⟨stub, none⟩
  allocated := 1
  deleted := []
  producers := fun _ => .idle
  consumer := .idle

/-- A producer begins a `push`, or takes the next step of the one it is in; the
consumer takes its next step, the first of a `pop` if it is in none. -/
inductive Act (ι α : Type) where
  | push (p : ι) (item : α)
  | produce (p : ι)
  | consume
deriving Repr, DecidableEq

/-- What a step lets an observer see.  A `push` returns at its link store, a
`pop` with `missed` (`nullopt`) or with the item it took. -/
inductive Event (ι α : Type) where
  | created (p : ι) (node : Nat) (item : α)
  | exchanged (p : ι) (node : Nat) (item : α)
  | linked (p : ι) (node : Nat)
  | began
  | probed
  | missed
  | popped (node : Nat) (item : α)
deriving Repr, DecidableEq

namespace State

/-- `new Node{item}`, by a producer that is in no call. -/
def push (s : State ι α) (p : ι) (item : α) : Option (State ι α × Option (Event ι α)) :=
  match s.producers p with
  | .idle =>
    some ({ s with
        nodes := Function.update s.nodes s.allocated ⟨item, none⟩
        allocated := s.allocated + 1
        producers := Function.update s.producers p (.created s.allocated) },
      some (.created p s.allocated item))
  | _ => none

/-- `tail_.exchange(node)`, then `prev->next.store(node)`. -/
def produce (s : State ι α) (p : ι) : Option (State ι α × Option (Event ι α)) :=
  match s.producers p with
  | .idle => none
  | .created node =>
    some ({ s with
        tail := node
        producers := Function.update s.producers p (.exchanged s.tail node) },
      some (.exchanged p node (s.nodes node).data))
  | .exchanged prev node =>
    some ({ s with
        nodes := Function.update s.nodes prev { s.nodes prev with next := some node }
        producers := Function.update s.producers p .idle },
      some (.linked p node))

/-- The next step of the consumer. -/
def consume (s : State ι α) : State ι α × Option (Event ι α) :=
  match s.consumer with
  | .idle => ({ s with consumer := .headLoaded s.head }, some .began)
  | .headLoaded head =>
    ({ s with consumer := .nextLoaded head (s.nodes head).next }, some .probed)
  | .nextLoaded _ none => ({ s with consumer := .idle }, some .missed)
  | .nextLoaded head (some next) =>
    ({ s with consumer := .dataRead head next (s.nodes next).data }, none)
  | .dataRead head next data =>
    ({ s with head := next, consumer := .headStored head next data }, none)
  | .headStored head next data =>
    ({ s with deleted := s.deleted ++ [head], consumer := .idle }, some (.popped next data))

def step (s : State ι α) : Act ι α → Option (State ι α × Option (Event ι α))
  | .push p item => s.push p item
  | .produce p => s.produce p
  | .consume => some s.consume

/-! ## The destructor -/

/-- One turn of the destructor's loop: its variable `node`, and the nodes
deleted so far. -/
def destroyStep (nodes : Nat → Node α) : Option Nat × List Nat → Option (Option Nat × List Nat)
  | (none, _) => none
  | (some node, deleted) => some ((nodes node).next, deleted ++ [node])

/-- The nodes deleted when the destructor has finished. -/
def destroy (fuel : Nat) (s : State ι α) : Option (List Nat) :=
  (loop (destroyStep s.nodes) fuel (some s.head, s.deleted)).map Prod.snd

end State

end HftEngine.Mpsc
