import HftEngine.Lib.Loop
import HftEngine.OrderBook.PriceLadder
import HftEngine.OrderBook.SpscQueue

/-!
# The order book (`order.hpp`, `order_book.hpp`, `order_book.cpp`)

The matching engine as state passing.  A call that does not return is a call
whose matching loop runs out of every fuel, so `addOrder` takes the fuel of
that loop and answers `none` when it is used up; `cancelOrder` has no loop.

`Run h b` says that the calls of the history `h`, newest first, were made on a
fresh book, that each returned, and that they left the book `b`.  An `Event`
of a history keeps the book before and after the call, so that what happened
to an order (its slot, what was left of it) can be read off its event.

Time stamps are left out: they are written into orders and match results and
read by nobody.  The callback is the list of results handed to it.
-/

namespace HftEngine

open Lib

inductive Side where
  | buy
  | sell
deriving Repr, DecidableEq

inductive OrderType where
  | limit
  | market
  | cancel
deriving Repr, DecidableEq

theorem OrderType.limit_ne_cancel : OrderType.limit ≠ .cancel := nofun

/-- The other side of the book: where an order looks for a match. -/
def Side.opposite : Side → Side
  | .buy => .sell
  | .sell => .buy

theorem Side.opposite_ne (side : Side) : side.opposite ≠ side := by cases side <;> decide

theorem Side.opposite_opposite (side : Side) : side.opposite.opposite = side := by
  cases side <;> rfl

structure Order where
  orderId : UInt64
  priceTicks : Int64
  quantity : UInt32
  filledQty : UInt32
  symbolId : UInt32
  side : Side
  type : OrderType
deriving Repr, DecidableEq

/-- What one call of `on_match_` is given. -/
structure MatchResult where
  aggressorId : UInt64
  restingId : UInt64
  priceTicks : Int64
  quantity : UInt32
deriving Repr, DecidableEq

/-- `MAX_ORDERS`: a power of two, as the free list's ring requires, small
enough for a slot to be a `uint32_t` other than the `0xFFFFFFFF` that marks
an unused entry of the id map. -/
structure PoolSize where
  log2 : Nat
  log2_lt : log2 < 32

namespace PoolSize

/-- The number of slots of the pool. -/
def maxOrders (n : PoolSize) : Nat := 2 ^ n.log2

/-- The size the engine is built with, `1 << 20`. -/
def default : PoolSize := ⟨20, by decide⟩

/-- A pool of four slots, for runs on paper. -/
def four : PoolSize := ⟨2, by decide⟩

/-- `order_id & (MAX_ORDERS - 1)`. -/
def index (n : PoolSize) (orderId : UInt64) : Nat := orderId.toNat &&& (n.maxOrders - 1)

end PoolSize

structure OrderBook (n : PoolSize) where
  symbolId : UInt32
  bids : FlatPriceLadder
  asks : FlatPriceLadder
  orderPool : Nat → Order
  freeList : SpscQueue UInt32 n.log2
  orderIdToSlot : Nat → UInt32
  nextOrderId : UInt64

/-! ## Matching -/

/-- The variables of a matching loop: what is left of the aggressor, the
ladder it trades against, and the results reported so far. -/
structure MatchLoop where
  quantity : UInt32
  ladder : FlatPriceLadder
  fills : List MatchResult
deriving Repr, DecidableEq

/-- What tells the two matching loops apart: the end of the ladder they take
first, the write through that pointer, and the test that breaks the loop
(level price, limit price). -/
structure Taker where
  top : FlatPriceLadder → Option PriceLevel
  write : FlatPriceLadder → PriceLevel → FlatPriceLadder
  beyond : Int64 → Int64 → Bool

def Taker.buy : Taker where
  top := FlatPriceLadder.worst
  write := FlatPriceLadder.writeWorst
  beyond ask priceTicks := ask > priceTicks

def Taker.sell : Taker where
  top := FlatPriceLadder.best
  write := FlatPriceLadder.writeBest
  beyond bid priceTicks := bid < priceTicks

/-- `std::min(quantity, static_cast<uint32_t>(total_quantity))`. -/
def fillQty (quantity : UInt32) (level : PriceLevel) : UInt32 :=
  min quantity level.totalQuantity.toUInt32

/-- The level after `total_quantity -= fill_qty`. -/
def PriceLevel.fill (level : PriceLevel) (qty : UInt32) : PriceLevel :=
  { level with totalQuantity := level.totalQuantity - qty.toUInt64 }

/-- One iteration of a matching loop; `none` where it ends. -/
def matchStep (t : Taker) (priceTicks : Int64) (s : MatchLoop) : Option MatchLoop :=
  if s.quantity > 0 then
    match t.top s.ladder with
    | none => none
    | some level =>
      if t.beyond level.priceTicks priceTicks then none
      else
        let qty := fillQty s.quantity level
        some
          { quantity := s.quantity - qty
            ladder := (t.write s.ladder (level.fill qty)).removeIfEmpty level.priceTicks
            fills := s.fills ++ [⟨0, 0, level.priceTicks, qty⟩] }
  else none

/-- A matching loop and its result, the remaining quantity as `uint64_t`. -/
def matchAggressive (t : Taker) (fuel : Nat) (ladder : FlatPriceLadder) (quantity : UInt32)
    (priceTicks : Int64) : Option (UInt64 × FlatPriceLadder × List MatchResult) :=
  (loop (matchStep t priceTicks) fuel ⟨quantity, ladder, []⟩).map fun s =>
    (s.quantity.toUInt64, s.ladder, s.fills)

def matchAggressiveBuy : Nat → FlatPriceLadder → UInt32 → Int64 →
    Option (UInt64 × FlatPriceLadder × List MatchResult) :=
  matchAggressive Taker.buy

def matchAggressiveSell : Nat → FlatPriceLadder → UInt32 → Int64 →
    Option (UInt64 × FlatPriceLadder × List MatchResult) :=
  matchAggressive Taker.sell

/-! ## The book's operations -/

namespace OrderBook

variable {n : PoolSize}

/-- The constructor: an order pool of zeroes, an id map of `0xFFFFFFFF`, and
every slot pushed to the free list, the last of which the ring refuses. -/
def new (n : PoolSize) (symbolId : UInt32) : OrderBook n where
  symbolId := symbolId
  bids := ⟨[]⟩
  asks := ⟨[]⟩
  orderPool := fun _ => ⟨0, 0, 0, 0, 0, .buy, .limit⟩
  freeList := (List.range n.maxOrders).foldl (fun q i => (q.push (UInt32.ofNat i)).2)
    (SpscQueue.new n.log2 fun _ => 0)
  orderIdToSlot := fun _ => 0xFFFFFFFF
  nextOrderId := 1

/-- The end of a successful `cancel_order`: the level of the order is dropped
if it is empty, and the slot goes back to the pool. -/
def release (b : OrderBook n) (slot : UInt32) : OrderBook n :=
  let order := b.orderPool slot.toNat
  let b := match order.side with
    | .buy => { b with bids := b.bids.removeIfEmpty order.priceTicks }
    | .sell => { b with asks := b.asks.removeIfEmpty order.priceTicks }
  { b with freeList := (b.freeList.push slot).2 }

def cancelOrder (b : OrderBook n) (orderId : UInt64) : Bool × OrderBook n :=
  let slot := b.orderIdToSlot (n.index orderId)
  if slot.toNat ≥ n.maxOrders then (false, b)
  else if (b.orderPool slot.toNat).orderId ≠ orderId then (false, b)
  else (true, b.release slot)

/-- The slot allocated, its order written, the id map pointed at it. -/
def allocate (b : OrderBook n) (freeList : SpscQueue UInt32 n.log2) (slot : UInt32)
    (order : Order) : OrderBook n :=
  { b with
    freeList := freeList
    orderPool := Function.update b.orderPool slot.toNat order
    orderIdToSlot := Function.update b.orderIdToSlot (n.index order.orderId) slot }

/-- The end of `add_order`: a filled order's slot goes back to the pool, the
rest of any other joins the book. -/
def settle (b : OrderBook n) (slot : UInt32) (side : Side) (priceTicks : Int64)
    (remaining : UInt32) : OrderBook n :=
  if remaining = 0 then { b with freeList := (b.freeList.push slot).2 }
  else
    let order := b.orderPool slot.toNat
    let b := { b with
      orderPool := Function.update b.orderPool slot.toNat { order with quantity := remaining } }
    match side with
    | .buy => { b with bids := b.bids.upsert priceTicks remaining }
    | .sell => { b with asks := b.asks.upsert priceTicks remaining }

/-- The order id returned, the match results reported, the book left. -/
def addOrder (fuel : Nat) (b : OrderBook n) (side : Side) (priceTicks : Int64)
    (quantity : UInt32) (type : OrderType) :
    Option (UInt64 × List MatchResult × OrderBook n) :=
  let orderId := b.nextOrderId
  let b := { b with nextOrderId := b.nextOrderId + 1 }
  if type = .cancel then
    -- the price field carries the id to cancel
    some (orderId, [], (b.cancelOrder priceTicks.toUInt64).2)
  else
    match b.freeList.pop with
    | (none, _) => some (0, [], b)
    | (some slot, freeList) =>
      let b := b.allocate freeList slot
        ⟨orderId, priceTicks, quantity, 0, b.symbolId, side, type⟩
      match side with
      | .buy => do
        let (left, asks, fills) ← matchAggressiveBuy fuel b.asks quantity priceTicks
        some (orderId, fills, { b with asks := asks }.settle slot side priceTicks left.toUInt32)
      | .sell => do
        let (left, bids, fills) ← matchAggressiveSell fuel b.bids quantity priceTicks
        some (orderId, fills, { b with bids := bids }.settle slot side priceTicks left.toUInt32)

def bestBid (b : OrderBook n) : Option PriceLevel := b.bids.best

def bestAsk (b : OrderBook n) : Option PriceLevel := b.asks.worst

def spreadTicks (b : OrderBook n) : Int64 :=
  match b.bestBid, b.bestAsk with
  | some bid, some ask => ask.priceTicks - bid.priceTicks
  | _, _ => Int64.maxValue

def totalOrders (b : OrderBook n) : UInt64 := b.nextOrderId - 1

end OrderBook

/-! ## Runs -/

inductive Call where
  | add (side : Side) (priceTicks : Int64) (quantity : UInt32) (type : OrderType)
  | cancel (orderId : UInt64)
deriving Repr, DecidableEq

/-- The quantity a call asks for. -/
def Call.quantity : Call → Nat
  | .add _ _ quantity _ => quantity.toNat
  | .cancel _ => 0

inductive Reply where
  | added (orderId : UInt64) (fills : List MatchResult)
  | cancelled (ok : Bool)
deriving Repr, DecidableEq

/-- One call on a book; `none` when the fuel of its matching loop runs out. -/
def OrderBook.exec {n : PoolSize} (fuel : Nat) (b : OrderBook n) :
    Call → Option (Reply × OrderBook n)
  | .add side priceTicks quantity type =>
    (b.addOrder fuel side priceTicks quantity type).map fun r => (.added r.1 r.2.1, r.2.2)
  | .cancel orderId => some (.cancelled (b.cancelOrder orderId).1, (b.cancelOrder orderId).2)

/-- A call that returned. -/
structure Event (n : PoolSize) where
  before : OrderBook n
  call : Call
  reply : Reply
  after : OrderBook n

/-- `Run h b`: the calls of `h`, newest first, made one after the other on a
fresh book, all returned and left `b`. -/
inductive Run {n : PoolSize} : List (Event n) → OrderBook n → Prop
  | new (symbolId : UInt32) : Run [] (OrderBook.new n symbolId)
  | call {h : List (Event n)} {b b' : OrderBook n} {c : Call} {r : Reply} {fuel : Nat} :
      Run h b → b.exec fuel c = some (r, b') → Run (⟨b, c, r, b'⟩ :: h) b'

/-- Calls made one after the other, each with the same fuel: the history and
the book they lead to. -/
def replay {n : PoolSize} (fuel : Nat) : List Call → List (Event n) × OrderBook n →
    Option (List (Event n) × OrderBook n)
  | [], s => some s
  | c :: cs, (h, b) =>
    match b.exec fuel c with
    | none => none
    | some (r, b') => replay fuel cs (⟨b, c, r, b'⟩ :: h, b')

theorem run_replay {n : PoolSize} {fuel : Nat} {cs : List Call} {h h' : List (Event n)}
    {b b' : OrderBook n} (hrun : Run h b) (hr : replay fuel cs (h, b) = some (h', b')) :
    Run h' b' := by
  induction cs generalizing h b with
  | nil =>
    cases hr
    exact hrun
  | cons c cs ih =>
    simp only [replay] at hr
    cases hexec : b.exec fuel c with
    | none =>
      rw [hexec] at hr
      cases hr
    | some rb =>
      obtain ⟨r, b₁⟩ := rb
      rw [hexec] at hr
      exact ih (hrun.call hexec) hr

/-- The history and the book of calls on a fresh book that all return. -/
def played {n : PoolSize} (fuel : Nat) (symbolId : UInt32) (cs : List Call)
    (h : (replay fuel cs ([], OrderBook.new n symbolId)).isSome = true) :
    List (Event n) × OrderBook n :=
  (replay fuel cs ([], OrderBook.new n symbolId)).get h

theorem run_played {n : PoolSize} {fuel : Nat} {symbolId : UInt32} {cs : List Call}
    (h : (replay fuel cs ([], OrderBook.new n symbolId)).isSome = true) :
    Run (played fuel symbolId cs h).1 (played fuel symbolId cs h).2 :=
  run_replay (.new symbolId) (Option.some_get h).symm

end HftEngine
