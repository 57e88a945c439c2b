import HftEngine.OrderBook.Book

/-!
# What one call does

One inversion lemma for each operation, the two sides of the book taken
together: `ladder side` is the ladder of a side, `Taker.of side` the matching
loop of an order of that side.

* `cancelOrder_eq` — `cancel_order` is its test (`cancelSlot`) followed by
  the release of the slot the test found (`Released`);
* `addOrder_placed` — an `add_order` with a slot at hand returns exactly when
  its matching loop does, and is then placed (`Placed`: what it did to every
  part of the book).

`exec_outcome` puts the cases of both together.  Everything proved about runs
is proved from it.
-/

namespace HftEngine

open Lib

def Taker.of : Side → Taker
  | .buy => Taker.buy
  | .sell => Taker.sell

namespace OrderBook

variable {n : PoolSize} {b b' : OrderBook n}

/-- The ladder on which orders of a side rest. -/
def ladder (b : OrderBook n) : Side → FlatPriceLadder
  | .buy => b.bids
  | .sell => b.asks

/-- The slot an id names, if it passes the tests of `cancel_order`. -/
def cancelSlot (b : OrderBook n) (orderId : UInt64) : Option UInt32 :=
  let slot := b.orderIdToSlot (n.index orderId)
  if slot.toNat < n.maxOrders ∧ (b.orderPool slot.toNat).orderId = orderId then some slot
  else none

/-! ## `cancel_order` -/

/-- The effect of a successful `cancel_order` that found `slot`. -/
structure Released (b : OrderBook n) (slot : UInt32) (b' : OrderBook n) : Prop where
  own : b'.ladder (b.orderPool slot.toNat).side =
    (b.ladder (b.orderPool slot.toNat).side).removeIfEmpty (b.orderPool slot.toNat).priceTicks
  opposite : b'.ladder (b.orderPool slot.toNat).side.opposite =
    b.ladder (b.orderPool slot.toNat).side.opposite
  freeList : b'.freeList = (b.freeList.push slot).2
  orderPool : b'.orderPool = b.orderPool
  orderIdToSlot : b'.orderIdToSlot = b.orderIdToSlot

theorem release_spec (b : OrderBook n) (slot : UInt32) : Released b slot (b.release slot) := by
  unfold release
  cases hside : (b.orderPool slot.toNat).side with
  | buy => constructor <;> simp [hside, ladder, Side.opposite]
  | sell => constructor <;> simp [hside, ladder, Side.opposite]

/-- `cancel_order` is its test followed by the release. -/
theorem cancelOrder_eq (b : OrderBook n) (orderId : UInt64) :
    b.cancelOrder orderId =
      match b.cancelSlot orderId with
      | none => (false, b)
      | some slot => (true, b.release slot) := by
  by_cases hslot : (b.orderIdToSlot (n.index orderId)).toNat < n.maxOrders
  · by_cases hid : (b.orderPool (b.orderIdToSlot (n.index orderId)).toNat).orderId = orderId
    · simp only [cancelOrder, cancelSlot]
      rw [if_neg (by omega), if_neg (by simpa using hid), if_pos ⟨hslot, hid⟩]
    · simp only [cancelOrder, cancelSlot]
      rw [if_neg (by omega), if_pos hid, if_neg (fun h => hid h.2)]
  · simp only [cancelOrder, cancelSlot]
    rw [if_pos (by omega), if_neg (fun h => hslot h.1)]

theorem cancelSlot_spec {orderId : UInt64} {slot : UInt32}
    (h : b.cancelSlot orderId = some slot) :
    slot = b.orderIdToSlot (n.index orderId) ∧ slot.toNat < n.maxOrders ∧
      (b.orderPool slot.toNat).orderId = orderId := by
  simp only [cancelSlot] at h
  split at h
  · rename_i htest
    injection h with h
    subst h
    exact ⟨rfl, htest⟩
  · cases h

/-! ## `add_order` -/

/-- The effect of an `add_order` of a `Limit` or `Market` order that got the
slot `slot` and whose matching loop ended in `s`. -/
structure Placed (b : OrderBook n) (side : Side) (priceTicks : Int64) (slot : UInt32)
    (freeList : SpscQueue UInt32 n.log2) (s : MatchLoop) (b' : OrderBook n) : Prop where
  opposite : b'.ladder side.opposite = s.ladder
  own : b'.ladder side =
    if s.quantity = 0 then b.ladder side else (b.ladder side).upsert priceTicks s.quantity
  freeList : b'.freeList = if s.quantity = 0 then (freeList.push slot).2 else freeList
  ordered : (b'.orderPool slot.toNat).orderId = b.nextOrderId ∧
    (b'.orderPool slot.toNat).priceTicks = priceTicks ∧
    (b'.orderPool slot.toNat).side = side
  orderPool : ∀ i, i ≠ slot.toNat → b'.orderPool i = b.orderPool i
  orderIdToSlot : b'.orderIdToSlot =
    Function.update b.orderIdToSlot (n.index b.nextOrderId) slot
  nextOrderId : b'.nextOrderId = b.nextOrderId + 1

/-- The book after the first line of `add_order`. -/
def bump (b : OrderBook n) : OrderBook n := { b with nextOrderId := b.nextOrderId + 1 }

/-- The loop `add_order` runs once it has a slot. -/
def matching (fuel : Nat) (b : OrderBook n) (side : Side) (priceTicks : Int64)
    (quantity : UInt32) : Option MatchLoop :=
  loop (matchStep (Taker.of side) priceTicks) fuel ⟨quantity, b.ladder side.opposite, []⟩

theorem addOrder_cancel (fuel : Nat) (b : OrderBook n) (side : Side) (priceTicks : Int64)
    (quantity : UInt32) :
    b.addOrder fuel side priceTicks quantity .cancel =
      some (b.nextOrderId, [], (b.bump.cancelOrder priceTicks.toUInt64).2) := rfl

theorem addOrder_refused {side : Side} {priceTicks : Int64} {quantity : UInt32}
    {type : OrderType} (htype : type ≠ .cancel) (hpop : b.freeList.contents = [])
    (fuel : Nat) :
    b.addOrder fuel side priceTicks quantity type = some (0, [], b.bump) := by
  simp only [addOrder, if_neg htype, SpscQueue.pop_of_nil hpop]
  rfl

/-- The book `add_order` leaves when the loop ended in `s`. -/
def place (b : OrderBook n) (side : Side) (priceTicks : Int64) (quantity : UInt32)
    (type : OrderType) (slot : UInt32) (freeList : SpscQueue UInt32 n.log2) (s : MatchLoop) :
    OrderBook n :=
  let b := b.bump.allocate freeList slot
    ⟨b.nextOrderId, priceTicks, quantity, 0, b.symbolId, side, type⟩
  let b := match side with
    | .buy => { b with asks := s.ladder }
    | .sell => { b with bids := s.ladder }
  b.settle slot side priceTicks s.quantity

theorem place_spec (b : OrderBook n) (side : Side) (priceTicks : Int64) (quantity : UInt32)
    (type : OrderType) (slot : UInt32) (freeList : SpscQueue UInt32 n.log2) (s : MatchLoop) :
    Placed b side priceTicks slot freeList s
      (b.place side priceTicks quantity type slot freeList s) := by
  by_cases hzero : s.quantity = 0 <;> cases side <;> constructor <;>
    simp +contextual [place, settle, allocate, bump, hzero, ladder, Side.opposite,
      Function.update_of_ne]

/-- With a slot at hand, `add_order` runs its loop and places the order. -/
theorem addOrder_eq (side : Side) (priceTicks : Int64) (quantity : UInt32) {type : OrderType}
    (htype : type ≠ .cancel) {slot : UInt32} {freeList : SpscQueue UInt32 n.log2}
    (hpop : b.freeList.pop = (some slot, freeList)) (fuel : Nat) :
    b.addOrder fuel side priceTicks quantity type =
      (b.matching fuel side priceTicks quantity).map fun s =>
        (b.nextOrderId, s.fills, b.place side priceTicks quantity type slot freeList s) := by
  -- `allocate` leaves both ladders alone, so `add_order` runs the same loop
  cases side with
  | buy =>
    simp only [addOrder, if_neg htype, hpop, allocate, matchAggressiveBuy, matchAggressive]
    show _ = Option.map _ (loop (matchStep Taker.buy priceTicks) fuel ⟨quantity, b.asks, []⟩)
    cases loop (matchStep Taker.buy priceTicks) fuel ⟨quantity, b.asks, []⟩ with
    | none => rfl
    | some s =>
      simp only [Option.map_some, Option.bind_eq_bind, Option.bind_some,
        UInt32.toUInt32_toUInt64]
      rfl
  | sell =>
    simp only [addOrder, if_neg htype, hpop, allocate, matchAggressiveSell, matchAggressive]
    show _ = Option.map _ (loop (matchStep Taker.sell priceTicks) fuel ⟨quantity, b.bids, []⟩)
    cases loop (matchStep Taker.sell priceTicks) fuel ⟨quantity, b.bids, []⟩ with
    | none => rfl
    | some s =>
      simp only [Option.map_some, Option.bind_eq_bind, Option.bind_some,
        UInt32.toUInt32_toUInt64]
      rfl

/-- With a slot at hand, `add_order` returns exactly when its loop does. -/
theorem addOrder_placed (side : Side) (priceTicks : Int64) (quantity : UInt32)
    {type : OrderType} (htype : type ≠ .cancel) {slot : UInt32}
    {freeList : SpscQueue UInt32 n.log2} (hpop : b.freeList.pop = (some slot, freeList))
    (fuel : Nat) :
    (b.matching fuel side priceTicks quantity = none ∧
      b.addOrder fuel side priceTicks quantity type = none) ∨
    (∃ s b', b.matching fuel side priceTicks quantity = some s ∧
      b.addOrder fuel side priceTicks quantity type = some (b.nextOrderId, s.fills, b') ∧
      Placed b side priceTicks slot freeList s b') := by
  rw [addOrder_eq side priceTicks quantity htype hpop fuel]
  cases b.matching fuel side priceTicks quantity with
  | none => exact .inl ⟨rfl, rfl⟩
  | some s => exact .inr ⟨s, _, rfl, rfl, place_spec b side priceTicks quantity type slot freeList s⟩

/-- What `add_order` does does not depend on the fuel. -/
theorem addOrder_unique {side : Side} {priceTicks : Int64} {quantity : UInt32} {type : OrderType}
    {fuel fuel' : Nat} {r r' : UInt64 × List MatchResult × OrderBook n}
    (h : b.addOrder fuel side priceTicks quantity type = some r)
    (h' : b.addOrder fuel' side priceTicks quantity type = some r') : r = r' := by
  by_cases htype : type = .cancel
  · subst htype
    rw [addOrder_cancel] at h h'
    exact Option.some.inj (h.symm.trans h')
  obtain ⟨hnil, _⟩ | ⟨slot, freeList, hpop, _⟩ := b.freeList.pop_eq
  · rw [addOrder_refused htype hnil] at h h'
    exact Option.some.inj (h.symm.trans h')
  · rw [addOrder_eq side priceTicks quantity htype hpop, Option.map_eq_some_iff] at h h'
    obtain ⟨s, hs, rfl⟩ := h
    obtain ⟨s', hs', rfl⟩ := h'
    rw [loop_unique hs hs']

/-- An order just placed passes the test of `cancel_order`, filled or not. -/
theorem cancelSlot_placed {side : Side} {priceTicks : Int64} {slot : UInt32}
    {freeList : SpscQueue UInt32 n.log2} {s : MatchLoop}
    (hp : Placed b side priceTicks slot freeList s b') (hslot : slot.toNat < n.maxOrders) :
    b'.cancelSlot b.nextOrderId = some slot := by
  have hmap : b'.orderIdToSlot (n.index b.nextOrderId) = slot := by
    rw [hp.orderIdToSlot, Function.update_self]
  simp only [cancelSlot, hmap]
  rw [if_pos ⟨hslot, hp.ordered.1⟩]

/-! ## Every way in which a call can return -/

/-- Two books that differ at most in the next id. -/
structure Same (b b' : OrderBook n) : Prop where
  ladder : ∀ side, b'.ladder side = b.ladder side
  freeList : b'.freeList = b.freeList
  orderPool : b'.orderPool = b.orderPool
  orderIdToSlot : b'.orderIdToSlot = b.orderIdToSlot

end OrderBook

/-- The id a call cancels; a `Cancel` order carries it in its price field. -/
def Call.cancels : Call → Option UInt64
  | .cancel orderId => some orderId
  | .add _ priceTicks _ .cancel => some priceTicks.toUInt64
  | .add _ _ _ _ => none

theorem cancels_of_ne {side : Side} {p : Int64} {q : UInt32} {type : OrderType}
    (htype : type ≠ .cancel) : (Call.add side p q type).cancels = none := by
  cases type with
  | limit => rfl
  | market => rfl
  | cancel => exact absurd rfl htype

namespace OrderBook

variable {n : PoolSize} {b b' : OrderBook n}

/-- The four ways in which a call can return: a cancel that fails its test, a
cancel that releases a slot, an order refused for want of a slot, an order
placed. -/
inductive Outcome (fuel : Nat) (b : OrderBook n) : Call → Reply → OrderBook n → Prop
  | idle {c : Call} {r : Reply} {b' : OrderBook n} {orderId : UInt64} :
      c.cancels = some orderId → b.cancelSlot orderId = none → Same b b' → Outcome fuel b c r b'
  | released {c : Call} {r : Reply} {b' : OrderBook n} {orderId : UInt64} {slot : UInt32} :
      c.cancels = some orderId → b.cancelSlot orderId = some slot → Released b slot b' →
      Outcome fuel b c r b'
  | refused {side : Side} {priceTicks : Int64} {quantity : UInt32} {type : OrderType} :
      type ≠ .cancel → b.freeList.contents = [] →
      Outcome fuel b (.add side priceTicks quantity type) (.added 0 []) b.bump
  | placed {side : Side} {priceTicks : Int64} {quantity : UInt32} {type : OrderType}
      {slot : UInt32} {freeList : SpscQueue UInt32 n.log2} {s : MatchLoop} {b' : OrderBook n} :
      type ≠ .cancel → b.freeList.pop = (some slot, freeList) →
      b.matching fuel side priceTicks quantity = some s →
      Placed b side priceTicks slot freeList s b' →
      Outcome fuel b (.add side priceTicks quantity type) (.added b.nextOrderId s.fills) b'

/-- A cancel made from a book that differs from `b` in its next id only. -/
theorem cancel_outcome (fuel : Nat) {c : Call} (r : Reply) {orderId : UInt64}
    (hc : c.cancels = some orderId) {b₀ : OrderBook n} (hb₀ : b₀ = b ∨ b₀ = b.bump) :
    Outcome fuel b c r (b₀.cancelOrder orderId).2 := by
  have hslot : b₀.cancelSlot orderId = b.cancelSlot orderId := by
    rcases hb₀ with rfl | rfl <;> rfl
  have hsame : Same b b₀ := by
    rcases hb₀ with rfl | rfl <;> exact ⟨fun side => by cases side <;> rfl, rfl, rfl, rfl⟩
  rw [cancelOrder_eq, hslot]
  cases htest : b.cancelSlot orderId with
  | none => exact .idle hc htest hsame
  | some slot =>
    have hrel := release_spec b₀ slot
    refine .released hc htest ⟨?_, ?_, ?_, ?_, ?_⟩
    · rw [← hsame.orderPool, hrel.own, hsame.ladder]
    · rw [← hsame.orderPool, hrel.opposite, hsame.ladder]
    · rw [hrel.freeList, hsame.freeList]
    · rw [hrel.orderPool, hsame.orderPool]
    · rw [hrel.orderIdToSlot, hsame.orderIdToSlot]

/-- The inversion lemma of the whole interface. -/
theorem exec_outcome {fuel : Nat} {c : Call} {r : Reply} (h : b.exec fuel c = some (r, b')) :
    Outcome fuel b c r b' := by
  cases c with
  | cancel orderId =>
    injection h with h
    injection h with _ hb
    rw [← hb]
    exact cancel_outcome fuel _ rfl (.inl rfl)
  | add side priceTicks quantity type =>
    simp only [exec, Option.map_eq_some_iff] at h
    obtain ⟨⟨orderId, fills, b''⟩, hadd, heq⟩ := h
    injection heq with hr hb
    subst hr hb
    by_cases htype : type = .cancel
    · subst htype
      rw [addOrder_cancel] at hadd
      injection hadd with hadd
      injection hadd with _ hadd
      injection hadd with _ hb
      rw [← hb]
      exact cancel_outcome fuel _ rfl (.inr rfl)
    · obtain ⟨hnil, _⟩ | ⟨slot, freeList, hpop, _⟩ := b.freeList.pop_eq
      · rw [addOrder_refused htype hnil] at hadd
        cases hadd
        exact .refused htype hnil
      · obtain ⟨_, hnone⟩ | ⟨s, b₁, hs, hrun, hplaced⟩ :=
          addOrder_placed side priceTicks quantity htype hpop fuel
        · rw [hnone] at hadd
          cases hadd
        · rw [hrun] at hadd
          cases hadd
          exact .placed htype hpop hs hplaced

theorem cancel_nextOrderId (b : OrderBook n) (orderId : UInt64) :
    (b.cancelOrder orderId).2.nextOrderId = b.nextOrderId := by
  rw [cancelOrder_eq]
  cases b.cancelSlot orderId with
  | none => rfl
  | some slot =>
    simp only [release]
    cases (b.orderPool slot.toNat).side <;> rfl

/-- A fresh book's free list: every slot but the last, which the ring had no
room for. -/
theorem contents_new (n : PoolSize) (symbolId : UInt32) :
    (OrderBook.new n symbolId).freeList.contents =
      (List.range (n.maxOrders - 1)).map UInt32.ofNat := by
  have hpos : 0 < n.maxOrders := Nat.two_pow_pos n.log2
  have hsplit : List.range n.maxOrders =
      List.range (n.maxOrders - 1) ++ [n.maxOrders - 1] := by
    rw [← List.range_succ, Nat.succ_eq_add_one, Nat.sub_add_cancel hpos]
  have hfold := SpscQueue.contents_foldl_push ((List.range (n.maxOrders - 1)).map UInt32.ofNat)
    (SpscQueue.new n.log2 fun _ => 0) (by simp [PoolSize.maxOrders])
  simp only [List.foldl_map, SpscQueue.contents_new, List.nil_append] at hfold
  simp only [OrderBook.new, hsplit, List.foldl_append, List.foldl_cons, List.foldl_nil]
  -- the ring is full, so the last push changes nothing
  obtain ⟨_, hlast⟩ | ⟨hroom, _, _⟩ := SpscQueue.push_eq
    ((List.range (n.maxOrders - 1)).foldl (fun q i => (q.push (UInt32.ofNat i)).2)
      (SpscQueue.new n.log2 fun _ => 0)) (UInt32.ofNat (n.maxOrders - 1))
  · rw [hlast, hfold]
  · rw [hfold] at hroom
    simp [PoolSize.maxOrders] at hroom
    omega

/-- The first slot given out is slot 0. -/
theorem contents_new_cons (n : PoolSize) (symbolId : UInt32) (hlog : 0 < n.log2) :
    ∃ rest, (OrderBook.new n symbolId).freeList.contents = 0 :: rest ∧
      rest.length = n.maxOrders - 2 := by
  have htwo : 2 ≤ n.maxOrders := by
    have hpow := Nat.pow_le_pow_right (by omega : 0 < 2) hlog
    simpa [PoolSize.maxOrders] using hpow
  have hsucc : n.maxOrders - 1 = (n.maxOrders - 2) + 1 := by omega
  rw [contents_new, hsucc, List.range_succ_eq_map]
  exact ⟨_, rfl, by simp⟩

/-- What placing an order does to the free list: its slot goes to the end if
it was filled. -/
theorem placed_contents {side : Side} {priceTicks : Int64} {slot : UInt32}
    {freeList : SpscQueue UInt32 n.log2} {s : MatchLoop}
    (hpop : b.freeList.pop = (some slot, freeList))
    (hp : Placed b side priceTicks slot freeList s b') :
    ∃ rest, b.freeList.contents = slot :: rest ∧
      b'.freeList.contents = if s.quantity = 0 then rest ++ [slot] else rest := by
  have hcons := SpscQueue.contents_of_pop hpop
  refine ⟨freeList.contents, hcons, ?_⟩
  rw [hp.freeList]
  split
  · -- the slot just taken left room for itself
    have hlt := b.freeList.length_contents_lt
    rw [hcons, List.length_cons] at hlt
    obtain ⟨hfull, _⟩ | ⟨_, _, hpush⟩ := freeList.push_eq slot
    · omega
    · exact hpush
  · rfl

/-- With nothing on the opposite ladder, the matching loop ends at once. -/
theorem matching_of_empty (side : Side) (h : b.ladder side.opposite = ⟨[]⟩) (priceTicks : Int64)
    (quantity : UInt32) :
    b.matching 1 side priceTicks quantity = some ⟨quantity, ⟨[]⟩, []⟩ := by
  have hstep : matchStep (Taker.of side) priceTicks ⟨quantity, ⟨[]⟩, []⟩ = none := by
    cases side <;> simp [matchStep, Taker.of, Taker.buy, Taker.sell, FlatPriceLadder.worst,
      FlatPriceLadder.best]
  rw [matching, h]
  exact loop_exit hstep 0

/-- An order that finds a slot and whose matching loop ends is placed. -/
theorem addOrder_of_matching {side : Side} {priceTicks : Int64} {quantity : UInt32}
    {type : OrderType} (htype : type ≠ .cancel) {slot : UInt32} {rest : List UInt32}
    (hfree : b.freeList.contents = slot :: rest) {fuel : Nat} {s : MatchLoop}
    (hs : b.matching fuel side priceTicks quantity = some s) :
    ∃ b' freeList,
      b.addOrder fuel side priceTicks quantity type = some (b.nextOrderId, s.fills, b') ∧
      Placed b side priceTicks slot freeList s b' ∧
      b'.freeList.contents = if s.quantity = 0 then rest ++ [slot] else rest := by
  obtain ⟨freeList, hpop, _⟩ := SpscQueue.pop_of_contents hfree
  obtain ⟨hnone, _⟩ | ⟨s', b', hs', hadd, hp⟩ :=
    addOrder_placed side priceTicks quantity htype hpop fuel
  · rw [hs] at hnone
    cases hnone
  · rw [hs] at hs'
    cases hs'
    obtain ⟨rest', hcons, hcont⟩ := placed_contents hpop hp
    rw [hfree] at hcons
    injection hcons with _ hrest
    subst hrest
    exact ⟨b', _, hadd, hp, hcont⟩

end OrderBook

/-- A run cut at a call: the run before it, and the call. -/
theorem Run.split {n : PoolSize} {later earlier : List (Event n)} {e : Event n}
    {b : OrderBook n} (hrun : Run (later ++ e :: earlier) b) :
    Run earlier e.before ∧ ∃ fuel, e.before.exec fuel e.call = some (e.reply, e.after) := by
  induction later generalizing b with
  | nil =>
    cases hrun with
    | call hrun hexec => exact ⟨hrun, _, hexec⟩
  | cons e' later ih =>
    cases hrun with
    | call hrun _ => exact ih hrun

/-- A run continues with any order that finds a slot and whose matching loop
ends. -/
theorem Run.place {n : PoolSize} {h : List (Event n)} {b : OrderBook n} (hrun : Run h b)
    {side : Side} {priceTicks : Int64} {quantity : UInt32} {type : OrderType}
    (htype : type ≠ .cancel) {slot : UInt32} {rest : List UInt32}
    (hfree : b.freeList.contents = slot :: rest) {fuel : Nat} {s : MatchLoop}
    (hs : b.matching fuel side priceTicks quantity = some s) :
    ∃ b' freeList,
      Run (⟨b, .add side priceTicks quantity type, .added b.nextOrderId s.fills, b'⟩ :: h) b' ∧
      OrderBook.Placed b side priceTicks slot freeList s b' ∧
      b'.freeList.contents = if s.quantity = 0 then rest ++ [slot] else rest := by
  obtain ⟨b', freeList, hadd, hp, hcont⟩ := OrderBook.addOrder_of_matching htype hfree hs
  have hexec : b.exec fuel (.add side priceTicks quantity type) =
      some (.added b.nextOrderId s.fills, b') := by
    simp only [OrderBook.exec, hadd, Option.map_some]
  exact ⟨b', freeList, hrun.call hexec, hp, hcont⟩

end HftEngine
