import HftEngine.OrderBook.Sweep

/-!
# Invariants of every run

`Wf` — both ladders ascend, and every bid is below every ask — holds of a
fresh book and is kept by every call that returns, however totals wrap.
From it: the book is never crossed (`never_crossed`).

That no level is empty is a matter of the totals' range.  One call brings in
fewer than `2^32` units, so the totals of a side stay below `2^64` for the
first `2^32` calls (`totalQty_run`), and up to there every level holds
something (`ladders_ascend_nonempty`).
-/

namespace HftEngine

open Lib

variable {n : PoolSize}

/-- The ladder invariant: strictly ascending prices, bids below asks. -/
structure Wf (b : OrderBook n) : Prop where
  sorted : ∀ side, (b.ladder side).Sorted
  uncrossed : ∀ x ∈ b.bids.levels, ∀ y ∈ b.asks.levels, x.priceTicks < y.priceTicks

/-- Uncrossed, said from either side: what rests on the opposite ladder is
beyond the price of what rests on this one. -/
theorem uncrossed_iff (b : OrderBook n) (side : Side) :
    (∀ x ∈ b.bids.levels, ∀ y ∈ b.asks.levels, x.priceTicks < y.priceTicks) ↔
      ∀ x ∈ (b.ladder side).levels, ∀ y ∈ (b.ladder side.opposite).levels,
        (Taker.of side).beyond y.priceTicks x.priceTicks = true := by
  cases side with
  | buy =>
    constructor
    · intro h x hx y hy
      exact decide_eq_true (h x hx y hy)
    · intro h x hx y hy
      exact of_decide_eq_true (h x hx y hy)
  | sell =>
    constructor
    · intro h x hx y hy
      exact decide_eq_true (h y hy x hx)
    · intro h x hx y hy
      exact of_decide_eq_true (h y hy x hx)

theorem ladder_new (symbolId : UInt32) (side : Side) :
    (OrderBook.new n symbolId).ladder side = ⟨[]⟩ := by
  cases side <;> rfl

theorem wf_new (symbolId : UInt32) : Wf (OrderBook.new n symbolId) := by
  refine ⟨?_, ?_⟩
  · intro side
    rw [ladder_new]
    exact List.Pairwise.nil
  · intro x hx
    exact absurd hx (by simp [OrderBook.new])

/-- The two sides of a side. -/
theorem Side.eq_or_opposite (side side' : Side) : side' = side ∨ side' = side.opposite := by
  cases side <;> cases side' <;> simp [Side.opposite]

/-- `Wf` from the two ladders of a side and its opposite. -/
theorem wf_of_sides {b : OrderBook n} (side : Side) (hown : (b.ladder side).Sorted)
    (hopp : (b.ladder side.opposite).Sorted)
    (hcross : ∀ x ∈ (b.ladder side).levels, ∀ y ∈ (b.ladder side.opposite).levels,
      (Taker.of side).beyond y.priceTicks x.priceTicks = true) : Wf b := by
  refine ⟨?_, (uncrossed_iff b side).mpr hcross⟩
  intro side'
  rcases Side.eq_or_opposite side side' with rfl | rfl
  · exact hown
  · exact hopp

/-- A level that joins a ladder at a price the other ladder is beyond leaves
the two apart. -/
theorem beyond_upsert {side : Side} {l l' : FlatPriceLadder} (hl : l.Sorted) {p : Int64}
    {q : UInt32} (hcross : ∀ x ∈ l.levels, ∀ y ∈ l'.levels,
      (Taker.of side).beyond y.priceTicks x.priceTicks = true)
    (hbeyond : ∀ y ∈ l'.levels, (Taker.of side).beyond y.priceTicks p = true) :
    ∀ x ∈ (l.upsert p q).levels, ∀ y ∈ l'.levels,
      (Taker.of side).beyond y.priceTicks x.priceTicks = true := by
  intro x hx y hy
  rcases FlatPriceLadder.price_of_mem_upsert hl hx with hxp | ⟨z, hz, hzx⟩
  · rw [hxp]
    exact hbeyond y hy
  · rw [← hzx]
    exact hcross z hz y hy

/-- Placing an order keeps the invariant: what is left of it rests only where
nothing on the opposite ladder is within its limit. -/
theorem wf_placed {b b' : OrderBook n} {side : Side} {p : Int64} {q : UInt32} {slot : UInt32}
    {freeList : SpscQueue UInt32 n.log2} {s : MatchLoop} (hwf : Wf b)
    (hm : Matched side p q (b.ladder side.opposite) s)
    (hp : OrderBook.Placed b side p slot freeList s b') : Wf b' := by
  have hold := (uncrossed_iff b side).mp hwf.uncrossed
  have hown := hwf.sorted side
  -- matching only takes levels away, so the old levels stay apart
  have hcross : ∀ x ∈ (b.ladder side).levels, ∀ y ∈ s.ladder.levels,
      (Taker.of side).beyond y.priceTicks x.priceTicks = true := by
    intro x hx y hy
    obtain ⟨z, hz, hzy⟩ := hm.prices y hy
    rw [← hzy]
    exact hold x hx z hz
  by_cases hzero : s.quantity = 0
  · have hsame : b'.ladder side = b.ladder side := by rw [hp.own, if_pos hzero]
    refine wf_of_sides side ?_ ?_ ?_
    · rw [hsame]; exact hown
    · rw [hp.opposite]; exact hm.sorted
    · rw [hsame, hp.opposite]; exact hcross
  · have hups : b'.ladder side = (b.ladder side).upsert p s.quantity := by
      rw [hp.own, if_neg hzero]
    refine wf_of_sides side ?_ ?_ ?_
    · rw [hups]; exact FlatPriceLadder.sorted_upsert hown p s.quantity
    · rw [hp.opposite]; exact hm.sorted
    · -- the loop stopped because the other side is beyond the new price
      rw [hups, hp.opposite]
      exact beyond_upsert hown hcross (hm.exit hzero)

/-- Every call that returns keeps the invariant. -/
theorem wf_outcome {b b' : OrderBook n} {fuel : Nat} {c : Call} {r : Reply} (hwf : Wf b)
    (ho : OrderBook.Outcome fuel b c r b') : Wf b' := by
  cases ho with
  | idle _ _ hsame =>
    refine ⟨fun side => by rw [hsame.ladder]; exact hwf.sorted side, ?_⟩
    have hbids : b'.bids = b.bids := hsame.ladder .buy
    have hasks : b'.asks = b.asks := hsame.ladder .sell
    rw [hbids, hasks]
    exact hwf.uncrossed
  | @released _ _ _ _ slot _ _ hrel =>
    have hown := hwf.sorted (b.orderPool slot.toNat).side
    refine wf_of_sides (b.orderPool slot.toNat).side ?_ ?_ ?_
    · rw [hrel.own]
      exact FlatPriceLadder.sorted_removeIfEmpty hown _
    · rw [hrel.opposite]
      exact hwf.sorted _
    · rw [hrel.own, hrel.opposite]
      intro x hx
      exact (uncrossed_iff b _).mp hwf.uncrossed x
        (FlatPriceLadder.mem_of_mem_removeIfEmpty hown hx)
  | refused _ _ => exact ⟨hwf.sorted, hwf.uncrossed⟩
  | placed _ _ hs hp => exact wf_placed hwf (matching_matched (hwf.sorted _) hs) hp

/-- The invariant holds after every run. -/
theorem wf_run {h : List (Event n)} {b : OrderBook n} (hrun : Run h b) : Wf b := by
  induction hrun with
  | new symbolId => exact wf_new symbolId
  | call _ hexec ih => exact wf_outcome ih (OrderBook.exec_outcome hexec)

/-- **The book is never crossed.** After any calls on a fresh book that all
returned, the best bid, if there is one, is below the best ask, if there is
one. -/
theorem never_crossed {h : List (Event n)} {b : OrderBook n} (hrun : Run h b)
    {bid ask : PriceLevel} (hbid : b.bestBid = some bid) (hask : b.bestAsk = some ask) :
    bid.priceTicks < ask.priceTicks := by
  have hmemBid : bid ∈ b.bids.levels := List.mem_of_getLast? hbid
  have hmemAsk : ask ∈ b.asks.levels := List.mem_of_head? hask
  exact (wf_run hrun).uncrossed bid hmemBid ask hmemAsk

/-- A bid swept by a larger sell order, what is left of which meets a lower
bid and rests above it. -/
def sweptBids : List (Event .four) × OrderBook .four :=
  played 3 1 [.add .buy 10000 40 .limit, .add .buy 9900 30 .limit, .add .sell 9950 100 .limit]
    (by decide)

theorem never_crossed_swept_bids :
    sweptBids.2.bestBid = some ⟨9900, 30, 1⟩ ∧ sweptBids.2.bestAsk = some ⟨9950, 60, 1⟩ ∧
      (9900 : Int64) < 9950 := by
  have hrun : Run sweptBids.1 sweptBids.2 := run_played _
  have hbid : sweptBids.2.bestBid = some ⟨9900, 30, 1⟩ := by decide
  have hask : sweptBids.2.bestAsk = some ⟨9950, 60, 1⟩ := by decide
  have hlt := never_crossed hrun hbid hask
  exact ⟨hbid, hask, hlt⟩

/-! ## The range of the totals -/

/-- No call brings in more than `2^32 - 1` units. -/
theorem totalQty_outcome {b b' : OrderBook n} {fuel : Nat} {c : Call} {r : Reply} (hwf : Wf b)
    (ho : OrderBook.Outcome fuel b c r b') (side : Side) :
    (b'.ladder side).totalQty ≤ (b.ladder side).totalQty + (2 ^ 32 - 1) := by
  cases ho with
  | idle _ _ hsame => rw [hsame.ladder]; omega
  | @released _ _ _ _ slot _ _ hrel =>
    rcases Side.eq_or_opposite (b.orderPool slot.toNat).side side with rfl | rfl
    · rw [hrel.own, FlatPriceLadder.totalQty_eq, FlatPriceLadder.totalQty_eq,
        FlatPriceLadder.qtyWhere_removeIfEmpty (hwf.sorted _)]
      omega
    · rw [hrel.opposite]; omega
  | refused _ _ => exact Nat.le_add_right _ _
  | @placed side' p q _ slot freeList s _ _ _ hs hp =>
    have hm := matching_matched (hwf.sorted _) hs
    rcases Side.eq_or_opposite side' side with rfl | rfl
    · rw [hp.own]
      split
      · omega
      · have hle := FlatPriceLadder.totalQty_upsert_le (hwf.sorted side) p s.quantity
        have hlt := UInt32.toNat_lt s.quantity
        omega
    · rw [hp.opposite]
      have hk := hm.levels fun _ => true
      rw [← FlatPriceLadder.totalQty_eq, ← FlatPriceLadder.totalQty_eq] at hk
      omega

theorem totalQty_run {h : List (Event n)} {b : OrderBook n} (hrun : Run h b) (side : Side) :
    (b.ladder side).totalQty ≤ h.length * (2 ^ 32 - 1) := by
  induction hrun with
  | new symbolId => rw [ladder_new]; simp [FlatPriceLadder.totalQty]
  | @call h b b' c r fuel hrun hexec ih =>
    have hstep := totalQty_outcome (wf_run hrun) (OrderBook.exec_outcome hexec) side
    rw [List.length_cons, Nat.succ_mul]
    omega

/-- Up to call number `2^32 - 1`, there is room for one more order. -/
theorem totalQty_run_lt {h : List (Event n)} {b : OrderBook n} (hrun : Run h b)
    (hlen : h.length + 1 < 2 ^ 32) (side : Side) :
    (b.ladder side).totalQty + (2 ^ 32 - 1) < 2 ^ 64 := by
  have hle := totalQty_run hrun side
  have hmul : h.length * (2 ^ 32 - 1) ≤ (2 ^ 32 - 2) * (2 ^ 32 - 1) :=
    Nat.mul_le_mul_right _ (by omega)
  omega

/-- A call leaves no empty level, if it found none and no total can wrap. -/
theorem positive_outcome {b b' : OrderBook n} {fuel : Nat} {c : Call} {r : Reply} (hwf : Wf b)
    (hbound : ∀ side, (b.ladder side).totalQty + (2 ^ 32 - 1) < 2 ^ 64)
    (hpos : ∀ side, ∀ x ∈ (b.ladder side).levels, x.totalQuantity ≠ 0)
    (ho : OrderBook.Outcome fuel b c r b') (side : Side) :
    ∀ x ∈ (b'.ladder side).levels, x.totalQuantity ≠ 0 := by
  cases ho with
  | idle _ _ hsame => rw [hsame.ladder]; exact hpos side
  | @released _ _ _ _ slot _ _ hrel =>
    rcases Side.eq_or_opposite (b.orderPool slot.toNat).side side with rfl | rfl
    · rw [hrel.own]
      intro x hx
      exact hpos _ x (FlatPriceLadder.mem_of_mem_removeIfEmpty (hwf.sorted _) hx)
    · rw [hrel.opposite]
      exact hpos _
  | refused _ _ => exact hpos side
  | @placed side' p q _ slot freeList s _ _ _ hs hp =>
    have hm := matching_matched (hwf.sorted _) hs
    rcases Side.eq_or_opposite side' side with rfl | rfl
    · rw [hp.own]
      by_cases hzero : s.quantity = 0
      · rw [if_pos hzero]
        exact hpos side
      · rw [if_neg hzero]
        have hb := hbound side
        have hlt := UInt32.toNat_lt s.quantity
        have hle : (b.ladder side).qtyAt p ≤ (b.ladder side).totalQty :=
          FlatPriceLadder.qtyWhere_le_totalQty _ _
        exact FlatPriceLadder.positive_upsert (hwf.sorted side) hzero (by omega) (hpos side)
    · rw [hp.opposite]
      exact hm.positive (hpos _)

theorem positive_run {h : List (Event n)} {b : OrderBook n} (hrun : Run h b)
    (hlen : h.length < 2 ^ 32) (side : Side) :
    ∀ x ∈ (b.ladder side).levels, x.totalQuantity ≠ 0 := by
  induction hrun generalizing side with
  | new symbolId => rw [ladder_new]; simp
  | @call h b b' c r fuel hrun hexec ih =>
    rw [List.length_cons] at hlen
    exact positive_outcome (wf_run hrun) (totalQty_run_lt hrun hlen)
      (fun side' => ih (by omega) side') (OrderBook.exec_outcome hexec) side

/-- **The ladders keep their representation.** After fewer than `2^32` calls,
both ladders ascend strictly in price and hold no empty level. -/
theorem ladders_ascend_nonempty {h : List (Event n)} {b : OrderBook n} (hrun : Run h b)
    (hlen : h.length < 2 ^ 32) :
    (b.bids.levels.Pairwise (fun x y => x.priceTicks < y.priceTicks) ∧
      ∀ x ∈ b.bids.levels, 0 < x.totalQuantity) ∧
    (b.asks.levels.Pairwise (fun x y => x.priceTicks < y.priceTicks) ∧
      ∀ x ∈ b.asks.levels, 0 < x.totalQuantity) := by
  have hwf := wf_run hrun
  have hpos : ∀ side, ∀ x ∈ (b.ladder side).levels, 0 < x.totalQuantity := by
    intro side x hx
    exact UInt64.pos_iff_ne_zero.mpr (positive_run hrun hlen side x hx)
  exact ⟨⟨hwf.sorted .buy, hpos .buy⟩, ⟨hwf.sorted .sell, hpos .sell⟩⟩

theorem ladders_ascend_nonempty_swept_bids :
    sweptBids.1.length < 2 ^ 32 ∧
      (sweptBids.2.bids.levels.Pairwise (fun x y => x.priceTicks < y.priceTicks) ∧
        ∀ x ∈ sweptBids.2.bids.levels, 0 < x.totalQuantity) ∧
      (sweptBids.2.asks.levels.Pairwise (fun x y => x.priceTicks < y.priceTicks) ∧
        ∀ x ∈ sweptBids.2.asks.levels, 0 < x.totalQuantity) := by
  have hrun : Run sweptBids.1 sweptBids.2 := run_played _
  have hlen : sweptBids.1.length < 2 ^ 32 := by decide
  exact ⟨hlen, ladders_ascend_nonempty hrun hlen⟩

end HftEngine
