import HftEngine.OrderBook.Greedy
import HftEngine.OrderBook.Slots

/-!
# Price priority of limit orders

`limit_order_greedy_iff` says when `add_order` executes a `Limit` order by price
priority and lets exactly the rest of it join its own side.  It can fail only
because a total of 64 bits has wrapped.

That a total wraps takes no more than time: a cancel gives the slot of an order
back to the pool but leaves its quantity in the level (`Run.ask_cancelled`), so
a little over `2^32` asks bring a level to `2^64`, which is 0 (`wrapped_ask`).
-/

namespace HftEngine

open Lib

section AddOrder

variable {n : PoolSize} {h : List (Event n)} {b : OrderBook n}

/-- A loop that ends reports no match of 0 exactly on a clear path. -/
theorem matching_positive_iff {side : Side} {priceTicks : Int64} {quantity : UInt32} {fuel : Nat}
    {s : MatchLoop} (hsorted : (b.ladder side.opposite).Sorted)
    (hs : b.matching fuel side priceTicks quantity = some s) :
    AllPositive s.fills ↔ ClearPath (fun p => (Taker.of side).beyond p priceTicks) quantity.toNat
      (side.queue (b.ladder side.opposite)) := by
  rw [← matching_progress_iff side priceTicks quantity hsorted]
  constructor
  · exact fun hpos => ⟨fuel, s, hs, hpos⟩
  · rintro ⟨fuel', s', hs', hpos⟩
    rw [loop_unique hs hs']
    exact hpos

/-- **Matching is greedy, unless a total has wrapped.** In every book a run
can reach whose opposite ladder has totals below `2^32`, an accepted `Limit`
order is executed by price priority and exactly what is left of it joins its
own side at its price, if and only if no level of total 0 is in its reach and
the total which it joins stays below `2^64`. -/
theorem limit_order_greedy_iff (hrun : Run h b) (side : Side) (priceTicks : Int64)
    (quantity : UInt32) (hsmall : (b.ladder side.opposite).Small)
    (hfree : b.freeList.contents ≠ []) :
    (∃ fuel orderId fills b',
      b.addOrder fuel side priceTicks quantity .limit = some (orderId, fills, b') ∧
      GreedyMatch side priceTicks quantity.toNat (b.ladder side.opposite)
        (b'.ladder side.opposite) fills ∧
      Rested priceTicks (quantity.toNat - filledQty fills) (b.ladder side) (b'.ladder side)) ↔
    ClearPath (fun p => (Taker.of side).beyond p priceTicks) quantity.toNat
        (side.queue (b.ladder side.opposite)) ∧
      (b.ladder side).qtyAt priceTicks + (quantity.toNat -
        (b.ladder side.opposite).qtyWhere fun p => !(Taker.of side).beyond p priceTicks) <
          2 ^ 64 := by
  have hsorted := (wf_run hrun).sorted
  obtain ⟨slot, free, hcont⟩ := List.exists_cons_of_ne_nil hfree
  obtain ⟨fuel₀, s, b', hadd, hs, hg, hopp, hown, _⟩ := addOrder_greedy side priceTicks quantity
    OrderType.limit_ne_cancel (hsorted _) hsmall hcont
  have hm := matching_matched (hsorted _) hs
  have hleft : quantity.toNat - filledQty s.fills = s.quantity.toNat := by
    have hquantity := hm.quantity
    omega
  have hrest : quantity.toNat - (b.ladder side.opposite).qtyWhere
      (fun p => !(Taker.of side).beyond p priceTicks) = s.quantity.toNat := by
    have hfilled := hm.filled_eq_min hg.within
    omega
  have hmatch : GreedyMatch side priceTicks quantity.toNat (b.ladder side.opposite)
      (b'.ladder side.opposite) s.fills ↔
      ClearPath (fun p => (Taker.of side).beyond p priceTicks) quantity.toNat
        (side.queue (b.ladder side.opposite)) := by
    rw [hopp, greedyMatch_iff (hsorted _) hm hg]
    exact matching_positive_iff (hsorted _) hs
  have hjoin : Rested priceTicks (quantity.toNat - filledQty s.fills) (b.ladder side)
      (b'.ladder side) ↔ (b.ladder side).qtyAt priceTicks + s.quantity.toNat < 2 ^ 64 := by
    rw [hleft, hown]
    exact FlatPriceLadder.rested_rest_iff (hsorted _) _ _
  rw [hrest, ← hmatch, ← hjoin]
  constructor
  · rintro ⟨fuel, orderId, fills, b₁, hcall, hconclusion⟩
    cases OrderBook.addOrder_unique hcall (hadd fuel₀ le_rfl)
    exact hconclusion
  · intro hconclusion
    exact ⟨fuel₀, _, _, b', hadd fuel₀ le_rfl, hconclusion⟩

theorem replay_two_bids : (replay 1 [.add .buy 10000 100 .limit, .add .buy 9500 100 .limit]
    (([] : List (Event .four)), OrderBook.new .four 1)).isSome = true := by
  decide

/-- Bids of 100 at 10000 and at 9500. -/
def twoBids : List (Event .four) × OrderBook .four :=
  played 1 1 [.add .buy 10000 100 .limit, .add .buy 9500 100 .limit] replay_two_bids

/-- A seller of 150 takes the better bid whole and half of the other. -/
theorem limit_order_greedy_two_bids :
    ∃ fuel orderId fills b',
      twoBids.2.addOrder fuel .sell 8500 150 .limit = some (orderId, fills, b') ∧
      GreedyMatch .sell 8500 150 (twoBids.2.ladder .buy) (b'.ladder .buy) fills ∧
      Rested 8500 (150 - filledQty fills) (twoBids.2.ladder .sell) (b'.ladder .sell) := by
  have hrun : Run twoBids.1 twoBids.2 := run_played _
  have hbids : twoBids.2.ladder Side.sell.opposite = ⟨[⟨9500, 100, 1⟩, ⟨10000, 100, 1⟩]⟩ := rfl
  have hasks : twoBids.2.ladder .sell = ⟨[]⟩ := rfl
  have hlevels : ∀ x ∈ (twoBids.2.ladder Side.sell.opposite).levels,
      x.totalQuantity ≠ 0 ∧ x.totalQuantity.toNat < 2 ^ 32 := by
    rw [hbids]
    decide
  have hbound : (twoBids.2.ladder .sell).qtyAt 8500 + ((150 : UInt32).toNat -
      (twoBids.2.ladder Side.sell.opposite).qtyWhere
        fun p => !(Taker.of .sell).beyond p 8500) < 2 ^ 64 := by
    rw [hbids, hasks]
    decide
  exact (limit_order_greedy_iff hrun .sell 8500 150 (fun x hx => (hlevels x hx).2) (by decide)).mpr
    ⟨clearPath_of_small _ fun x hx => hlevels x (mem_queue.mp hx), hbound⟩

/-! ## A total that wraps -/

/-- An ask that meets no bid, placed and cancelled: its quantity stays in the
level, its slot goes back to the pool. -/
theorem Run.ask_cancelled (hrun : Run h b) (hbids : b.ladder .buy = ⟨[]⟩) {slot : UInt32}
    {rest : List UInt32} (hfree : b.freeList.contents = slot :: rest) (p : Int64) {q : UInt32}
    (hq : q ≠ 0) (hkept : ∀ x ∈ ((b.ladder .sell).upsert p q).levels, x.totalQuantity ≠ 0) :
    ∃ (h' : List (Event n)) (b' : OrderBook n), Run h' b' ∧ b'.ladder .buy = ⟨[]⟩ ∧
      b'.ladder .sell = (b.ladder .sell).upsert p q ∧ b'.freeList.contents = rest ++ [slot] := by
  obtain ⟨b₁, _, hrun₁, hp₁, hcont₁⟩ := hrun.place OrderType.limit_ne_cancel hfree
    (OrderBook.matching_of_empty .sell hbids p q)
  have hasks₁ : b₁.ladder .sell = (b.ladder .sell).upsert p q := hp₁.own.trans (if_neg hq)
  have hcont₁ : b₁.freeList.contents = rest := hcont₁.trans (if_neg hq)
  have hslot : slot.toNat < n.maxOrders - 1 :=
    (slotsValid_run hrun).free slot (by rw [hfree]; exact List.mem_cons_self)
  have hcancel := OrderBook.cancelSlot_placed hp₁ (by omega)
  have hexec : b₁.exec 0 (.cancel b.nextOrderId) = some (.cancelled true, b₁.release slot) := by
    simp only [OrderBook.exec, OrderBook.cancelOrder_eq, hcancel]
  have hrel := OrderBook.release_spec b₁ slot
  obtain ⟨_, hprice, hside⟩ := hp₁.ordered
  have hown := hrel.own
  have hopp := hrel.opposite
  rw [hside, hprice] at hown
  rw [hside] at hopp
  refine ⟨_, b₁.release slot, hrun₁.call hexec, hopp.trans hp₁.opposite, ?_, ?_⟩
  · rw [hown]
    obtain ⟨lo, x, hi, hl, _, hzero, _⟩ | ⟨_, hsame⟩ :=
      FlatPriceLadder.removeIfEmpty_cases ((wf_run hrun₁).sorted .sell) p
    · rw [hasks₁] at hl
      exact absurd hzero (hkept x (by rw [hl]; simp))
    · rw [hsame, hasks₁]
  · -- the slot just taken leaves room in the ring
    have hlen := b.freeList.length_contents_lt
    rw [hfree, List.length_cons] at hlen
    rw [hrel.freeList]
    obtain ⟨hfull, _⟩ | ⟨_, _, hpush⟩ := b₁.freeList.push_eq slot
    · rw [hcont₁] at hfull
      omega
    · rw [hpush, hcont₁]

/-- One more order at the price of a ladder's only level. -/
theorem upsert_only (p : Int64) (t : UInt64) (c : UInt32) (q : UInt32) :
    (⟨[⟨p, t, c⟩]⟩ : FlatPriceLadder).upsert p q = ⟨[⟨p, t + q.toUInt64, c + 1⟩]⟩ := by
  have hl : (⟨[⟨p, t, c⟩]⟩ : FlatPriceLadder).levels = [] ++ ⟨p, t, c⟩ :: [] := rfl
  have hlevels := FlatPriceLadder.upsert_found (q := q) hl
    (fun _ hy => absurd hy List.not_mem_nil) rfl
  exact congrArg FlatPriceLadder.mk hlevels

/-- `k + 1` asks of `2^32 - 1` at one price, all but the first cancelled, leave
the level with the total of all of them. -/
theorem cancelled_rounds (k : Nat) (hk : k < 2 ^ 32) :
    ∃ (h : List (Event .default)) (b : OrderBook .default) (c : UInt32), Run h b ∧
      b.ladder .buy = ⟨[]⟩ ∧
      b.ladder .sell = ⟨[⟨100, UInt64.ofNat ((k + 1) * (2 ^ 32 - 1)), c⟩]⟩ ∧
      3 ≤ b.freeList.contents.length := by
  induction k with
  | zero =>
    obtain ⟨b, _, hrun, hp, hlen, _, _⟩ :=
      Run.first_ask .default (by decide) 100 (q := 0xFFFFFFFF) (by decide)
    refine ⟨_, b, 1, hrun, hp.opposite, hp.own, ?_⟩
    rw [hlen]
    decide
  | succ k ih =>
    obtain ⟨h, b, c, hrun, hbids, hasks, hlen⟩ := ih (by omega)
    obtain ⟨slot, rest, hfree⟩ := List.exists_cons_of_length_pos
      (l := b.freeList.contents) (by omega)
    have hsum : (k + 1) * (2 ^ 32 - 1) + (2 ^ 32 - 1) = (k + 1 + 1) * (2 ^ 32 - 1) := by omega
    have hadd : UInt64.ofNat ((k + 1) * (2 ^ 32 - 1)) + (0xFFFFFFFF : UInt32).toUInt64 =
        UInt64.ofNat ((k + 1 + 1) * (2 ^ 32 - 1)) := by
      rw [show (0xFFFFFFFF : UInt32).toUInt64 = UInt64.ofNat (2 ^ 32 - 1) from rfl,
        ← UInt64.ofNat_add, hsum]
    have hjoin : (b.ladder .sell).upsert 100 0xFFFFFFFF =
        ⟨[⟨100, UInt64.ofNat ((k + 1 + 1) * (2 ^ 32 - 1)), c + 1⟩]⟩ := by
      rw [hasks, upsert_only, hadd]
    obtain ⟨h', b', hrun', hbids', hasks', hfree'⟩ :=
      hrun.ask_cancelled hbids hfree 100 (q := 0xFFFFFFFF) (by decide) (by
        rw [hjoin]
        intro x hx hzero
        rw [List.mem_singleton.mp hx] at hzero
        have hnat := congrArg UInt64.toNat hzero
        rw [UInt64.toNat_ofNat_of_lt' (by rw [UInt64.size]; omega), UInt64.toNat_zero] at hnat
        omega)
    refine ⟨h', b', c + 1, hrun', hbids', hasks'.trans hjoin, ?_⟩
    rw [hfree', List.length_append, List.length_singleton]
    rw [hfree, List.length_cons] at hlen
    exact hlen

/-- A sweep that meets a single level, of total 0, drops it and reports a match
of 0. -/
theorem sweep_empty_level {beyond : Int64 → Bool} {q : UInt32} {x : PriceLevel}
    (fills : List MatchResult) (hq : q ≠ 0) (hx : beyond x.priceTicks = false)
    (hzero : x.totalQuantity = 0) :
    loop (sweepStep beyond) 2 ⟨q, [x], fills⟩ =
      some ⟨q, [], fills ++ [⟨0, 0, x.priceTicks, 0⟩]⟩ := by
  have hstep := sweepStep_cons [] fills hq hx
  have hgone : (x.fill 0).totalQuantity = 0 := by simp [PriceLevel.fill, hzero]
  rw [fillQty_eq_zero (by rw [hzero]; rfl), if_pos hgone, UInt32.sub_zero] at hstep
  exact (loop_next hstep 1).trans (loop_exit (by simp [sweepStep]) 0)

/-- A little over `2^32` asks bring the total of their level to `2^64`, which
is 0. -/
theorem wrapped_ask :
    ∃ (h : List (Event .default)) (b : OrderBook .default) (c slot : UInt32)
      (free : List UInt32), Run h b ∧ b.ladder .sell = ⟨[⟨100, 0, c⟩]⟩ ∧
      b.freeList.contents = slot :: free := by
  obtain ⟨h, b, c, hrun, hbids, hasks, hlen⟩ := cancelled_rounds (2 ^ 32 - 1) (by decide)
  obtain ⟨slot₀, slot₁, slot₂, free, hcont⟩ : ∃ slot₀ slot₁ slot₂ free,
      b.freeList.contents = slot₀ :: slot₁ :: slot₂ :: free := by
    match b.freeList.contents, hlen with
    | slot₀ :: slot₁ :: slot₂ :: free, _ => exact ⟨slot₀, slot₁, slot₂, free, rfl⟩
  -- one more such ask, and one of a single unit
  obtain ⟨b₁, _, hrun₁, hp₁, hcont₁⟩ := hrun.place OrderType.limit_ne_cancel hcont
    (OrderBook.matching_of_empty .sell hbids 100 0xFFFFFFFF)
  have hasks₁ : b₁.ladder .sell = ⟨[⟨100, 0xFFFFFFFFFFFFFFFF, c + 1⟩]⟩ := by
    have hown : b₁.ladder .sell = (b.ladder .sell).upsert 100 0xFFFFFFFF := hp₁.own
    rw [hown, hasks, upsert_only]
    rfl
  have hbids₁ : b₁.ladder .buy = ⟨[]⟩ := hp₁.opposite
  obtain ⟨b₂, _, hrun₂, hp₂, hcont₂⟩ := hrun₁.place OrderType.limit_ne_cancel hcont₁
    (OrderBook.matching_of_empty .sell hbids₁ 100 1)
  have hasks₂ : b₂.ladder .sell = ⟨[⟨100, 0, c + 1 + 1⟩]⟩ := by
    have hown : b₂.ladder .sell = (b₁.ladder .sell).upsert 100 1 := hp₂.own
    rw [hown, hasks₁, upsert_only]
    rfl
  exact ⟨_, b₂, c + 1 + 1, slot₂, free, hrun₂, hasks₂, hcont₂⟩

/-- A buyer of one unit at the price of that level is reported a match of 0. -/
theorem wrapped_level_not_greedy :
    ∃ (h : List (Event .default)) (b : OrderBook .default), Run h b ∧
      (b.ladder .sell).Small ∧ b.freeList.contents ≠ [] ∧
      (∃ fuel b', b.addOrder fuel .buy 100 1 .limit =
        some (b.nextOrderId, [⟨0, 0, 100, 0⟩], b')) ∧
      ¬ ∃ fuel orderId fills b', b.addOrder fuel .buy 100 1 .limit = some (orderId, fills, b') ∧
        GreedyMatch .buy 100 1 (b.ladder .sell) (b'.ladder .sell) fills ∧
        Rested 100 (1 - filledQty fills) (b.ladder .buy) (b'.ladder .buy) := by
  obtain ⟨h, b, c, slot, free, hrun, hasks, hcont⟩ := wrapped_ask
  have hview := (matching_sweeps b .buy 100 1 ((wf_run hrun).sorted _) 2).1
  rw [show b.ladder Side.buy.opposite = _ from hasks] at hview
  obtain ⟨s, hs, hsweep⟩ := Option.map_eq_some_iff.mp
    (hview.trans (sweep_empty_level [] (by decide) rfl rfl))
  have hfills : s.fills = [⟨0, 0, 100, 0⟩] := congrArg Sweep.fills hsweep
  obtain ⟨b', _, hadd, _⟩ :=
    OrderBook.addOrder_of_matching OrderType.limit_ne_cancel hcont hs
  rw [hfills] at hadd
  refine ⟨h, b, hrun, ?_, by rw [hcont]; simp, ⟨2, b', hadd⟩, ?_⟩
  · rw [hasks]
    intro x hx
    rw [List.mem_singleton.mp hx]
    exact Nat.two_pow_pos 32
  · rintro ⟨fuel, orderId, fills, b₁, hcall, hmatch, _⟩
    cases OrderBook.addOrder_unique hcall hadd
    obtain ⟨_, _, _, _, _, hpos⟩ := hmatch.each 0 _ rfl
    exact absurd hpos (by decide)

end AddOrder

end HftEngine
