import HftEngine.OrderBook.Greedy
import HftEngine.OrderBook.Passive

/-!
# Market orders

`add_order` tells a `Cancel` from the other types and nothing else: a `Market`
order is matched up to the price it was given and what is left of it rests at
that price, like a `Limit` order.  It therefore only takes as long as the
levels up to that price cover it (`market_order_takes_iff`).
-/

namespace HftEngine

variable {n : PoolSize} {h : List (Event n)} {b : OrderBook n}

theorem OrderType.market_ne_cancel : OrderType.market ≠ .cancel := nofun

/-- **When a market order only takes.** In every book a run can reach whose
opposite ladder has totals below `2^32`, an accepted `Market` order is filled
as far as the whole opposite ladder goes, leaves its own side as it was and
gives its slot back, exactly if the levels within its price cover it. -/
theorem market_order_takes_iff (hrun : Run h b) (side : Side) (priceTicks : Int64)
    (quantity : UInt32) (hsmall : (b.ladder side.opposite).Small)
    (hfree : b.freeList.contents ≠ []) :
    (∃ fuel orderId fills b',
      b.addOrder fuel side priceTicks quantity .market = some (orderId, fills, b') ∧
      filledQty fills = min quantity.toNat (b.ladder side.opposite).totalQty ∧
      b'.ladder side = b.ladder side ∧
      b'.freeList.contents.length = b.freeList.contents.length) ↔
    quantity.toNat ≤
      (b.ladder side.opposite).qtyWhere fun p => !(Taker.of side).beyond p priceTicks := by
  have hsorted := (wf_run hrun).sorted
  obtain ⟨slot, free, hcont⟩ := List.exists_cons_of_ne_nil hfree
  obtain ⟨fuel₀, s, b', hadd, hs, hg, _, hown, hcont'⟩ := addOrder_greedy side priceTicks quantity
    OrderType.market_ne_cancel (hsorted _) hsmall hcont
  have hm := matching_matched (hsorted _) hs
  have hquantity := hm.quantity
  have hfilled := hm.filled_eq_min hg.within
  have hwhole := FlatPriceLadder.qtyWhere_le_totalQty
    (fun p => !(Taker.of side).beyond p priceTicks) (b.ladder side.opposite)
  constructor
  · rintro ⟨fuel, orderId, fills, b₁, hcall, _, _, hslots⟩
    cases OrderBook.addOrder_unique hcall (hadd fuel₀ le_rfl)
    by_cases hzero : s.quantity = 0
    · rw [hzero, UInt32.toNat_zero] at hquantity
      omega
    · -- the slot of an order that rests is not given back
      rw [hcont', if_neg hzero, hcont, List.length_cons] at hslots
      omega
  · intro hcover
    have hzero : s.quantity = 0 := UInt32.toNat_inj.mp (by rw [UInt32.toNat_zero]; omega)
    refine ⟨fuel₀, _, _, b', hadd fuel₀ le_rfl, by omega, ?_, ?_⟩
    · rw [hown]
      exact if_pos hzero
    · rw [hcont', if_pos hzero, hcont, List.length_append]
      rfl

/-- A market buyer of 60 at the price of an ask of 100. -/
theorem market_order_takes_one_ask :
    ∃ fuel orderId fills b',
      oneAsk.2.addOrder fuel .buy 10100 60 .market = some (orderId, fills, b') ∧
      filledQty fills = min 60 (oneAsk.2.ladder .sell).totalQty ∧
      b'.ladder .buy = oneAsk.2.ladder .buy ∧
      b'.freeList.contents.length = oneAsk.2.freeList.contents.length := by
  have hrun : Run oneAsk.1 oneAsk.2 := run_played _
  have hasks : oneAsk.2.ladder Side.buy.opposite = ⟨[⟨10100, 100, 1⟩]⟩ := rfl
  have hsmall : (oneAsk.2.ladder Side.buy.opposite).Small := by
    rw [hasks]
    intro x hx
    rw [List.mem_singleton.mp hx]
    decide
  refine (market_order_takes_iff hrun .buy 10100 60 hsmall (by decide)).mpr ?_
  rw [hasks]
  decide

/-- A market buyer of 50 who names a price below the only ask trades nothing
and is left in the book as a bid. -/
theorem market_order_rests :
    ∃ (h : List (Event .default)) (b : OrderBook .default), Run h b ∧
      h.map (·.call) = [.add .sell 10100 100 .limit] ∧ (b.ladder .sell).Small ∧
      ∃ fuel b', b.addOrder fuel .buy 10000 50 .market = some (b.nextOrderId, [], b') ∧
        (b.ladder .sell).totalQty = 100 ∧ (b.ladder .buy).levels = [] ∧
        (b'.ladder .buy).levels = [⟨10000, 50, 1⟩] := by
  obtain ⟨b, _, hrun, hp, hlen, _, _⟩ :=
    Run.first_ask .default (by decide) 10100 (q := 100) (by decide)
  have hasks : b.ladder .sell = ⟨[⟨10100, 100, 1⟩]⟩ := hp.own
  have hbids : b.ladder .buy = ⟨[]⟩ := hp.opposite
  obtain ⟨slot, rest, hfree⟩ := List.exists_cons_of_length_pos
    (l := b.freeList.contents) (by rw [hlen]; decide)
  have hpassive : b.matching 1 .buy 10000 50 = some ⟨50, ⟨[⟨10100, 100, 1⟩]⟩, []⟩ :=
    matching_of_beyond_only hasks rfl 50 0
  obtain ⟨b', _, hadd, hp', _⟩ :=
    OrderBook.addOrder_of_matching OrderType.market_ne_cancel hfree hpassive
  refine ⟨_, b, hrun, rfl, ?_, 1, b', hadd, ?_, ?_, ?_⟩
  · rw [hasks]
    intro x hx
    rw [List.mem_singleton.mp hx]
    decide
  · rw [hasks]
    rfl
  · rw [hbids]
  · have hown : b'.ladder .buy = (b.ladder .buy).upsert 10000 50 := hp'.own
    rw [hown, hbids]
    rfl

end HftEngine
