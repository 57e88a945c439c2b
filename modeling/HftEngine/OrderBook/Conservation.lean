import HftEngine.OrderBook.Flow
import HftEngine.OrderBook.Greedy

/-!
# Conservation of quantity

For a run of `Limit` orders: what the accepted orders of a side brought in is
what has been traded plus what that side of the book still holds
(`quantity_conserved`).  A trade is counted on both sides, as it takes one
unit from a buyer for each unit it takes from a seller.

* `accepted_outcome` — the step: an accepted order rests or trades with each
  unit it brings; with the balance of the call this is the law for one call;
* `nextOrderId_run` — ids count the calls, so that an id of 0 means a refusal.
-/

namespace HftEngine

open Lib

variable {n : PoolSize}

/-- The quantity a call brought to a side: that of an order accepted there,
the return value of which is not 0. -/
def Event.accepted (side : Side) (e : Event n) : Nat :=
  match e.call, e.reply with
  | .add side' _ quantity _, .added orderId _ =>
    if side' = side ∧ orderId ≠ 0 then quantity.toNat else 0
  | _, _ => 0

/-- The quantity of the accepted orders of a side. -/
def acceptedQty (side : Side) (h : List (Event n)) : Nat := (h.map (Event.accepted side)).sum

/-- The quantity of all match results reported. -/
def tradedQty (h : List (Event n)) : Nat := (h.map fun e => filledQty e.fills).sum

/-- A history of `Limit` orders only. -/
def LimitOnly (h : List (Event n)) : Prop :=
  ∀ e ∈ h, ∃ side priceTicks quantity, e.call = .add side priceTicks quantity .limit

/-- The matching loop of a call takes up `level` when its variables are `s`: the
loop of an order that gets a slot. -/
def Event.Trades (e : Event n) (s : MatchLoop) (level : PriceLevel) : Prop :=
  ∃ side priceTicks quantity type, e.call = .add side priceTicks quantity type ∧
    type ≠ .cancel ∧ e.before.freeList.contents ≠ [] ∧
    Reaches (matchStep (Taker.of side) priceTicks)
      ⟨quantity, e.before.ladder side.opposite, []⟩ s ∧
    (matchStep (Taker.of side) priceTicks s).isSome ∧ (Taker.of side).top s.ladder = some level

/-! ## One call -/

/-- A `Limit` order that is accepted rests or trades with each unit it
brings; what it trades it takes from the opposite side. -/
theorem accepted_outcome {b b' : OrderBook n} {fuel : Nat} {side' : Side} {p : Int64} {q : UInt32}
    {r : Reply} (hwf : Wf b) (hid : b.nextOrderId ≠ 0)
    (hout : OrderBook.Outcome fuel b (.add side' p q .limit) r b') (side : Side) :
    Event.accepted side (⟨b, .add side' p q .limit, r, b'⟩ : Event n) +
        (⟨b, .add side' p q .limit, r, b'⟩ : Event n).tradedWhere (fun _ => true) side =
      (⟨b, .add side' p q .limit, r, b'⟩ : Event n).restedWhere (fun _ => true) side +
        filledQty (⟨b, .add side' p q .limit, r, b'⟩ : Event n).fills := by
  cases hout with
  | idle hcancels => cases hcancels
  | released hcancels => cases hcancels
  | refused _ hfree =>
    simp only [Event.restedWhere, rests_refused hfree]
    simp [Event.accepted, Event.tradedWhere, Event.fills, filledWhere, filledQty]
  | @placed _ _ _ _ slot freeList s _ htype hpop hs hp =>
    have hm := matching_matched (hwf.sorted _) hs
    have hquantity := hm.quantity
    have hrested : (⟨b, .add side' p q .limit, .added b.nextOrderId s.fills, b'⟩ :
        Event n).restedWhere (fun _ => true) side = if side' = side then s.quantity.toNat else 0 := by
      simp only [Event.restedWhere, rests_placed b' b.nextOrderId htype hpop hm]
      by_cases hzero : s.quantity = 0
      · simp [hzero]
      · simp [hzero]
    rw [hrested]
    simp only [Event.accepted, Event.tradedWhere, Event.fills, ← filledQty_eq]
    -- the order's own side takes what rests, the other gives what is traded
    rcases Side.eq_or_opposite side' side with rfl | rfl
    · rw [if_pos ⟨rfl, hid⟩, if_neg (Ne.symm side.opposite_ne), if_pos rfl]
      omega
    · rw [if_neg (fun h => side'.opposite_ne h.1.symm), if_pos side'.opposite_opposite.symm,
        if_neg (Ne.symm side'.opposite_ne)]

/-- A fill is never more than the aggressor still wants, nor more than the
level holds. -/
theorem fillQty_le (quantity : UInt32) (level : PriceLevel) :
    fillQty quantity level ≤ quantity ∧
      (fillQty quantity level).toUInt64 ≤ level.totalQuantity := by
  have hquantity := toNat_sub_fillQty quantity level
  have htotal := toNat_fill_fillQty quantity level
  rw [UInt32.le_iff_toNat_le, UInt64.le_iff_toNat_le, UInt32.toNat_toUInt64]
  omega

/-- What a matching loop has reported stays reported. -/
theorem fills_prefix_loop {t : Taker} {p : Int64} {fuel : Nat} {s r : MatchLoop}
    (h : loop (matchStep t p) fuel s = some r) : s.fills <+: r.fills := by
  have hstep : ∀ s₁ s₂, s.fills <+: s₁.fills → matchStep t p s₁ = some s₂ →
      s.fills <+: s₂.fills := by
    intro s₁ s₂ hs₁ hs₂
    obtain ⟨level, _, rfl⟩ := matchStep_eq_some hs₂
    exact hs₁.trans (List.prefix_append _ _)
  exact (loop_invariant hstep List.prefix_rfl h).1

/-- The match of a level that a loop takes up is among those the call reports. -/
theorem trades_reported {b b' : OrderBook n} {fuel : Nat} {c : Call} {r : Reply}
    (hexec : b.exec fuel c = some (r, b')) {s : MatchLoop} {level : PriceLevel}
    (htrades : (⟨b, c, r, b'⟩ : Event n).Trades s level) :
    ⟨0, 0, level.priceTicks, fillQty s.quantity level⟩ ∈ (⟨b, c, r, b'⟩ : Event n).fills := by
  obtain ⟨side, p, q, type, rfl, htype, hfree, hreaches, hsome, htop⟩ := htrades
  obtain ⟨s', hs'⟩ := Option.isSome_iff_exists.mp hsome
  cases OrderBook.exec_outcome hexec with
  | idle hc => rw [cancels_of_ne htype] at hc; cases hc
  | released hc => rw [cancels_of_ne htype] at hc; cases hc
  | refused _ hnone => exact absurd hnone hfree
  | @placed _ _ _ _ _ _ r _ _ _ hr _ =>
    obtain ⟨fuel', hrest⟩ := loop_reached (hreaches.tail hs') hr
    obtain ⟨level', htop', rfl⟩ := matchStep_eq_some hs'
    cases htop.symm.trans htop'
    exact (fills_prefix_loop hrest).subset (List.mem_append_right _ List.mem_cons_self)

/-- Nothing is reported with a quantity of 0. -/
theorem allPositive_fills {b b' : OrderBook n} {fuel : Nat} {c : Call} {r : Reply} (hwf : Wf b)
    (hpos : ∀ side, ∀ x ∈ (b.ladder side).levels, x.totalQuantity ≠ 0)
    (hexec : b.exec fuel c = some (r, b')) : AllPositive (⟨b, c, r, b'⟩ : Event n).fills := by
  cases OrderBook.exec_outcome hexec with
  | idle hc => rw [fills_of_cancels hexec hc]; exact allPositive_nil
  | released hc => rw [fills_of_cancels hexec hc]; exact allPositive_nil
  | refused => exact allPositive_nil
  | @placed side _ _ _ _ _ _ _ _ _ hs _ =>
    exact (greedy_of_matching (hwf.sorted _) hs).allPositive fun x hx =>
      hpos side.opposite x (mem_queue.mp hx)

/-! ## Whole runs -/

/-- In a run of `Limit` orders, the next id counts the calls. -/
theorem nextOrderId_run {h : List (Event n)} {b : OrderBook n} (hrun : Run h b)
    (hlimit : LimitOnly h) (hlen : h.length < 2 ^ 32) :
    b.nextOrderId.toNat = h.length + 1 := by
  induction hrun with
  | new symbolId => rfl
  | @call h b b' c r fuel hrun hexec ih =>
    rw [List.length_cons] at hlen ⊢
    have ih := ih (fun e he => hlimit e (List.mem_cons_of_mem _ he)) (by omega)
    have hbump : b'.nextOrderId = b.nextOrderId + 1 := by
      obtain ⟨side, p, q, hc⟩ := hlimit _ List.mem_cons_self
      have hout := OrderBook.exec_outcome hexec
      subst hc
      cases hout with
      | idle hcancels => cases hcancels
      | released hcancels => cases hcancels
      | refused => rfl
      | placed _ _ _ hp => exact hp.nextOrderId
    rw [hbump, UInt64.toNat_add, ih]
    exact Nat.mod_eq_of_lt (by simp; omega)

theorem conserved_run {h : List (Event n)} {b : OrderBook n} (hrun : Run h b)
    (hlimit : LimitOnly h) (hlen : h.length < 2 ^ 32) (side : Side) :
    acceptedQty side h = tradedQty h + (b.ladder side).totalQty := by
  induction hrun with
  | new symbolId => rw [ladder_new]; rfl
  | @call h b b' c r fuel hrun hexec ih =>
    have hlen' : h.length + 1 < 2 ^ 32 := hlen
    have hlimit' : LimitOnly h := fun e he => hlimit e (List.mem_cons_of_mem _ he)
    have ih := ih hlimit' (by omega)
    -- ids have not come round to 0
    have hid : b.nextOrderId ≠ 0 := by
      intro hzero
      have hcount := nextOrderId_run hrun hlimit' (by omega)
      rw [hzero] at hcount
      simp at hcount
    obtain ⟨side', p, q, hc⟩ := hlimit _ List.mem_cons_self
    subst hc
    have haccepted := accepted_outcome (wf_run hrun) hid (OrderBook.exec_outcome hexec) side
    have hflow := flow_outcome (wf_run hrun) hexec
      (fits_run (hrun.call hexec) hlen _ List.mem_cons_self) side fun _ => true
    rw [← FlatPriceLadder.totalQty_eq, ← FlatPriceLadder.totalQty_eq] at hflow
    show Event.accepted side _ + acceptedQty side h = filledQty _ + tradedQty h + _
    omega

/-- **Quantity is conserved.** After fewer than `2^32` `Limit` orders, the
quantity of the accepted buy orders is the quantity traded plus what the bids
hold, that of the accepted sell orders the quantity traded plus what the asks
hold.  A fill is never more than the order still wants or the level has, so that
neither subtraction of the matching loop wraps; and each level the loop of a call
takes up gives a unit at least, which the call reports. -/
theorem quantity_conserved {h : List (Event n)} {b : OrderBook n} (hrun : Run h b)
    (hlimit : LimitOnly h) (hlen : h.length < 2 ^ 32) :
    acceptedQty .buy h = tradedQty h + b.bids.totalQty ∧
      acceptedQty .sell h = tradedQty h + b.asks.totalQty ∧
      (∀ quantity level, fillQty quantity level ≤ quantity ∧
        (fillQty quantity level).toUInt64 ≤ level.totalQuantity) ∧
      ∀ e ∈ h, ∀ s level, e.Trades s level → 0 < fillQty s.quantity level ∧
        ⟨0, 0, level.priceTicks, fillQty s.quantity level⟩ ∈ e.fills := by
  refine ⟨conserved_run hrun hlimit hlen .buy, conserved_run hrun hlimit hlen .sell, fillQty_le,
    ?_⟩
  rintro ⟨b₁, c, r, b₂⟩ he s level htrades
  obtain ⟨later, earlier, rfl⟩ := List.append_of_mem he
  obtain ⟨hearlier, fuel, hexec⟩ := hrun.split
  have hlen' : earlier.length < 2 ^ 32 := by
    rw [List.length_append, List.length_cons] at hlen
    omega
  have hreported := trades_reported hexec htrades
  have hpositive := allPositive_fills (wf_run hearlier) (positive_run hearlier hlen') hexec
  exact ⟨hpositive _ hreported, hreported⟩

/-- A sell order of 100 that takes a bid of 40 and rests with 60, then a
buyer of 25. -/
def partFills : List (Event .four) × OrderBook .four :=
  played 2 1 [.add .buy 10000 40 .limit, .add .sell 9950 100 .limit, .add .buy 9950 25 .limit]
    (by decide)

theorem quantity_conserved_part_fills :
    acceptedQty .buy partFills.1 = 65 ∧ acceptedQty .sell partFills.1 = 100 ∧
      tradedQty partFills.1 = 65 ∧ partFills.2.bids.totalQty = 0 ∧
      partFills.2.asks.totalQty = 35 := by
  have hlimit : LimitOnly partFills.1 := by
    intro e he
    fin_cases he
    · exact ⟨.buy, 9950, 25, rfl⟩
    · exact ⟨.sell, 9950, 100, rfl⟩
    · exact ⟨.buy, 10000, 40, rfl⟩
  have hrun : Run partFills.1 partFills.2 := run_played _
  obtain ⟨hbuy, hsell, _⟩ := quantity_conserved hrun hlimit (by decide)
  have hbids : partFills.2.bids.totalQty = 0 := by decide
  have hasks : partFills.2.asks.totalQty = 35 := by decide
  have htraded : tradedQty partFills.1 = 65 := by decide
  exact ⟨by omega, by omega, htraded, hbids, hasks⟩

end HftEngine
