import HftEngine.Lib.Drain
import HftEngine.OrderBook.Greedy

/-!
# Splitting an order

As long as the totals of the opposite ladder fit 32 bits, the matching loop
returns and takes its quantity off the front of the queue, nothing else
(`Greedy.drains`): on prices and totals it is the library's `drain`, an action
of the quantities.  Two orders at one price therefore leave
what one order of both quantities leaves (`split_order_invisible`): the levels
of the opposite ladder because draining is an action, the match results
because what was filled at a price is what the ladder lost there, and the own
ladder because `upsert` adds.
-/

namespace HftEngine

open Lib

/-- The price and the total of a level. -/
def PriceLevel.total (x : PriceLevel) : Int64 × Nat := (x.priceTicks, x.totalQuantity.toNat)

/-- The prices and totals of a ladder. -/
def FlatPriceLadder.totals (l : FlatPriceLadder) : List (Int64 × Nat) :=
  l.levels.map PriceLevel.total

theorem FlatPriceLadder.qtyWhere_eq_sum (l : FlatPriceLadder) (kind : Int64 → Bool) :
    l.qtyWhere kind = ((l.totals.filter fun e => kind e.1).map Prod.snd).sum := by
  unfold qtyWhere qtyIn totals
  rw [List.filter_map, List.map_map]
  rfl

/-! ## The matching loop drains the queue -/

/-- Greedy execution takes the quantity off the front of the queue. -/
theorem Greedy.drains {beyond : Int64 → Bool} {q : UInt32} {queue queue' : List PriceLevel}
    {fills : List MatchResult} (h : Greedy beyond q queue fills queue') :
    queue'.map PriceLevel.total = drain beyond q.toNat (queue.map PriceLevel.total) := by
  induction h with
  | filled queue =>
    rw [UInt32.toNat_zero, drain_zero]
  | empty q => exact (drain_nil _).symm
  | stopped q rest hx => exact (drain_stop _ _ _ hx).symm
  | @part q x rest hq hx hlt =>
    have hfill : (x.fill q).total = (x.priceTicks, x.totalQuantity.toNat - q.toNat) :=
      Prod.ext rfl (PriceLevel.toNat_fill hlt.le)
    rw [List.map_cons, hfill]
    exact (drain_within _ hx hlt).symm
  | @whole q x rest queue' fills hq hx hle _ ih =>
    have hq' : q.toNat ≠ 0 := fun hz => hq (UInt32.toNat_inj.mp hz)
    rw [ih, toNat_sub_total hle]
    exact (drain_whole _ hx hq' hle).symm

/-- A matching loop of side `side` with limit `priceTicks` that took `quantity`
off the ladder `l` and ended in `s`. -/
structure Drained (side : Side) (priceTicks : Int64) (quantity : UInt32) (l : FlatPriceLadder)
    (s : MatchLoop) : Prop where
  matched : Matched side priceTicks quantity l s
  queue : (side.queue s.ladder).map PriceLevel.total =
    drain (fun p => (Taker.of side).beyond p priceTicks) quantity.toNat
      ((side.queue l).map PriceLevel.total)

/-! ## Two loops and one -/

section Totals

variable {l l' : FlatPriceLadder}

theorem totals_of_queue (side : Side)
    (h : (side.queue l).map PriceLevel.total = (side.queue l').map PriceLevel.total) :
    l.totals = l'.totals := by
  cases side with
  | buy => exact h
  | sell =>
    have hrev : l.levels.reverse.map PriceLevel.total = l'.levels.reverse.map PriceLevel.total := h
    rw [List.map_reverse, List.map_reverse] at hrev
    exact List.reverse_injective hrev

theorem qtyWhere_of_totals (h : l.totals = l'.totals) (kind : Int64 → Bool) :
    l.qtyWhere kind = l'.qtyWhere kind := by
  rw [FlatPriceLadder.qtyWhere_eq_sum, FlatPriceLadder.qtyWhere_eq_sum, h]

end Totals

namespace Drained

variable {side : Side} {priceTicks : Int64} {q q₁ q₂ : UInt32} {l : FlatPriceLadder}
  {s s₁ s₂ : MatchLoop}

theorem small (h : Drained side priceTicks q l s) (hl : l.Small) : s.ladder.Small := by
  intro x hx
  have hmem : x.total ∈ (side.queue s.ladder).map PriceLevel.total :=
    List.mem_map_of_mem (mem_queue.mpr hx)
  rw [h.queue] at hmem
  refine drain_lt ?_ x.total hmem
  intro e he
  obtain ⟨y, hy, rfl⟩ := List.mem_map.mp he
  exact hl y (mem_queue.mp hy)

/-- The remaining quantity is what the ladder did not lose. -/
theorem quantity_add (h : Drained side priceTicks q l s) :
    l.qtyWhere (fun _ => true) + s.quantity.toNat =
      q.toNat + s.ladder.qtyWhere (fun _ => true) := by
  have hquantity := h.matched.quantity
  have hlevels := h.matched.levels fun _ => true
  rw [filledQty_eq] at hquantity
  omega

section Split

variable (h₁ : Drained side priceTicks q₁ l s₁) (h₂ : Drained side priceTicks q₂ s₁.ladder s₂)
  (h : Drained side priceTicks (q₁ + q₂) l s) (hq : q₁.toNat + q₂.toNat < 2 ^ 32)

include h₁ h₂ h hq

theorem totals_split : s₂.ladder.totals = s.ladder.totals := by
  apply totals_of_queue side
  have hsum : (q₁ + q₂).toNat = q₁.toNat + q₂.toNat := by
    rw [UInt32.toNat_add, Nat.mod_eq_of_lt hq]
  rw [h₂.queue, h₁.queue, h.queue, hsum, drain_add]

theorem filledWhere_split (kind : Int64 → Bool) :
    filledWhere kind s₁.fills + filledWhere kind s₂.fills = filledWhere kind s.fills := by
  have hlost₁ := h₁.matched.levels kind
  have hlost₂ := h₂.matched.levels kind
  have hlost := h.matched.levels kind
  rw [qtyWhere_of_totals (totals_split h₁ h₂ h hq)] at hlost₂
  omega

theorem quantity_split : s₁.quantity.toNat + s₂.quantity.toNat = s.quantity.toNat := by
  have hleft₁ := h₁.quantity_add
  have hleft₂ := h₂.quantity_add
  have hleft := h.quantity_add
  rw [qtyWhere_of_totals (totals_split h₁ h₂ h hq)] at hleft₂
  rw [UInt32.toNat_add, Nat.mod_eq_of_lt hq] at hleft
  omega

end Split

end Drained

/-! ## What rests -/

theorem FlatPriceLadder.upsert_upsert_totals {l : FlatPriceLadder} (h : l.Sorted) (p : Int64)
    {a c d : UInt32} (hsum : a.toNat + c.toNat = d.toNat) :
    ((l.upsert p a).upsert p c).totals = (l.upsert p d).totals := by
  have hadd : a.toUInt64 + c.toUInt64 = d.toUInt64 := by
    apply UInt64.toNat_inj.mp
    rw [UInt64.toNat_add, UInt32.toNat_toUInt64, UInt32.toNat_toUInt64, UInt32.toNat_toUInt64,
      hsum]
    exact Nat.mod_eq_of_lt (d.toNat_lt.trans (by decide))
  unfold totals
  rcases upsert_cases h p a with ⟨lo, x, hi, hl, hx, hlo, hhi, hu⟩ | ⟨lo, hi, hl, hlo, hhi, hu⟩
  · rw [upsert_found hu hlo hx, upsert_found hl hlo hx, ← hadd]
    simp [PriceLevel.total, UInt64.add_assoc]
  · rw [upsert_found hu hlo rfl, upsert_absent hl hlo hhi, ← hadd]
    simp [PriceLevel.total]

/-- Two remainders at one price rest as their sum does, but for the count of
orders. -/
theorem FlatPriceLadder.rest_rest_totals {l : FlatPriceLadder} (h : l.Sorted) (p : Int64)
    {a c d : UInt32} (hsum : a.toNat + c.toNat = d.toNat) :
    ((l.rest p a).rest p c).totals = (l.rest p d).totals := by
  unfold rest
  by_cases ha : a = 0
  · have hcd : c = d := UInt32.toNat_inj.mp (by rw [← hsum, ha, UInt32.toNat_zero, Nat.zero_add])
    rw [if_pos ha, hcd]
  by_cases hc : c = 0
  · have had : a = d := UInt32.toNat_inj.mp (by rw [← hsum, hc, UInt32.toNat_zero, Nat.add_zero])
    rw [if_pos hc, had]
  have hd : d ≠ 0 := by
    rintro rfl
    rw [UInt32.toNat_zero] at hsum
    exact ha (UInt32.toNat_inj.mp (by rw [UInt32.toNat_zero]; omega))
  rw [if_neg ha, if_neg hc, if_neg hd]
  exact upsert_upsert_totals h p hsum

/-! ## `add_order` -/

section AddOrder

variable {n : PoolSize} {h : List (Event n)} {b : OrderBook n}

/-- An order that finds a slot, against a small ladder: it returns, its loop
has drained the opposite ladder, and what is left of it rests. -/
theorem addOrder_drains (side : Side) (priceTicks : Int64) (quantity : UInt32)
    (hsorted : (b.ladder side.opposite).Sorted) (hsmall : (b.ladder side.opposite).Small)
    {slot : UInt32} {free : List UInt32} (hfree : b.freeList.contents = slot :: free) :
    ∃ fuel₀ s b', (∀ fuel, fuel₀ ≤ fuel → b.addOrder fuel side priceTicks quantity .limit =
        some (b.nextOrderId, s.fills, b')) ∧
      Drained side priceTicks quantity (b.ladder side.opposite) s ∧
      b'.ladder side.opposite = s.ladder ∧
      b'.ladder side = (b.ladder side).rest priceTicks s.quantity ∧
      free <+: b'.freeList.contents := by
  obtain ⟨fuel₀, s, b', hadd, hs, hgreedy, hopp, hown, hcont⟩ := addOrder_greedy side priceTicks
    quantity OrderType.limit_ne_cancel hsorted hsmall hfree
  refine ⟨fuel₀, s, b', hadd, ⟨matching_matched hsorted hs, hgreedy.drains⟩, hopp, hown, ?_⟩
  rw [hcont]
  split
  · exact List.prefix_append _ _
  · exact List.prefix_rfl

/-- **Splitting an order is invisible.** In every book a run can reach whose
opposite ladder has totals below `2^32`, with two free slots, two `Limit`
orders at one price and one order of both quantities all return; either way
both ladders have the same prices and totals, and the same quantity is
reported as matched at each price. -/
theorem split_order_invisible (hrun : Run h b) (side : Side) (priceTicks : Int64)
    {q₁ q₂ : UInt32} (hsmall : (b.ladder side.opposite).Small)
    (hfree : 2 ≤ b.freeList.contents.length) (hq : q₁.toNat + q₂.toNat < 2 ^ 32) :
    ∃ fuel id₁ fills₁ b₁ id₂ fills₂ b₂ id fills b',
      b.addOrder fuel side priceTicks q₁ .limit = some (id₁, fills₁, b₁) ∧
      b₁.addOrder fuel side priceTicks q₂ .limit = some (id₂, fills₂, b₂) ∧
      b.addOrder fuel side priceTicks (q₁ + q₂) .limit = some (id, fills, b') ∧
      (∀ side, (b₂.ladder side).totals = (b'.ladder side).totals) ∧
      ∀ p : Int64, filledWhere (· = p) fills₁ + filledWhere (· = p) fills₂ =
        filledWhere (· = p) fills := by
  have hsorted := (wf_run hrun).sorted
  obtain ⟨slot₁, slot₂, free, hcont⟩ : ∃ slot₁ slot₂ free,
      b.freeList.contents = slot₁ :: slot₂ :: free := by
    match b.freeList.contents, hfree with
    | slot₁ :: slot₂ :: free, _ => exact ⟨slot₁, slot₂, free, rfl⟩
  obtain ⟨fuel₁, s₁, b₁, hadd₁, hd₁, hopp₁, hown₁, ⟨more, hmore⟩⟩ :=
    addOrder_drains side priceTicks q₁ (hsorted _) hsmall hcont
  obtain ⟨fuel, s, b', hadd, hd, hopp, hown, _⟩ :=
    addOrder_drains side priceTicks (q₁ + q₂) (hsorted _) hsmall hcont
  -- the second order meets what the first has left
  have hsorted₁ : (b₁.ladder side.opposite).Sorted := by
    rw [hopp₁]
    exact hd₁.matched.sorted
  have hsmall₁ : (b₁.ladder side.opposite).Small := by
    rw [hopp₁]
    exact hd₁.small hsmall
  obtain ⟨fuel₂, s₂, b₂, hadd₂, hd₂, hopp₂, hown₂, _⟩ :=
    addOrder_drains side priceTicks q₂ hsorted₁ hsmall₁ hmore.symm
  rw [hopp₁] at hd₂
  refine ⟨max fuel₁ (max fuel₂ fuel), _, _, b₁, _, _, b₂, _, _, b', hadd₁ _ (by omega),
    hadd₂ _ (by omega), hadd _ (by omega), ?_, fun p => hd₁.filledWhere_split hd₂ hd hq _⟩
  intro side'
  rcases Side.eq_or_opposite side side' with rfl | rfl
  · rw [hown₂, hown₁, hown]
    exact FlatPriceLadder.rest_rest_totals (hsorted _) priceTicks (hd₁.quantity_split hd₂ hd hq)
  · rw [hopp₂, hopp]
    exact hd₁.totals_split hd₂ hd hq

/-- A buyer of 120 split in half against an ask of 100: the second half ends
the level and rests with 20. -/
theorem split_order_invisible_one_ask :
    ∃ fuel id₁ fills₁ b₁ id₂ fills₂ b₂ id b',
      oneAsk.2.addOrder fuel .buy 10100 60 .limit = some (id₁, fills₁, b₁) ∧
      b₁.addOrder fuel .buy 10100 60 .limit = some (id₂, fills₂, b₂) ∧
      oneAsk.2.addOrder fuel .buy 10100 120 .limit = some (id, [⟨0, 0, 10100, 100⟩], b') ∧
      b₂.bids.totals = [(10100, 20)] ∧ b₂.asks.totals = [] ∧
      filledWhere (· = 10100) fills₁ + filledWhere (· = 10100) fills₂ = 100 := by
  have hrun : Run oneAsk.1 oneAsk.2 := run_played _
  have hsmall : (oneAsk.2.ladder Side.buy.opposite).Small := by
    unfold FlatPriceLadder.Small
    decide
  have hsum : (60 : UInt32).toNat + (60 : UInt32).toNat < 2 ^ 32 := by decide
  obtain ⟨fuel, id₁, fills₁, b₁, id₂, fills₂, b₂, id, fills, b', hadd₁, hadd₂, hadd, htotals,
    hfilled⟩ := split_order_invisible hrun .buy 10100 hsmall (by decide) hsum
  have hone : (oneAsk.2.addOrder 2 .buy 10100 120 .limit).map
      (fun r => (r.2.1, r.2.2.bids.totals, r.2.2.asks.totals)) =
      some ([⟨0, 0, 10100, 100⟩], [(10100, 20)], []) := by decide
  obtain ⟨r, hr, hfacts⟩ := Option.map_eq_some_iff.mp hone
  cases OrderBook.addOrder_unique hadd hr
  simp only [Prod.mk.injEq] at hfacts
  obtain ⟨rfl, hbids, hasks⟩ := hfacts
  refine ⟨fuel, id₁, fills₁, b₁, id₂, fills₂, b₂, id, b', hadd₁, hadd₂, hadd, ?_, ?_, hfilled 10100⟩
  · exact (htotals .buy).trans hbids
  · exact (htotals .sell).trans hasks

end AddOrder

end HftEngine
