import HftEngine.OrderBook.Flow
import HftEngine.OrderBook.Levels

/-!
# Passive flow

Limit orders that cannot trade, with the book or with one another, only join
levels, and a level does not remember in which order it was joined.

* `matching_of_beyond` — a loop that finds the whole ladder beyond its limit
  ends at once;
* `rest_step` — the step: such an order reports nothing, joins its level and
  leaves the rest of the batch as passive as it was (`Clear`);
* `rest_run` — the run: after a batch, each level has grown by the orders of
  the batch at its price (`grown`), which says nothing about their order.
-/

namespace HftEngine

open Lib

variable {n : PoolSize}

/-- What a caller gives for a `Limit` order. -/
structure LimitOrder where
  side : Side
  priceTicks : Int64
  quantity : UInt32
deriving Repr, DecidableEq

def LimitOrder.call (o : LimitOrder) : Call := .add o.side o.priceTicks o.quantity .limit

/-- The batch cannot trade: each of its buys is below each of its sells and
below the best ask, each of its sells above the best bid. -/
structure Passive (b : OrderBook n) (batch : List LimitOrder) : Prop where
  apart : ∀ o ∈ batch, ∀ o' ∈ batch, o.side = .buy → o'.side = .sell →
    o.priceTicks < o'.priceTicks
  belowAsk : ∀ o ∈ batch, o.side = .buy → ∀ ask, b.bestAsk = some ask →
    o.priceTicks < ask.priceTicks
  aboveBid : ∀ o ∈ batch, o.side = .sell → ∀ bid, b.bestBid = some bid →
    bid.priceTicks < o.priceTicks

/-- The quantities that a batch brings to one level.  An order of quantity 0
is filled as it arrives and never rests. -/
def quantitiesAt (side : Side) (priceTicks : Int64) (batch : List LimitOrder) : List UInt32 :=
  (batch.filter fun o => o.side = side ∧ o.priceTicks = priceTicks ∧ o.quantity ≠ 0).map
    LimitOrder.quantity

/-- The level at a price after orders of the quantities `qs` joined it: its
total grew by their sum modulo `2^64`, its count by their number modulo
`2^32`. -/
def grown (priceTicks : Int64) (level : Option PriceLevel) (qs : List UInt32) :
    Option PriceLevel :=
  if qs = [] then level
  else
    let level := level.getD ⟨priceTicks, 0, 0⟩
    some { level with
      totalQuantity := level.totalQuantity + UInt64.ofNat (qs.map UInt32.toNat).sum
      orderCount := level.orderCount + UInt32.ofNat qs.length }

/-! ## Levels that grow -/

theorem grown_cons (p : Int64) (level : Option PriceLevel) (q : UInt32) (qs : List UInt32) :
    grown p level (q :: qs) = grown p (some ((level.getD ⟨p, 0, 0⟩).join q)) qs := by
  have hq : UInt64.ofNat q.toNat = q.toUInt64 := by
    refine UInt64.toNat_inj.mp ?_
    have hlt : q.toNat < UInt64.size := q.toNat_lt.trans (by decide)
    rw [UInt64.toNat_ofNat_of_lt' hlt, UInt32.toNat_toUInt64]
  unfold grown
  rw [if_neg (List.cons_ne_nil q qs)]
  by_cases hqs : qs = []
  · rw [if_pos hqs, hqs]
    simp [PriceLevel.join, hq]
  · rw [if_neg hqs]
    simp only [PriceLevel.join, Option.getD_some, List.map_cons, List.sum_cons, List.length_cons,
      UInt64.ofNat_add, UInt32.ofNat_add, hq]
    rw [UInt64.add_assoc, UInt32.add_assoc, UInt32.add_comm 1]
    rfl

/-- How a level grows does not depend on the order of the orders. -/
theorem grown_perm {qs qs' : List UInt32} (h : qs'.Perm qs) (p : Int64)
    (level : Option PriceLevel) : grown p level qs' = grown p level qs := by
  unfold grown
  rw [(h.map UInt32.toNat).sum_eq, h.length_eq]
  have hnil : qs' = [] ↔ qs = [] := by rw [← List.length_eq_zero_iff, h.length_eq,
    List.length_eq_zero_iff]
  simp only [hnil]

/-! ## One order -/

/-- A matching loop whose limit leaves out the whole ladder ends at once. -/
theorem matching_of_beyond {b : OrderBook n} {side : Side} {p : Int64}
    (h : ∀ y ∈ (b.ladder side.opposite).levels, (Taker.of side).beyond y.priceTicks p = true)
    (quantity : UInt32) (fuel : Nat) :
    b.matching (fuel + 1) side p quantity = some ⟨quantity, b.ladder side.opposite, []⟩ := by
  have hstep : matchStep (Taker.of side) p ⟨quantity, b.ladder side.opposite, []⟩ = none := by
    unfold matchStep
    rw [top_eq]
    by_cases hpos : quantity > 0
    · simp only [hpos, if_true]
      cases hq : side.queue (b.ladder side.opposite) with
      | nil => rfl
      | cons x rest =>
        have hx : x ∈ side.queue (b.ladder side.opposite) := by simp [hq]
        simp only [List.head?_cons, h x (mem_queue.mp hx), if_true]
    · simp only [hpos, if_false]
  exact loop_exit hstep fuel

/-- The same of a ladder with one level. -/
theorem matching_of_beyond_only {b : OrderBook n} {side : Side} {p : Int64} {x : PriceLevel}
    (hladder : b.ladder side.opposite = ⟨[x]⟩)
    (hx : (Taker.of side).beyond x.priceTicks p = true) (quantity : UInt32) (fuel : Nat) :
    b.matching (fuel + 1) side p quantity = some ⟨quantity, ⟨[x]⟩, []⟩ := by
  rw [← hladder]
  refine matching_of_beyond (fun y hy => ?_) quantity fuel
  rw [hladder, List.mem_singleton] at hy
  rw [hy]
  exact hx

/-- No order of the batch reaches the book or another order of the batch. -/
structure Clear (b : OrderBook n) (batch : List LimitOrder) : Prop where
  book : ∀ o ∈ batch, ∀ y ∈ (b.ladder o.side.opposite).levels,
    (Taker.of o.side).beyond y.priceTicks o.priceTicks = true
  apart : ∀ o ∈ batch, ∀ o' ∈ batch, o'.side = o.side.opposite →
    (Taker.of o.side).beyond o'.priceTicks o.priceTicks = true

/-- On a sorted ladder, beyond the best price is beyond every price. -/
theorem Passive.clear {b : OrderBook n} {batch : List LimitOrder} (hwf : Wf b)
    (h : Passive b batch) : Clear b batch := by
  have hbest : ∀ (side : Side) (p : Int64),
      (∀ x, (side.queue (b.ladder side.opposite)).head? = some x →
        (Taker.of side).beyond x.priceTicks p = true) →
      ∀ y ∈ (b.ladder side.opposite).levels, (Taker.of side).beyond y.priceTicks p = true := by
    intro side p hhead y hy
    have hpair := queue_beyond side (hwf.sorted side.opposite) p
    have hy : y ∈ side.queue (b.ladder side.opposite) := mem_queue.mpr hy
    cases hq : side.queue (b.ladder side.opposite) with
    | nil =>
      rw [hq] at hy
      exact absurd hy (by simp)
    | cons x rest =>
      rw [hq] at hy hpair hhead
      rcases List.mem_cons.mp hy with rfl | hy
      · exact hhead y rfl
      · exact (List.pairwise_cons.mp hpair).1 y hy (hhead x rfl)
  refine ⟨?_, ?_⟩
  · rintro ⟨side, p, q⟩ ho
    refine hbest side p ?_
    intro x hx
    cases side with
    | buy => exact decide_eq_true (h.belowAsk _ ho rfl x hx)
    | sell =>
      refine decide_eq_true (h.aboveBid _ ho rfl x ?_)
      rw [← hx]
      exact List.head?_reverse.symm
  · rintro ⟨side, p, q⟩ ho ⟨side', p', q'⟩ ho' hside
    simp only at hside
    subst hside
    cases side with
    | buy => exact decide_eq_true (h.apart _ ho _ ho' rfl rfl)
    | sell => exact decide_eq_true (h.apart _ ho' _ ho rfl rfl)

/-- With `o` resting, the orders behind it still have no counterpart: the only
new price is that of `o`. -/
theorem Clear.rested {b b' : OrderBook n} {o : LimitOrder} {batch : List LimitOrder} (hwf : Wf b)
    (h : Clear b (o :: batch))
    (hladder : ∀ side, b'.ladder side =
      if side = o.side ∧ o.quantity ≠ 0 then (b.ladder side).upsert o.priceTicks o.quantity
      else b.ladder side) : Clear b' batch := by
  refine ⟨?_, ?_⟩
  · intro o' ho' y hy
    have ho' := List.mem_cons_of_mem o ho'
    rw [hladder] at hy
    split at hy
    · rename_i hside
      rcases FlatPriceLadder.price_of_mem_upsert (hwf.sorted _) hy with hyp | ⟨z, hz, hzy⟩
      · rw [hyp]
        exact h.apart o' ho' o List.mem_cons_self hside.1.symm
      · rw [← hzy]
        exact h.book o' ho' z hz
    · exact h.book o' ho' y hy
  · intro o₁ h₁ o₂ h₂
    exact h.apart o₁ (List.mem_cons_of_mem _ h₁) o₂ (List.mem_cons_of_mem _ h₂)

/-- **One order of a batch.** It reports nothing and joins its level, if it
brings anything, and the rest of the batch stays clear of the book. -/
theorem rest_step {b : OrderBook n} {o : LimitOrder} {batch : List LimitOrder} (hwf : Wf b)
    (hclear : Clear b (o :: batch)) (hfree : batch.length + 1 ≤ b.freeList.contents.length)
    (fuel : Nat) :
    ∃ b', b.exec (fuel + 1) o.call = some (.added b.nextOrderId [], b') ∧ Wf b' ∧
      Clear b' batch ∧ batch.length ≤ b'.freeList.contents.length ∧
      ∀ side, b'.ladder side =
        if side = o.side ∧ o.quantity ≠ 0 then (b.ladder side).upsert o.priceTicks o.quantity
        else b.ladder side := by
  obtain ⟨slot, rest, hcont⟩ := List.exists_cons_of_length_pos
    (l := b.freeList.contents) (by omega)
  have hs := matching_of_beyond (hclear.book o List.mem_cons_self) o.quantity fuel
  obtain ⟨b', freeList, hadd, hp, hcont'⟩ :=
    OrderBook.addOrder_of_matching OrderType.limit_ne_cancel hcont hs
  have hexec : b.exec (fuel + 1) o.call = some (.added b.nextOrderId [], b') := by
    simp only [LimitOrder.call, OrderBook.exec, hadd, Option.map_some]
  have hladder : ∀ side, b'.ladder side =
      if side = o.side ∧ o.quantity ≠ 0 then (b.ladder side).upsert o.priceTicks o.quantity
      else b.ladder side := by
    intro side
    rcases Side.eq_or_opposite o.side side with rfl | rfl
    · rw [hp.own]
      by_cases hzero : o.quantity = 0
      · rw [if_pos hzero, if_neg (fun h => h.2 hzero)]
      · rw [if_neg hzero, if_pos ⟨rfl, hzero⟩]
    · rw [hp.opposite, if_neg (fun h => o.side.opposite_ne h.1)]
  refine ⟨b', hexec, wf_outcome hwf (OrderBook.exec_outcome hexec), hclear.rested hwf hladder, ?_,
    hladder⟩
  rw [hcont, List.length_cons] at hfree
  rw [hcont']
  split
  · rw [List.length_append]
    omega
  · omega

/-- What an order adds to the level at a price. -/
theorem quantitiesAt_cons (side : Side) (p : Int64) (o : LimitOrder) (batch : List LimitOrder) :
    quantitiesAt side p (o :: batch) =
      (if side = o.side ∧ p = o.priceTicks ∧ o.quantity ≠ 0 then [o.quantity] else []) ++
        quantitiesAt side p batch := by
  unfold quantitiesAt
  rw [List.filter_cons]
  by_cases h : side = o.side ∧ p = o.priceTicks ∧ o.quantity ≠ 0
  · simp [h]
  · have h' : ¬(o.side = side ∧ o.priceTicks = p ∧ o.quantity ≠ 0) :=
      fun ⟨hs, hp, hq⟩ => h ⟨hs.symm, hp.symm, hq⟩
    simp only [h, h', decide_false, if_false, List.nil_append, Bool.false_eq_true]

/-! ## A whole batch -/

/-- **A passive batch.** It reports nothing, and each level grows by the
orders of the batch at its price. -/
theorem rest_run {h : List (Event n)} {b : OrderBook n} {batch : List LimitOrder} (hwf : Wf b)
    (hclear : Clear b batch) (hfree : batch.length ≤ b.freeList.contents.length) (fuel : Nat) :
    ∃ es b', replay (fuel + 1) (batch.map LimitOrder.call) (h, b) = some (es ++ h, b') ∧
      es.length = batch.length ∧ (∀ e ∈ es, e.fills = []) ∧ Wf b' ∧
      ∀ side p, (b'.ladder side).find p =
        grown p ((b.ladder side).find p) (quantitiesAt side p batch) := by
  induction batch generalizing h b with
  | nil => exact ⟨[], b, rfl, rfl, by simp, hwf, fun _ _ => rfl⟩
  | cons o batch ih =>
    obtain ⟨b₁, hexec, hwf₁, hclear₁, hfree₁, hladder⟩ := rest_step hwf hclear hfree fuel
    obtain ⟨es, b', hreplay, hlen, hfills, hwf', hfind⟩ :=
      ih (h := ⟨b, o.call, .added b.nextOrderId [], b₁⟩ :: h) hwf₁ hclear₁ hfree₁
    refine ⟨es ++ [⟨b, o.call, .added b.nextOrderId [], b₁⟩], b', ?_, ?_, ?_, hwf', ?_⟩
    · rw [List.map_cons, List.append_assoc, List.singleton_append, ← hreplay]
      simp only [replay, hexec]
    · rw [List.length_append, hlen, List.length_singleton, List.length_cons]
    · intro e he
      rcases List.mem_append.mp he with he | he
      · exact hfills e he
      · rw [List.mem_singleton.mp he]
        rfl
    · intro side p
      rw [hfind, hladder, quantitiesAt_cons]
      by_cases hjoin : side = o.side ∧ o.quantity ≠ 0
      · rw [if_pos hjoin, FlatPriceLadder.find_upsert (hwf.sorted side)]
        by_cases hp : p = o.priceTicks
        · rw [if_pos hp, if_pos ⟨hjoin.1, hp, hjoin.2⟩, List.singleton_append, grown_cons, hp]
        · rw [if_neg hp, if_neg (fun hc => hp hc.2.1), List.nil_append]
      · rw [if_neg hjoin, if_neg (fun hc => hjoin ⟨hc.1, hc.2.2⟩), List.nil_append]

/-- **Passive flow is order independent.** Whichever way a passive batch for
which there are slots is ordered, every call returns, no match is reported,
and the same two ladders are left: each level is the level before the batch,
grown by the orders of the batch at its side and price. -/
theorem passive_flow_order_independent {h : List (Event n)} {b : OrderBook n} (hrun : Run h b)
    {batch : List LimitOrder} (hpassive : Passive b batch)
    (hfree : batch.length ≤ b.freeList.contents.length) (fuel : Nat) :
    ∃ ladder : Side → FlatPriceLadder,
      (∀ side p, (ladder side).find p =
        grown p ((b.ladder side).find p) (quantitiesAt side p batch)) ∧
      ∀ batch' : List LimitOrder, batch'.Perm batch →
        ∃ es b', replay (fuel + 1) (batch'.map LimitOrder.call) (h, b) = some (es ++ h, b') ∧
          es.length = batch.length ∧ (∀ e ∈ es, e.fills = []) ∧
          ∀ side, b'.ladder side = ladder side := by
  have hwf := wf_run hrun
  have hclear := hpassive.clear hwf
  obtain ⟨_, b₀, _, _, _, hwf₀, hfind₀⟩ := rest_run (h := h) hwf hclear hfree fuel
  refine ⟨b₀.ladder, hfind₀, ?_⟩
  intro batch' hperm
  have hclear' : Clear b batch' :=
    ⟨fun o ho => hclear.book o (hperm.mem_iff.mp ho),
      fun o ho o' ho' => hclear.apart o (hperm.mem_iff.mp ho) o' (hperm.mem_iff.mp ho')⟩
  obtain ⟨es, b', hreplay, hlen, hfills, hwf', hfind⟩ :=
    rest_run (h := h) hwf hclear' (by rw [hperm.length_eq]; exact hfree) fuel
  refine ⟨es, b', hreplay, by rw [hlen, hperm.length_eq], hfills, ?_⟩
  intro side
  refine FlatPriceLadder.ext_find (hwf'.sorted side) (hwf₀.sorted side) ?_
  intro p
  have hquantities : (quantitiesAt side p batch').Perm (quantitiesAt side p batch) :=
    (hperm.filter _).map _
  rw [hfind, hfind₀, grown_perm hquantities]

/-- Two asks at one price and a bid below them. -/
def quotes : List LimitOrder := [⟨.sell, 10100, 5⟩, ⟨.buy, 10000, 3⟩, ⟨.sell, 10100, 4⟩]

/-- A pool of eight slots. -/
def PoolSize.eight : PoolSize := ⟨3, by decide⟩

/-- An ask of 100 at that price, and a bid of 7. -/
def quoted : List (Event .eight) × OrderBook .eight :=
  played 1 1 [.add .sell 10100 100 .limit, .add .buy 9900 7 .limit] (by decide)

/-- The quotes the other way round: the two asks join the one that is there, the
new bid has a level of its own, and the old one is as it was. -/
theorem passive_flow_order_independent_quotes :
    Passive quoted.2 quotes ∧
      ∃ es b', replay 1 (quotes.reverse.map LimitOrder.call) quoted = some (es ++ quoted.1, b') ∧
        (∀ e ∈ es, e.fills = []) ∧ b'.asks.find 10100 = some ⟨10100, 109, 3⟩ ∧
        b'.bids.find 10000 = some ⟨10000, 3, 1⟩ ∧ b'.bids.find 9900 = some ⟨9900, 7, 1⟩ := by
  have hask : quoted.2.bestAsk = some ⟨10100, 100, 1⟩ := by decide
  have hbid : quoted.2.bestBid = some ⟨9900, 7, 1⟩ := by decide
  have hpassive : Passive quoted.2 quotes := by
    refine ⟨by decide, fun o ho hside ask hbest => ?_, fun o ho hside bid hbest => ?_⟩
    · cases hask.symm.trans hbest
      revert o
      decide
    · cases hbid.symm.trans hbest
      revert o
      decide
  have hrun : Run quoted.1 quoted.2 := run_played _
  obtain ⟨ladder, hfind, hperm⟩ := passive_flow_order_independent hrun hpassive (by decide) 0
  obtain ⟨es, b', hreplay, _, hfills, hladder⟩ := hperm quotes.reverse (List.reverse_perm _)
  have hlevel := fun side p => (congrArg (FlatPriceLadder.find · p) (hladder side)).trans
    (hfind side p)
  exact ⟨hpassive, es, b', hreplay, hfills, hlevel .sell 10100, hlevel .buy 10000,
    hlevel .buy 9900⟩

end HftEngine
