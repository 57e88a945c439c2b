import HftEngine.OrderBook.Invariants

/-!
# Buying and selling are mirror images

The mirror of a book has every price negated and the two sides exchanged; a
ladder, which ascends, is then also reversed.  The source has a matching loop
for each side and ladders that only ascend, so the symmetry is not by
construction.

* `queue_mirror`, `sweep_mirror` — a sweep of the mirrored queue is the
  mirrored sweep;
* `upsert_mirror` — so is what joins a ladder;
* `addOrder_mirror` — so is a whole call, match results, pool and free list
  included.

The least price has no negative and is left out (`Negatable`).
-/

namespace HftEngine

open Lib

def PriceLevel.mirror (x : PriceLevel) : PriceLevel := { x with priceTicks := -x.priceTicks }

def MatchResult.mirror (f : MatchResult) : MatchResult := { f with priceTicks := -f.priceTicks }

def Order.mirror (o : Order) : Order :=
  { o with priceTicks := -o.priceTicks, side := o.side.opposite }

namespace FlatPriceLadder

def mirror (l : FlatPriceLadder) : FlatPriceLadder := ⟨(l.levels.map PriceLevel.mirror).reverse⟩

/-- No level at the least price. -/
def Negatable (l : FlatPriceLadder) : Prop := ∀ x ∈ l.levels, x.priceTicks ≠ Int64.minValue

theorem sorted_mirror {l : FlatPriceLadder} (h : l.Sorted) (hl : l.Negatable) :
    l.mirror.Sorted := by
  unfold Sorted SortedList.Ascending mirror
  rw [List.pairwise_reverse, List.pairwise_map]
  refine List.Pairwise.imp_of_mem ?_ h
  intro x y hx hy hlt
  exact (Int64.neg_lt_neg_iff (hl y hy) (hl x hx)).mpr hlt

section Upsert

variable {l : FlatPriceLadder} {p : Int64} {xs : List PriceLevel}

/-- Levels above a price are below its negative, mirrored; and the other way
round. -/
theorem below_mirror (hp : p ≠ Int64.minValue) (hxs : ∀ x ∈ xs, x.priceTicks ≠ Int64.minValue)
    (habove : ∀ x ∈ xs, p < x.priceTicks) :
    ∀ y ∈ (xs.map PriceLevel.mirror).reverse, y.priceTicks < -p := by
  intro y hy
  obtain ⟨x, hx, rfl⟩ := List.mem_map.mp (List.mem_reverse.mp hy)
  exact (Int64.neg_lt_neg_iff (hxs x hx) hp).mpr (habove x hx)

theorem above_mirror (hp : p ≠ Int64.minValue) (hxs : ∀ x ∈ xs, x.priceTicks ≠ Int64.minValue)
    (hbelow : ∀ x ∈ xs, x.priceTicks < p) :
    ∀ y ∈ (xs.map PriceLevel.mirror).reverse, -p < y.priceTicks := by
  intro y hy
  obtain ⟨x, hx, rfl⟩ := List.mem_map.mp (List.mem_reverse.mp hy)
  exact (Int64.neg_lt_neg_iff hp (hxs x hx)).mpr (hbelow x hx)

theorem upsert_mirror (h : l.Sorted) (hl : l.Negatable) (hp : p ≠ Int64.minValue) (q : UInt32) :
    l.mirror.upsert (-p) q = (l.upsert p q).mirror := by
  suffices hall : (l.mirror.upsert (-p) q).levels = (l.upsert p q).mirror.levels from
    congrArg FlatPriceLadder.mk hall
  rcases upsert_cases h p q with
    ⟨lo, x, hi, hlevels, rfl, hlo, hhi, hu⟩ | ⟨lo, hi, hlevels, hlo, hhi, hu⟩
  · have hmirror : l.mirror.levels = (hi.map PriceLevel.mirror).reverse ++
        x.mirror :: (lo.map PriceLevel.mirror).reverse := by
      simp [mirror, hlevels]
    rw [upsert_found hmirror (below_mirror hp (fun y hy => hl y (by simp [hlevels, hy])) hhi) rfl]
    simp [mirror, hu, PriceLevel.mirror]
  · have hmirror : l.mirror.levels =
        (hi.map PriceLevel.mirror).reverse ++ (lo.map PriceLevel.mirror).reverse := by
      simp [mirror, hlevels]
    rw [upsert_absent hmirror (below_mirror hp (fun y hy => hl y (by simp [hlevels, hy])) hhi)
      (above_mirror hp (fun y hy => hl y (by simp [hlevels, hy])) hlo)]
    simp [mirror, hu, PriceLevel.mirror]

end Upsert

end FlatPriceLadder

/-! ## The matching loop -/

def Sweep.mirror (s : Sweep) : Sweep :=
  ⟨s.quantity, s.queue.map PriceLevel.mirror, s.fills.map MatchResult.mirror⟩

def MatchLoop.mirror (s : MatchLoop) : MatchLoop :=
  ⟨s.quantity, s.ladder.mirror, s.fills.map MatchResult.mirror⟩

theorem queue_mirror (side : Side) (l : FlatPriceLadder) :
    side.opposite.queue l.mirror = (side.queue l).map PriceLevel.mirror := by
  cases side with
  | buy => exact List.reverse_reverse _
  | sell => exact List.map_reverse.symm

theorem beyond_mirror (side : Side) {p x : Int64} (hp : p ≠ Int64.minValue)
    (hx : x ≠ Int64.minValue) :
    (Taker.of side.opposite).beyond (-x) (-p) = (Taker.of side).beyond x p := by
  cases side with
  | buy => exact decide_eq_decide.mpr (Int64.neg_lt_neg_iff hx hp)
  | sell => exact decide_eq_decide.mpr (Int64.neg_lt_neg_iff hp hx)

/-- One step of a sweep, mirrored. -/
theorem sweepStep_mirror {beyond beyond' : Int64 → Bool} {s : Sweep}
    (hbeyond : ∀ x ∈ s.queue, beyond' (-x.priceTicks) = beyond x.priceTicks) :
    (sweepStep beyond s).map Sweep.mirror = sweepStep beyond' s.mirror := by
  unfold sweepStep
  show _ = if s.quantity > 0 then _ else _
  by_cases hpos : s.quantity > 0
  · rw [if_pos hpos, if_pos hpos]
    cases hq : s.queue with
    | nil => simp [Sweep.mirror, hq]
    | cons x rest =>
      have hx := hbeyond x (by simp [hq])
      simp only [Sweep.mirror, hq, List.map_cons]
      rw [show x.mirror.priceTicks = -x.priceTicks from rfl, hx]
      by_cases hb : beyond x.priceTicks = true
      · rw [if_pos hb, if_pos hb]
        rfl
      · rw [if_neg hb, if_neg hb]
        -- the fill does not depend on the price
        have hfill : x.mirror.fill (fillQty s.quantity x.mirror) =
            (x.fill (fillQty s.quantity x)).mirror := rfl
        by_cases hzero : (x.fill (fillQty s.quantity x)).totalQuantity = 0
        · have hzero' : (x.fill (fillQty s.quantity x)).mirror.totalQuantity = 0 := hzero
          simp only [hfill, hzero, hzero', if_true, Option.map_some, Sweep.mirror,
            List.map_append]
          rfl
        · have hzero' : ¬ (x.fill (fillQty s.quantity x)).mirror.totalQuantity = 0 := hzero
          simp only [hfill, hzero, hzero', if_false, Option.map_some, Sweep.mirror,
            List.map_append]
          rfl
  · rw [if_neg hpos, if_neg hpos]
    rfl

/-- A whole sweep, mirrored. -/
theorem sweep_mirror (beyond beyond' : Int64 → Bool) (fuel : Nat) {s : Sweep}
    (hbeyond : ∀ x ∈ s.queue, beyond' (-x.priceTicks) = beyond x.priceTicks) :
    (loop (sweepStep beyond) fuel s).map Sweep.mirror = loop (sweepStep beyond') fuel s.mirror := by
  -- the prices of the queue stay among those it started with
  have hinv : ∀ s s' : Sweep,
      (∀ x ∈ s.queue, beyond' (-x.priceTicks) = beyond x.priceTicks) →
      sweepStep beyond s = some s' →
      ∀ x ∈ s'.queue, beyond' (-x.priceTicks) = beyond x.priceTicks := by
    intro s s' hs hstep x hx
    have hmem := (swept_step hstep).prices.subset (List.mem_map_of_mem hx)
    obtain ⟨y, hy, hyx⟩ := List.mem_map.mp hmem
    rw [← hyx]
    exact hs y hy
  exact loop_simulates Sweep.mirror hinv (fun s hs => sweepStep_mirror hs) fuel hbeyond

theorem sweep_injective (side : Side) : Function.Injective (MatchLoop.sweep side) := by
  rintro ⟨q, ⟨l⟩, f⟩ ⟨q', ⟨l'⟩, f'⟩ heq
  injection heq with hq hl hf
  have hl : l = l' := by
    cases side with
    | buy => exact hl
    | sell => exact List.reverse_injective hl
  exact congr (congr (congrArg MatchLoop.mk hq) (congrArg FlatPriceLadder.mk hl)) hf

theorem sweep_of_mirror (side : Side) (s : MatchLoop) :
    s.mirror.sweep side.opposite = (s.sweep side).mirror := by
  unfold MatchLoop.sweep MatchLoop.mirror Sweep.mirror
  rw [queue_mirror]

/-! ## The book -/

namespace OrderBook

variable {n : PoolSize} {b : OrderBook n}

def mirror (b : OrderBook n) : OrderBook n :=
  { b with
    bids := b.asks.mirror
    asks := b.bids.mirror
    orderPool := fun i => (b.orderPool i).mirror }

theorem ladder_mirror (b : OrderBook n) (side : Side) :
    b.mirror.ladder side.opposite = (b.ladder side).mirror := by
  cases side <;> rfl

theorem matching_mirror {side : Side} {p : Int64} (hsorted : (b.ladder side.opposite).Sorted)
    (hl : (b.ladder side.opposite).Negatable) (hp : p ≠ Int64.minValue) (q : UInt32)
    (fuel : Nat) :
    b.mirror.matching fuel side.opposite (-p) q =
      (b.matching fuel side p q).map MatchLoop.mirror := by
  have hladder := ladder_mirror b side.opposite
  have hsorted' : (b.mirror.ladder side.opposite.opposite).Sorted := by
    rw [hladder]
    exact FlatPriceLadder.sorted_mirror hsorted hl
  -- both loops are sweeps, and one sweep mirrors the other
  refine Option.map_injective (sweep_injective side.opposite) ?_
  rw [(matching_sweeps b.mirror side.opposite (-p) q hsorted' fuel).1, hladder, queue_mirror]
  have hsweep := sweep_mirror (fun x => (Taker.of side).beyond x p)
    (fun x => (Taker.of side.opposite).beyond x (-p)) fuel
    (s := ⟨q, side.queue (b.ladder side.opposite), []⟩)
    fun x hx => beyond_mirror side hp (hl x (mem_queue.mp hx))
  rw [← (matching_sweeps b side p q hsorted fuel).1, Option.map_map] at hsweep
  rw [Option.map_map]
  refine hsweep.symm.trans (congrArg (fun f => Option.map f _) ?_)
  funext s
  exact (sweep_of_mirror side s).symm

theorem mirror_allocate (b : OrderBook n) (freeList : SpscQueue UInt32 n.log2) (slot : UInt32)
    (o : Order) : b.mirror.allocate freeList slot o.mirror = (b.allocate freeList slot o).mirror := by
  have hpool := Function.comp_update Order.mirror b.orderPool slot.toNat o
  unfold allocate mirror
  congr 1
  exact hpool.symm

/-- What joins the book, mirrored. -/
theorem mirror_settle (b : OrderBook n) (side : Side) {p : Int64} (hsorted : (b.ladder side).Sorted)
    (hl : (b.ladder side).Negatable) (hp : p ≠ Int64.minValue) (slot : UInt32) (q : UInt32) :
    b.mirror.settle slot side.opposite (-p) q = (b.settle slot side p q).mirror := by
  unfold settle
  by_cases hzero : q = 0
  · rw [if_pos hzero, if_pos hzero]
    rfl
  · rw [if_neg hzero, if_neg hzero]
    have hpool := Function.comp_update Order.mirror b.orderPool slot.toNat
      { b.orderPool slot.toNat with quantity := q }
    have hupsert := FlatPriceLadder.upsert_mirror hsorted hl hp q
    cases side with
    | buy =>
      show OrderBook.mk _ _ (b.bids.mirror.upsert (-p) q) _ _ _ _ = _
      rw [show b.bids.mirror.upsert (-p) q = (b.bids.upsert p q).mirror from hupsert]
      unfold mirror
      congr 1
      exact hpool.symm
    | sell =>
      show OrderBook.mk _ (b.asks.mirror.upsert (-p) q) _ _ _ _ _ = _
      rw [show b.asks.mirror.upsert (-p) q = (b.asks.upsert p q).mirror from hupsert]
      unfold mirror
      congr 1
      exact hpool.symm

/-- A whole placed order, mirrored. -/
theorem mirror_place {side : Side} {p : Int64} (hsorted : (b.ladder side).Sorted)
    (hl : (b.ladder side).Negatable) (hp : p ≠ Int64.minValue) (q : UInt32) (type : OrderType)
    (slot : UInt32) (freeList : SpscQueue UInt32 n.log2) (s : MatchLoop) :
    b.mirror.place side.opposite (-p) q type slot freeList s.mirror =
      (b.place side p q type slot freeList s).mirror := by
  -- the order written is the mirrored order, so the book it joins is mirrored
  have hallocate := mirror_allocate b.bump freeList slot
    ⟨b.nextOrderId, p, q, 0, b.symbolId, side, type⟩
  cases side with
  | buy =>
    have hsettle := mirror_settle { b.bump.allocate freeList slot
      ⟨b.nextOrderId, p, q, 0, b.symbolId, .buy, type⟩ with asks := s.ladder } .buy
      hsorted hl hp slot s.quantity
    refine Eq.trans ?_ hsettle
    exact congrArg (fun c => OrderBook.settle { c with bids := s.ladder.mirror } slot .sell (-p)
      s.quantity) hallocate
  | sell =>
    have hsettle := mirror_settle { b.bump.allocate freeList slot
      ⟨b.nextOrderId, p, q, 0, b.symbolId, .sell, type⟩ with bids := s.ladder } .sell
      hsorted hl hp slot s.quantity
    refine Eq.trans ?_ hsettle
    exact congrArg (fun c => OrderBook.settle { c with asks := s.ladder.mirror } slot .buy (-p)
      s.quantity) hallocate

end OrderBook

open OrderBook in
/-- **A sell is a mirrored buy.** In every book a run can reach without a level
at the least price, an order of one side at any other price and the order of
the other side at the negated price on the mirrored book return together, with
the same id, the same match results at negated prices, and books that mirror
each other. -/
theorem addOrder_mirror {n : PoolSize} {h : List (Event n)} {b : OrderBook n} (hrun : Run h b)
    (side : Side) {priceTicks : Int64} (hprice : priceTicks ≠ Int64.minValue)
    (hlevels : ∀ side, (b.ladder side).Negatable) (quantity : UInt32) {type : OrderType}
    (htype : type ≠ .cancel) (fuel : Nat) :
    b.mirror.addOrder fuel side.opposite (-priceTicks) quantity type =
      (b.addOrder fuel side priceTicks quantity type).map fun r =>
        (r.1, r.2.1.map MatchResult.mirror, r.2.2.mirror) := by
  have hsorted := fun side => (wf_run hrun).sorted side
  obtain ⟨hnil, _⟩ | ⟨slot, freeList, hpop, _⟩ := b.freeList.pop_eq
  · have hnil' : b.mirror.freeList.contents = [] := hnil
    rw [addOrder_refused htype hnil, addOrder_refused htype hnil']
    rfl
  · have hpop' : b.mirror.freeList.pop = (some slot, freeList) := hpop
    rw [addOrder_eq _ _ _ htype hpop, addOrder_eq _ _ _ htype hpop',
      matching_mirror (hsorted _) (hlevels _) hprice, Option.map_map, Option.map_map]
    refine congrArg (fun f => Option.map f _) ?_
    funext s
    show (b.nextOrderId, s.fills.map MatchResult.mirror, _) = _
    rw [mirror_place (hsorted _) (hlevels _) hprice]
    rfl

/-- Two asks of different size. -/
def twoAskLevels : List (Event .four) × OrderBook .four :=
  played 1 1 [.add .sell 100 2 .limit, .add .sell 101 1 .limit] (by decide)

/-- A buyer of 4 sweeps both and rests; so does the mirrored seller. -/
theorem addOrder_mirror_two_ask_levels :
    ∃ b', twoAskLevels.2.addOrder 4 .buy 101 4 .limit =
        some (3, [⟨0, 0, 100, 2⟩, ⟨0, 0, 101, 1⟩], b') ∧
      b'.bids.levels = [⟨101, 1, 1⟩] ∧
      twoAskLevels.2.mirror.addOrder 4 .sell (-101) 4 .limit =
        some (3, [⟨0, 0, -100, 2⟩, ⟨0, 0, -101, 1⟩], b'.mirror) := by
  have hrun : Run twoAskLevels.1 twoAskLevels.2 := run_played _
  have hlevels : ∀ side, (twoAskLevels.2.ladder side).Negatable := by
    unfold FlatPriceLadder.Negatable
    intro side
    cases side <;> decide
  have hmirror := addOrder_mirror hrun .buy (by decide : (101 : Int64) ≠ Int64.minValue) hlevels 4
    OrderType.limit_ne_cancel 4
  refine ⟨_, rfl, by decide, ?_⟩
  exact hmirror

end HftEngine
