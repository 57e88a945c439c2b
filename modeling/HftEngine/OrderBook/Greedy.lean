import HftEngine.OrderBook.Levels
import HftEngine.OrderBook.Progress

/-!
# Price priority

`Greedy` is what a matching loop is for: from the front of the queue on, an
order takes each level whole as long as it is not used up, and the last one in
part.  As long as the totals fit 32 bits the loop does this and ends
(`sweep_greedy`, `matching_greedy`).

What the caller sees of it is `GreedyMatch`: one match for each level touched,
best price first, for the smaller of what is left and what the level has; the
levels used up are gone and all others are as they were.  It holds whenever no
match is of quantity 0 (`greedyMatch_iff`).  What is left of the order joins its
own side, and nothing else changes there (`Rested`), unless the total of the
level wraps (`rested_rest_iff`).
-/

namespace HftEngine

open Lib

/-- Every total fits 32 bits. -/
def FlatPriceLadder.Small (l : FlatPriceLadder) : Prop :=
  ∀ x ∈ l.levels, x.totalQuantity.toNat < 2 ^ 32

/-- The quantity `q` executed along a queue by priority: the matches, and the
queue left. -/
inductive Greedy (beyond : Int64 → Bool) :
    UInt32 → List PriceLevel → List MatchResult → List PriceLevel → Prop
  | filled (queue : List PriceLevel) : Greedy beyond 0 queue [] queue
  | empty (q : UInt32) : Greedy beyond q [] [] []
  | stopped (q : UInt32) {x : PriceLevel} (rest : List PriceLevel) :
      beyond x.priceTicks = true → Greedy beyond q (x :: rest) [] (x :: rest)
  | part {q : UInt32} {x : PriceLevel} (rest : List PriceLevel) :
      q ≠ 0 → beyond x.priceTicks = false → q.toNat < x.totalQuantity.toNat →
      Greedy beyond q (x :: rest) [⟨0, 0, x.priceTicks, q⟩] (x.fill q :: rest)
  | whole {q : UInt32} {x : PriceLevel} {rest queue' : List PriceLevel}
      {fills : List MatchResult} :
      q ≠ 0 → beyond x.priceTicks = false → x.totalQuantity.toNat ≤ q.toNat →
      Greedy beyond (q - x.totalQuantity.toUInt32) rest fills queue' →
      Greedy beyond q (x :: rest) (⟨0, 0, x.priceTicks, x.totalQuantity.toUInt32⟩ :: fills) queue'

/-! ## The matching loop is greedy -/

section Fill

variable {q : UInt32} {x : PriceLevel}

/-- One fill that ends inside the level, as far as the cast sees it. -/
theorem fill_part (hlow : q.toNat ≤ x.totalQuantity.toNat % 2 ^ 32)
    (hlt : q.toNat < x.totalQuantity.toNat) :
    fillQty q x = q ∧ (x.fill q).totalQuantity ≠ 0 := by
  have hqty := toNat_fillQty q x
  rw [Nat.min_eq_left hlow] at hqty
  have hall : fillQty q x = q := UInt32.toNat_inj.mp hqty
  refine ⟨hall, fun hz => ?_⟩
  have hfill := toNat_fill_fillQty q x
  rw [hall, hz, UInt64.toNat_zero] at hfill
  omega

/-- The total of a level that a 32-bit quantity covers. -/
theorem toNat_total (hle : x.totalQuantity.toNat ≤ q.toNat) :
    x.totalQuantity.toUInt32.toNat = x.totalQuantity.toNat := by
  rw [UInt64.toNat_toUInt32]
  exact Nat.mod_eq_of_lt (hle.trans_lt q.toNat_lt)

theorem toNat_sub_total (hle : x.totalQuantity.toNat ≤ q.toNat) :
    (q - x.totalQuantity.toUInt32).toNat = q.toNat - x.totalQuantity.toNat := by
  rw [UInt32.toNat_sub_of_le _ _ (by rw [UInt32.le_iff_toNat_le, toNat_total hle]; exact hle),
    toNat_total hle]

/-- One fill that uses the level up. -/
theorem fill_whole (hle : x.totalQuantity.toNat ≤ q.toNat) :
    fillQty q x = x.totalQuantity.toUInt32 ∧ (x.fill (fillQty q x)).totalQuantity = 0 := by
  have hqty := toNat_fillQty q x
  rw [Nat.mod_eq_of_lt (hle.trans_lt q.toNat_lt), Nat.min_eq_right hle] at hqty
  refine ⟨UInt32.toNat_inj.mp (hqty.trans (toNat_total hle).symm), UInt64.toNat_inj.mp ?_⟩
  have hfill := toNat_fill_fillQty q x
  rw [UInt64.toNat_zero]
  omega

end Fill

/-- A sweep of levels that fit 32 bits ends, and is greedy. -/
theorem sweep_greedy (beyond : Int64 → Bool) (queue : List PriceLevel)
    (hsmall : ∀ x ∈ queue, x.totalQuantity.toNat < 2 ^ 32) (q : UInt32)
    (fills : List MatchResult) :
    ∃ fuel left fills' queue', loop (sweepStep beyond) fuel ⟨q, queue, fills⟩ =
        some ⟨left, queue', fills ++ fills'⟩ ∧ Greedy beyond q queue fills' queue' := by
  have hend : ∀ {q queue} fills, sweepStep beyond ⟨q, queue, fills⟩ = none →
      loop (sweepStep beyond) 1 ⟨q, queue, fills⟩ = some ⟨q, queue, fills ++ []⟩ := by
    intro q queue fills hnone
    rw [List.append_nil]
    exact loop_exit hnone 0
  induction queue generalizing q fills with
  | nil => exact ⟨1, q, [], [], hend _ (by simp [sweepStep]), .empty q⟩
  | cons x rest ih =>
    obtain ⟨hx, hrest⟩ := List.forall_mem_cons.mp hsmall
    by_cases hq : q = 0
    · subst hq
      exact ⟨1, 0, [], x :: rest, hend _ (by simp [sweepStep]), .filled _⟩
    cases hbeyond : beyond x.priceTicks with
    | true =>
      exact ⟨1, q, [], x :: rest, hend _ (by simp [sweepStep, hbeyond]), .stopped q rest hbeyond⟩
    | false =>
      have hstep := sweepStep_cons rest fills hq hbeyond
      by_cases hlt : q.toNat < x.totalQuantity.toNat
      · obtain ⟨hall, hne⟩ := fill_part (by rw [Nat.mod_eq_of_lt hx]; exact hlt.le) hlt
        rw [hall, if_neg hne, UInt32.sub_self] at hstep
        exact ⟨2, 0, _, _, (loop_next hstep 1).trans (loop_exit (by simp [sweepStep]) 0),
          .part rest hq hbeyond hlt⟩
      · have hle : x.totalQuantity.toNat ≤ q.toNat := by omega
        obtain ⟨hall, hgone⟩ := fill_whole hle
        rw [if_pos hgone, hall] at hstep
        obtain ⟨fuel, left, fills', queue', hloop, hgreedy⟩ := ih hrest
          (q - x.totalQuantity.toUInt32)
          (fills ++ [⟨0, 0, x.priceTicks, x.totalQuantity.toUInt32⟩])
        rw [List.append_assoc, List.singleton_append] at hloop
        exact ⟨fuel + 1, left, _, queue', (loop_next hstep fuel).trans hloop,
          .whole hq hbeyond hle hgreedy⟩

theorem matching_greedy {n : PoolSize} (b : OrderBook n) (side : Side) (priceTicks : Int64)
    (quantity : UInt32) (hsorted : (b.ladder side.opposite).Sorted)
    (hsmall : (b.ladder side.opposite).Small) :
    ∃ fuel s, b.matching fuel side priceTicks quantity = some s ∧
      Greedy (fun p => (Taker.of side).beyond p priceTicks) quantity
        (side.queue (b.ladder side.opposite)) s.fills (side.queue s.ladder) := by
  obtain ⟨fuel, left, fills, queue', hloop, hgreedy⟩ :=
    sweep_greedy (fun p => (Taker.of side).beyond p priceTicks)
      (side.queue (b.ladder side.opposite)) (fun x hx => hsmall x (mem_queue.mp hx)) quantity []
  have hview := (matching_sweeps b side priceTicks quantity hsorted fuel).1
  rw [hloop, Option.map_eq_some_iff] at hview
  obtain ⟨s, hs, hsweep⟩ := hview
  cases hsweep
  exact ⟨fuel, s, hs, hgreedy⟩

/-! ### Loops that end -/

/-- Nothing is executed of nothing. -/
theorem Greedy.of_zero {beyond : Int64 → Bool} {queue queue' : List PriceLevel}
    {fills : List MatchResult} (h : Greedy beyond 0 queue fills queue') :
    fills = [] ∧ queue' = queue := by
  cases h with
  | filled | empty | stopped => exact ⟨rfl, rfl⟩
  | part _ hq => exact absurd rfl hq
  | whole hq => exact absurd rfl hq

/-- A sweep that ends was greedy, whatever the totals: at a level whose total
the cast to 32 bits changes, it stops inside the level or does not end. -/
theorem greedy_of_sweep {beyond : Int64 → Bool} {fuel : Nat} {s r : Sweep}
    (h : loop (sweepStep beyond) fuel s = some r) :
    ∃ fills, r.fills = s.fills ++ fills ∧ Greedy beyond s.quantity s.queue fills r.queue := by
  induction fuel generalizing s with
  | zero => cases h
  | succ fuel ih =>
    cases hstep : sweepStep beyond s with
    | none =>
      rw [loop_exit hstep] at h
      cases h
      refine ⟨[], (List.append_nil _).symm, ?_⟩
      rcases sweepStep_none hstep with hzero | hnil | ⟨x, rest, hqueue, hx⟩
      · rw [hzero]
        exact .filled _
      · rw [hnil]
        exact .empty _
      · rw [hqueue]
        exact .stopped _ rest hx
    | some s' =>
      rw [loop_next hstep] at h
      obtain ⟨x, rest, hpos, hqueue, hx, rfl⟩ := sweepStep_cases hstep
      have hq : s.quantity ≠ 0 := UInt32.pos_iff_ne_zero.mp hpos
      obtain ⟨fills, hfills, hgreedy⟩ := ih h
      simp only [List.append_assoc, List.singleton_append] at hfills
      refine ⟨_, hfills, ?_⟩
      rw [hqueue]
      by_cases hle : x.totalQuantity.toNat ≤ s.quantity.toNat
      · obtain ⟨hall, hgone⟩ := fill_whole hle
        simp only [if_pos hgone] at hgreedy
        rw [hall] at hgreedy ⊢
        exact .whole hq hx hle hgreedy
      · -- the level has more than the order wants
        have hlt : s.quantity.toNat < x.totalQuantity.toNat := by omega
        rcases fill_cases s.quantity x with ⟨hlow, _⟩ | ⟨_, hfits, _, _⟩ |
          ⟨_, _, hleft, hstays, hrest⟩
        · obtain ⟨hall, hkept⟩ := fill_part hlow hlt
          simp only [hall, if_neg hkept, UInt32.sub_self] at hgreedy ⊢
          obtain ⟨rfl, hleft⟩ := hgreedy.of_zero
          rw [hleft]
          exact .part rest hq hx hlt
        · omega
        · simp only [if_neg hstays] at h
          have hwithin : beyond (x.fill (fillQty s.quantity x)).priceTicks = false := hx
          rw [sweep_diverges hleft hwithin hrest hstays fuel] at h
          cases h

/-- A matching loop that ends was greedy. -/
theorem greedy_of_matching {n : PoolSize} {b : OrderBook n} {side : Side} {priceTicks : Int64}
    {quantity : UInt32} (hsorted : (b.ladder side.opposite).Sorted) {fuel : Nat} {s : MatchLoop}
    (hs : b.matching fuel side priceTicks quantity = some s) :
    Greedy (fun p => (Taker.of side).beyond p priceTicks) quantity
      (side.queue (b.ladder side.opposite)) s.fills (side.queue s.ladder) := by
  have hview := (matching_sweeps b side priceTicks quantity hsorted fuel).1
  rw [hs] at hview
  obtain ⟨fills, hfills, hgreedy⟩ := greedy_of_sweep hview.symm
  rw [List.nil_append] at hfills
  have hfills : s.fills = fills := hfills
  rw [hfills]
  exact hgreedy

/-! ## What greedy execution does -/

namespace Greedy

variable {beyond : Int64 → Bool} {q : UInt32} {queue queue' : List PriceLevel}
  {fills : List MatchResult}

/-- Where no level is empty, no match is. -/
theorem allPositive (h : Greedy beyond q queue fills queue')
    (hpos : ∀ x ∈ queue, x.totalQuantity ≠ 0) : AllPositive fills := by
  induction h with
  | filled | empty | stopped => exact allPositive_nil
  | part rest hq hx hlt =>
    intro f hf
    rw [List.mem_singleton.mp hf]
    exact UInt32.pos_iff_ne_zero.mpr hq
  | @whole q x rest queue' fills hq hx hle _ ih =>
    obtain ⟨hxpos, hrest⟩ := List.forall_mem_cons.mp hpos
    refine List.forall_mem_cons.mpr ⟨UInt32.pos_iff_ne_zero.mpr fun hzero => hxpos ?_, ih hrest⟩
    have hzero : x.totalQuantity.toUInt32 = 0 := hzero
    have htotal := toNat_total hle
    rw [hzero, UInt32.toNat_zero] at htotal
    exact UInt64.toNat_inj.mp htotal.symm

/-- The matches are at the prices of the first levels, in their order. -/
theorem prices (h : Greedy beyond q queue fills queue') :
    fills.map (·.priceTicks) <+: queue.map (·.priceTicks) := by
  induction h with
  | filled | empty | stopped => exact List.nil_prefix
  | part rest hq hx hlt => exact List.prefix_append [_] _
  | whole hq hx hle _ ih => exact List.cons_prefix_cons.mpr ⟨rfl, ih⟩

/-- Each match is with its level, for the smaller of what is left of the order
and what the level has. -/
theorem each (h : Greedy beyond q queue fills queue') (i : Nat) {f : MatchResult}
    (hf : fills[i]? = some f) :
    ∃ x, queue[i]? = some x ∧ f.priceTicks = x.priceTicks ∧ beyond x.priceTicks = false ∧
      f.quantity.toNat = min (q.toNat - filledQty (fills.take i)) x.totalQuantity.toNat := by
  induction h generalizing i with
  | filled | empty | stopped => cases hf
  | @part q x rest hq hx hlt =>
    cases i with
    | zero =>
      cases hf
      refine ⟨x, rfl, rfl, hx, ?_⟩
      simp only [List.take_zero, filledQty, List.map_nil, List.sum_nil]
      omega
    | succ i => cases hf
  | @whole q x rest queue' fills hq hx hle _ ih =>
    have htotal := toNat_total hle
    cases i with
    | zero =>
      cases hf
      refine ⟨x, rfl, rfl, hx, ?_⟩
      simp only [List.take_zero, filledQty, List.map_nil, List.sum_nil]
      omega
    | succ i =>
      obtain ⟨y, hy, hprice, hwithin, hmin⟩ := ih i hf
      refine ⟨y, hy, hprice, hwithin, ?_⟩
      rw [hmin, toNat_sub_total hle]
      simp only [List.take_succ_cons, filledQty, List.map_cons, List.sum_cons, htotal]
      omega

/-- No level is made. -/
theorem price_of_mem (h : Greedy beyond q queue fills queue') {y : PriceLevel}
    (hy : y ∈ queue') : ∃ x ∈ queue, x.priceTicks = y.priceTicks := by
  induction h with
  | filled | empty | stopped => exact ⟨y, hy, rfl⟩
  | part rest hq hx hlt =>
    rcases List.mem_cons.mp hy with rfl | hy
    · exact ⟨_, List.mem_cons_self, rfl⟩
    · exact ⟨y, List.mem_cons_of_mem _ hy, rfl⟩
  | whole hq hx hle _ ih =>
    obtain ⟨x, hx, hprice⟩ := ih hy
    exact ⟨x, List.mem_cons_of_mem _ hx, hprice⟩

/-- A level with no match stays. -/
theorem untouched (h : Greedy beyond q queue fills queue') {i : Nat} (hi : fills.length ≤ i)
    {x : PriceLevel} (hx : queue[i]? = some x) : x ∈ queue' := by
  induction h generalizing i with
  | filled | empty | stopped => exact List.mem_of_getElem? hx
  | part rest hq hwithin hlt =>
    cases i with
    | zero => simp at hi
    | succ i => exact List.mem_cons_of_mem _ (List.mem_of_getElem? hx)
  | whole hq hwithin hle _ ih =>
    cases i with
    | zero => simp at hi
    | succ i => exact ih (Nat.le_of_succ_le_succ hi) hx

/-- A level that its match does not use up is the last one touched, and stays
with what is left of it. -/
theorem reduced (h : Greedy beyond q queue fills queue') {i : Nat} {f : MatchResult}
    {x : PriceLevel} (hf : fills[i]? = some f) (hx : queue[i]? = some x)
    (hne : f.quantity.toNat ≠ x.totalQuantity.toNat) :
    i + 1 = fills.length ∧ x.fill f.quantity ∈ queue' := by
  induction h generalizing i with
  | filled | empty | stopped => cases hf
  | part rest hq hwithin hlt =>
    cases i with
    | zero =>
      cases hf
      cases hx
      exact ⟨rfl, List.mem_cons_self⟩
    | succ i => cases hf
  | whole hq hwithin hle _ ih =>
    cases i with
    | zero =>
      cases hf
      cases hx
      exact absurd (toNat_total hle) hne
    | succ i =>
      obtain ⟨hlast, hmem⟩ := ih hf hx
      exact ⟨congrArg (· + 1) hlast, hmem⟩

/-- A level that its match uses up is gone. -/
theorem consumed (h : Greedy beyond q queue fills queue')
    (hdistinct : queue.Pairwise fun x y => x.priceTicks ≠ y.priceTicks) {i : Nat}
    {f : MatchResult} {x : PriceLevel} (hf : fills[i]? = some f) (hx : queue[i]? = some x)
    (heq : f.quantity.toNat = x.totalQuantity.toNat) :
    ∀ y ∈ queue', y.priceTicks ≠ x.priceTicks := by
  induction h generalizing i with
  | filled | empty | stopped => cases hf
  | part rest hq hwithin hlt =>
    cases i with
    | zero =>
      cases hf
      cases hx
      exact absurd heq hlt.ne
    | succ i => cases hf
  | whole hq hwithin hle hrest ih =>
    obtain ⟨hhead, htail⟩ := List.pairwise_cons.mp hdistinct
    cases i with
    | zero =>
      cases hx
      intro y hy hprice
      obtain ⟨z, hz, hzy⟩ := hrest.price_of_mem hy
      exact hhead z hz (hprice.symm.trans hzy.symm)
    | succ i => exact ih htail hf hx

end Greedy

/-! ## What the caller sees -/

/-- The order in which an order of side `side` takes prices. -/
def Side.Prefers : Side → Int64 → Int64 → Prop
  | .buy, p, p' => p < p'
  | .sell, p, p' => p' < p

theorem Side.Prefers.ne {side : Side} {p p' : Int64} (h : side.Prefers p p') : p ≠ p' := by
  cases side with
  | buy => exact Int64.ne_of_lt h
  | sell => exact (Int64.ne_of_lt h).symm

theorem queue_prefers (side : Side) {l : FlatPriceLadder} (h : l.Sorted) :
    (side.queue l).Pairwise fun x y => side.Prefers x.priceTicks y.priceTicks := by
  cases side with
  | buy => exact h
  | sell => exact List.pairwise_reverse.mpr h

/-- An order of side `side` and quantity `q` with limit `priceTicks`, executed
against the ladder `l` by price priority: it leaves `l'` and reports `fills`. -/
structure GreedyMatch (side : Side) (priceTicks : Int64) (q : Nat) (l l' : FlatPriceLadder)
    (fills : List MatchResult) : Prop where
  /-- The `i`-th match is with the `i`-th level from the best, which is within
  the limit, and for the smaller of what is left of the order and what the
  level has. -/
  each : ∀ i f, fills[i]? = some f → ∃ x, (side.queue l)[i]? = some x ∧
    f.priceTicks = x.priceTicks ∧ (Taker.of side).beyond x.priceTicks priceTicks = false ∧
    f.quantity.toNat = min (q - filledQty (fills.take i)) x.totalQuantity.toNat ∧ 0 < f.quantity
  ordered : fills.Pairwise fun f g => side.Prefers f.priceTicks g.priceTicks
  filled : filledQty fills = min q (l.qtyWhere fun p => !(Taker.of side).beyond p priceTicks)
  consumed : ∀ (i : Nat) (f : MatchResult) (x : PriceLevel), fills[i]? = some f →
    (side.queue l)[i]? = some x → f.quantity.toNat = x.totalQuantity.toNat →
    l'.find x.priceTicks = none
  /-- Only the last level touched can be left reduced. -/
  reduced : ∀ (i : Nat) (f : MatchResult) (x : PriceLevel), fills[i]? = some f →
    (side.queue l)[i]? = some x → f.quantity.toNat ≠ x.totalQuantity.toNat →
    i + 1 = fills.length ∧ l'.find x.priceTicks = some (x.fill f.quantity)
  untouched : ∀ (i : Nat) (x : PriceLevel), fills.length ≤ i → (side.queue l)[i]? = some x →
    l'.find x.priceTicks = some x
  created : ∀ p, l.find p = none → l'.find p = none
  beyond : ∀ p, (Taker.of side).beyond p priceTicks = true → l'.find p = l.find p

section Matched

variable {side : Side} {priceTicks : Int64} {q : UInt32} {l : FlatPriceLadder} {s : MatchLoop}

/-- An order that reports matches within its limit only is filled as far as
the levels within its limit go. -/
theorem Matched.filled_eq_min (h : Matched side priceTicks q l s)
    (hwithin : ∀ f ∈ s.fills, (Taker.of side).beyond f.priceTicks priceTicks = false) :
    filledQty s.fills =
      min q.toNat (l.qtyWhere fun p => !(Taker.of side).beyond p priceTicks) := by
  have hquantity := h.quantity
  have hlevels := h.levels fun p => !(Taker.of side).beyond p priceTicks
  have hall : filledWhere (fun p => !(Taker.of side).beyond p priceTicks) s.fills =
      filledQty s.fills := by
    unfold filledWhere filledQty
    rw [List.filter_eq_self.mpr fun f hf => by simp [hwithin f hf]]
  rw [hall] at hlevels
  by_cases hzero : s.quantity = 0
  · rw [hzero, UInt32.toNat_zero] at hquantity
    omega
  · -- nothing within the limit is left
    have hnone : s.ladder.qtyWhere (fun p => !(Taker.of side).beyond p priceTicks) = 0 := by
      unfold FlatPriceLadder.qtyWhere qtyIn
      rw [List.filter_eq_nil_iff.mpr fun x hx => by simp [h.exit hzero x hx]]
      rfl
    omega

variable (hl : l.Sorted) (hm : Matched side priceTicks q l s)
  (hg : Greedy (fun p => (Taker.of side).beyond p priceTicks) q (side.queue l) s.fills
    (side.queue s.ladder))

include hg in
theorem Greedy.within : ∀ f ∈ s.fills, (Taker.of side).beyond f.priceTicks priceTicks = false := by
  intro f hf
  obtain ⟨i, hi⟩ := List.mem_iff_getElem?.mp hf
  obtain ⟨x, _, hprice, hx, _⟩ := hg.each i hi
  rw [hprice]
  exact hx

include hl hg in
theorem Greedy.ordered :
    s.fills.Pairwise fun f g => side.Prefers f.priceTicks g.priceTicks := by
  have hqueue := queue_prefers side hl
  rw [← List.pairwise_map (f := PriceLevel.priceTicks)] at hqueue
  exact List.pairwise_map.mp (hqueue.sublist hg.prices.sublist)

include hl hm hg in
/-- The level at a price beyond the limit is not touched. -/
theorem Greedy.find_beyond {p : Int64} (hp : (Taker.of side).beyond p priceTicks = true) :
    s.ladder.find p = l.find p := by
  refine Option.ext fun x => ?_
  rw [FlatPriceLadder.find_eq_some hm.sorted, FlatPriceLadder.find_eq_some hl]
  have hkeep : ∀ y ∈ side.queue l, y.priceTicks = p → y ∈ side.queue s.ladder := by
    intro y hy hyp
    obtain ⟨i, hi⟩ := List.mem_iff_getElem?.mp hy
    refine hg.untouched (i := i) (Nat.le_of_not_lt fun hlt => ?_) hi
    obtain ⟨z, hz, _, hwithin, _⟩ := hg.each i (List.getElem?_eq_getElem hlt)
    rw [hi] at hz
    cases hz
    rw [hyp, hp] at hwithin
    cases hwithin
  constructor
  · rintro ⟨hx, hxp⟩
    -- a level of the same price was there, and is still there
    obtain ⟨y, hy, hyx⟩ := hg.price_of_mem (mem_queue.mpr hx)
    have hy' := mem_queue.mp (hkeep y hy (hyx.trans hxp))
    have hsame := FlatPriceLadder.find_of_mem hm.sorted hy'
    rw [hyx, FlatPriceLadder.find_of_mem hm.sorted hx] at hsame
    cases hsame
    exact ⟨mem_queue.mp hy, hxp⟩
  · rintro ⟨hx, hxp⟩
    exact ⟨mem_queue.mp (hkeep x (mem_queue.mpr hx) hxp), hxp⟩

include hl hm hg in
/-- A greedy loop is a `GreedyMatch` unless it reports a match of 0. -/
theorem greedyMatch_iff :
    GreedyMatch side priceTicks q.toNat l s.ladder s.fills ↔ AllPositive s.fills := by
  constructor
  · intro h f hf
    obtain ⟨i, hi⟩ := List.mem_iff_getElem?.mp hf
    obtain ⟨_, _, _, _, _, hpos⟩ := h.each i f hi
    exact hpos
  · intro hpos
    refine ⟨?_, hg.ordered hl, hm.filled_eq_min hg.within, ?_, ?_, ?_, ?_, ?_⟩
    · intro i f hf
      obtain ⟨x, hx, hprice, hwithin, hmin⟩ := hg.each i hf
      exact ⟨x, hx, hprice, hwithin, hmin, hpos f (List.mem_of_getElem? hf)⟩
    · intro i f x hf hx heq
      have hdistinct := (queue_prefers side hl).imp Side.Prefers.ne
      rw [FlatPriceLadder.find_eq_none hm.sorted]
      intro y hy
      exact hg.consumed hdistinct hf hx heq y (mem_queue.mpr hy)
    · intro i f x hf hx hne
      obtain ⟨hlast, hmem⟩ := hg.reduced hf hx hne
      exact ⟨hlast, FlatPriceLadder.find_of_mem hm.sorted (mem_queue.mp hmem)⟩
    · intro i x hi hx
      exact FlatPriceLadder.find_of_mem hm.sorted (mem_queue.mp (hg.untouched hi hx))
    · intro p hp
      rw [FlatPriceLadder.find_eq_none hl] at hp
      rw [FlatPriceLadder.find_eq_none hm.sorted]
      intro y hy
      obtain ⟨x, hx, hxy⟩ := hm.prices y hy
      rw [← hxy]
      exact hp x hx
    · exact fun p hp => hg.find_beyond hl hm hp

end Matched

/-! ## What rests -/

/-- A ladder after a remainder has joined it, if there is one. -/
def FlatPriceLadder.rest (l : FlatPriceLadder) (priceTicks : Int64) (remaining : UInt32) :
    FlatPriceLadder :=
  if remaining = 0 then l else l.upsert priceTicks remaining

/-- The quantity `r` has joined the ladder `l` at a price, which left `l'`. -/
structure Rested (priceTicks : Int64) (r : Nat) (l l' : FlatPriceLadder) : Prop where
  others : ∀ p, p ≠ priceTicks → l'.find p = l.find p
  grows : l'.qtyAt priceTicks = l.qtyAt priceTicks + r
  present : 0 < r → ∃ x, l'.find priceTicks = some x
  unchanged : r = 0 → l' = l

namespace FlatPriceLadder

variable {l : FlatPriceLadder}

theorem sorted_rest (h : l.Sorted) (p : Int64) (r : UInt32) : (l.rest p r).Sorted := by
  unfold rest
  split
  · exact h
  · exact sorted_upsert h p r

/-- A total is a 64-bit number. -/
theorem qtyAt_lt (h : l.Sorted) (p : Int64) : l.qtyAt p < 2 ^ 64 := by
  rw [qtyAt_of_find h]
  cases l.find p with
  | none => exact Nat.two_pow_pos 64
  | some x => exact x.totalQuantity.toNat_lt

/-- What rests joins its level unless the total wraps. -/
theorem rested_rest_iff (h : l.Sorted) (p : Int64) (r : UInt32) :
    Rested p r.toNat l (l.rest p r) ↔ l.qtyAt p + r.toNat < 2 ^ 64 := by
  constructor
  · intro hrested
    rw [← hrested.grows]
    exact qtyAt_lt (sorted_rest h p r) p
  · intro hbound
    by_cases hr : r = 0
    · have hrest : l.rest p r = l := if_pos hr
      have hzero : r.toNat = 0 := by rw [hr]; rfl
      rw [hrest, hzero]
      exact ⟨fun _ _ => rfl, rfl, fun hpos => absurd hpos (Nat.lt_irrefl 0), fun _ => rfl⟩
    · have hrest : l.rest p r = l.upsert p r := if_neg hr
      have hfind := find_upsert h p r
      rw [hrest]
      refine ⟨fun p' hp' => ?_, ?_, fun _ => ⟨_, (hfind p).trans (if_pos rfl)⟩, fun hzero => ?_⟩
      · rw [hfind p', if_neg hp']
      · have hgrows := qtyWhere_upsert h hbound (fun p' => p' = p)
        simp only [decide_true, if_true] at hgrows
        exact hgrows
      · exact absurd (UInt32.toNat_inj.mp hzero) hr

end FlatPriceLadder

/-! ## `add_order` -/

section AddOrder

variable {n : PoolSize} {h : List (Event n)} {b : OrderBook n}

/-- An order that finds a slot, against a small ladder: it returns, its loop
was greedy, and what is left of it rests. -/
theorem addOrder_greedy (side : Side) (priceTicks : Int64) (quantity : UInt32) {type : OrderType}
    (htype : type ≠ .cancel) (hsorted : (b.ladder side.opposite).Sorted)
    (hsmall : (b.ladder side.opposite).Small)
    {slot : UInt32} {free : List UInt32} (hfree : b.freeList.contents = slot :: free) :
    ∃ fuel₀ s b', (∀ fuel, fuel₀ ≤ fuel → b.addOrder fuel side priceTicks quantity type =
        some (b.nextOrderId, s.fills, b')) ∧
      b.matching fuel₀ side priceTicks quantity = some s ∧
      Greedy (fun p => (Taker.of side).beyond p priceTicks) quantity
        (side.queue (b.ladder side.opposite)) s.fills (side.queue s.ladder) ∧
      b'.ladder side.opposite = s.ladder ∧
      b'.ladder side = (b.ladder side).rest priceTicks s.quantity ∧
      b'.freeList.contents = if s.quantity = 0 then free ++ [slot] else free := by
  obtain ⟨fuel₀, s, hs, hgreedy⟩ :=
    matching_greedy b side priceTicks quantity hsorted hsmall
  obtain ⟨freeList, hpop, _⟩ := SpscQueue.pop_of_contents hfree
  have hp := OrderBook.place_spec b side priceTicks quantity type slot freeList s
  refine ⟨fuel₀, s, b.place side priceTicks quantity type slot freeList s, ?_, hs, hgreedy,
    hp.opposite, hp.own, ?_⟩
  · intro fuel hle
    have hs' : b.matching fuel side priceTicks quantity = some s := loop_mono hle hs
    rw [OrderBook.addOrder_eq side priceTicks quantity htype hpop fuel, hs']
    rfl
  · obtain ⟨free', hcons, hcont⟩ := OrderBook.placed_contents hpop hp
    rw [hfree] at hcons
    injection hcons with _ hfree'
    rw [hcont, hfree']

end AddOrder

end HftEngine
