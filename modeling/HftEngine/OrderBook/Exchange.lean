import HftEngine.Lib.Priority
import HftEngine.OrderBook.Allocation
import HftEngine.OrderBook.Conservation
import HftEngine.OrderBook.Split

/-!
# The book as an exchange

What the order book is for, without its ladders, pool and machine integers: an
`Exchange` has a quantity resting at each price of either side.  An order
trades with the opposite side by price priority, within its limit, and what it
does not trade rests at its limit (`trades`, `submit`).

Every run whose accepted orders bring fewer than `2^32` units in all behaves so
(`run_refines_exchange`): the ladders show what rests on the exchange, and each
call reports the exchange's trades, best price first, none of quantity 0.
Cancels and refused orders are not seen by the exchange, and `Market` orders
are seen as limit orders.

* `priority_matching` — the matching loop serves the order by priority, which by
  `ByPriority.eq_allot` leaves no choice;
* `submit_placed`, `exchange_outcome` — one call;
* `degree_after_le` — an exchange holds no more than was submitted, so that the
  range condition can be read off the orders.
-/

namespace HftEngine

open Lib
open Finsupp (single)

/-! ## The exchange -/

/-- An order as the exchange sees it. -/
structure Submission where
  side : Side
  limit : Int64
  quantity : ℕ

/-- The quantity resting at each price. -/
structure Exchange where
  resting : Side → Int64 →₀ ℕ

instance decidablePrefers (side : Side) : DecidableRel side.Prefers := fun p p' =>
  match side with
  | .buy => inferInstanceAs (Decidable (p < p'))
  | .sell => inferInstanceAs (Decidable (p' < p))

instance strictTotalOrderPrefers (side : Side) : IsStrictTotalOrder Int64 side.Prefers :=
  match side with
  | .buy => inferInstanceAs (IsStrictTotalOrder Int64 (· < ·))
  | .sell => inferInstanceAs (IsStrictTotalOrder Int64 (· > ·))

namespace Exchange

/-- Nothing rests. -/
def empty : Exchange := ⟨fun _ => 0⟩

/-- What an order trades at each price: the opposite side serves it by
priority, as far as its limit. -/
noncomputable def trades (x : Exchange) (o : Submission) : Int64 →₀ ℕ :=
  allot o.side.Prefers (fun p => ¬ o.side.Prefers o.limit p) o.quantity
    (x.resting o.side.opposite)

/-- What an order leaves: the opposite side has lost what was traded, and the
rest of the order has joined its own side. -/
noncomputable def submit (x : Exchange) (o : Submission) : Exchange where
  resting side :=
    if side = o.side then x.resting side + single o.limit (o.quantity - (x.trades o).degree)
    else x.resting side - x.trades o

/-- The exchange after orders, the newest first. -/
noncomputable def after : List Submission → Exchange
  | [] => empty
  | o :: os => (after os).submit o

/-- An exchange holds no more than was submitted. -/
theorem degree_after_le (os : List Submission) (side : Side) :
    ((after os).resting side).degree ≤ (os.map (·.quantity)).sum := by
  induction os with
  | nil =>
    show (0 : Int64 →₀ ℕ).degree ≤ 0
    rw [map_zero]
  | cons o os ih =>
    have hsub : ((after (o :: os)).resting side).degree ≤
        ((after os).resting side).degree + o.quantity := by
      show ((if side = o.side then _ else _ : Int64 →₀ ℕ)).degree ≤ _
      split
      · rw [map_add, Finsupp.degree_single]
        omega
      · exact (Finsupp.degree_mono tsub_le_self).trans (Nat.le_add_right _ _)
    rw [List.map_cons, List.sum_cons]
    omega

end Exchange

/-! ## A ladder as a supply -/

namespace FlatPriceLadder

/-- The quantity a ladder shows at each price. -/
noncomputable def supply (l : FlatPriceLadder) : Int64 →₀ ℕ := tally l.totals

theorem supply_apply (l : FlatPriceLadder) (p : Int64) : l.supply p = l.qtyAt p := by
  rw [supply, tally_apply, qtyAt, qtyWhere_eq_sum]

theorem degree_filter_supply (l : FlatPriceLadder) (kind : Int64 → Prop) [DecidablePred kind] :
    (l.supply.filter kind).degree = l.qtyWhere fun p => kind p := by
  rw [supply, degree_filter_tally, qtyWhere_eq_sum]

theorem degree_supply (l : FlatPriceLadder) : l.supply.degree = l.totalQty := by
  rw [supply, degree_tally, totals, List.map_map]
  rfl

theorem supply_congr {l l' : FlatPriceLadder} (h : ∀ p, l.qtyAt p = l'.qtyAt p) :
    l.supply = l'.supply := by
  ext p
  rw [supply_apply, supply_apply, h]

/-- The supply does not depend on the order in which the levels are read. -/
theorem tally_queue (side : Side) (l : FlatPriceLadder) :
    tally ((side.queue l).map PriceLevel.total) = l.supply := by
  ext p
  have hqueue : qtyIn (fun p' => p' = p) (side.queue l) = l.qtyAt p := qtyIn_queue _
  rw [tally_apply, supply_apply, ← hqueue, qtyIn, List.filter_map, List.map_map]
  rfl

end FlatPriceLadder

/-- The price and the quantity of a match. -/
def MatchResult.total (f : MatchResult) : Int64 × ℕ := (f.priceTicks, f.quantity.toNat)

/-- What was matched at each price. -/
noncomputable def tallyFills (fills : List MatchResult) : Int64 →₀ ℕ :=
  tally (fills.map MatchResult.total)

theorem tallyFills_apply (fills : List MatchResult) (p : Int64) :
    tallyFills fills p = filledWhere (fun p' => p' = p) fills := by
  rw [tallyFills, tally_apply, filledWhere, List.filter_map, List.map_map]
  rfl

theorem degree_tallyFills (fills : List MatchResult) :
    (tallyFills fills).degree = filledQty fills := by
  rw [tallyFills, degree_tally, filledQty, List.map_map]
  rfl

namespace Exchange

/-- `fills` reports the trades of an order, best price first and none of
quantity 0. -/
structure Reports (x : Exchange) (o : Submission) (fills : List MatchResult) : Prop where
  trades : tallyFills fills = x.trades o
  ordered : fills.Pairwise fun f g => o.side.Prefers f.priceTicks g.priceTicks
  positive : AllPositive fills

/-- The exchange `x` takes orders one after the other, reports on each and is
left as `x'`. -/
inductive Executes : Exchange → List Submission → List (List MatchResult) → Exchange → Prop
  | nil (x : Exchange) : Executes x [] [] x
  | cons {x x' : Exchange} {o : Submission} {os : List Submission} {fills : List MatchResult}
      {reports : List (List MatchResult)} :
      x.Reports o fills → Executes (x.submit o) os reports x' →
      Executes x (o :: os) (fills :: reports) x'

end Exchange

/-! ## The matching loop serves by priority -/

theorem beyond_iff (side : Side) (p limit : Int64) :
    (Taker.of side).beyond p limit = true ↔ side.Prefers limit p := by
  cases side with
  | buy => exact decide_eq_true_iff
  | sell => exact decide_eq_true_iff

section First

variable {side : Side} {x : PriceLevel} {rest : List PriceLevel} {p : Int64}

/-- No level of a queue is at a price before that of the front. -/
theorem ne_of_prefers_front
    (hqueue : (x :: rest).Pairwise fun x y => side.Prefers x.priceTicks y.priceTicks)
    (hp : side.Prefers p x.priceTicks) : ∀ y ∈ x :: rest, y.priceTicks ≠ p := by
  obtain ⟨hfront, _⟩ := List.pairwise_cons.mp hqueue
  refine List.forall_mem_cons.mpr ⟨hp.ne.symm, fun y hy => ?_⟩
  exact (trans_of side.Prefers hp (hfront y hy)).ne.symm

theorem tally_total_eq_zero {queue : List PriceLevel} (h : ∀ y ∈ queue, y.priceTicks ≠ p) :
    tally (queue.map PriceLevel.total) p = 0 :=
  tally_eq_zero (List.forall_mem_map.mpr h)

/-- Nothing is matched at a price at which there is no level. -/
theorem Greedy.tallyFills_eq_zero {beyond : Int64 → Bool} {q : UInt32}
    {queue queue' : List PriceLevel} {fills : List MatchResult}
    (h : Greedy beyond q queue fills queue') (hp : ∀ y ∈ queue, y.priceTicks ≠ p) :
    tallyFills fills p = 0 := by
  refine tally_eq_zero (List.forall_mem_map.mpr fun f hf => ?_)
  obtain ⟨y, hy, hyf⟩ := List.mem_map.mp (h.prices.subset (List.mem_map_of_mem hf))
  exact fun hfp => hp y hy (hyf.trans hfp)

/-- A price is touched only when the levels before it are used up. -/
theorem Greedy.first {beyond : Int64 → Bool} {q : UInt32} {queue queue' : List PriceLevel}
    {fills : List MatchResult} (h : Greedy beyond q queue fills queue')
    (hqueue : queue.Pairwise fun x y => side.Prefers x.priceTicks y.priceTicks) {p' : Int64}
    (hp : side.Prefers p p') (hne : tallyFills fills p' ≠ 0) :
    tallyFills fills p = tally (queue.map PriceLevel.total) p := by
  induction h with
  | filled | empty | stopped => exact absurd rfl hne
  | @part q x rest hq hx hlt =>
    -- the one price touched is that of the front
    have hfront : x.priceTicks = p' := by
      by_contra hfront
      exact hne (tally_eq_zero (by simpa [MatchResult.total] using hfront))
    subst hfront
    have habsent := ne_of_prefers_front hqueue hp
    rw [tally_total_eq_zero habsent,
      (Greedy.part rest hq hx hlt).tallyFills_eq_zero habsent]
  | @whole q x rest queue' fills hq hx hle hrest ih =>
    have htotal := toNat_total hle
    by_cases hfront : x.priceTicks = p'
    · subst hfront
      have habsent := ne_of_prefers_front hqueue hp
      rw [tally_total_eq_zero habsent,
        (Greedy.whole hq hx hle hrest).tallyFills_eq_zero habsent]
    · have hsame : tallyFills fills p = tally (rest.map PriceLevel.total) p := by
        refine ih (List.Pairwise.of_cons hqueue) fun hzero => hne ?_
        show (single x.priceTicks x.totalQuantity.toUInt32.toNat + tallyFills fills) p' = 0
        rw [Finsupp.add_apply, hzero, Finsupp.single_eq_of_ne (Ne.symm hfront)]
      show (single x.priceTicks x.totalQuantity.toUInt32.toNat + tallyFills fills) p =
        (single x.priceTicks x.totalQuantity.toNat + tally (rest.map PriceLevel.total)) p
      rw [Finsupp.add_apply, Finsupp.add_apply, hsame, htotal]

end First

/-- The loop serves the order by priority. -/
theorem Greedy.byPriority {side : Side} {priceTicks : Int64} {q : UInt32} {l : FlatPriceLadder}
    {s : MatchLoop} (hl : l.Sorted) (hm : Matched side priceTicks q l s)
    (hg : Greedy (fun p => (Taker.of side).beyond p priceTicks) q (side.queue l) s.fills
      (side.queue s.ladder)) :
    ByPriority side.Prefers (fun p => ¬ side.Prefers priceTicks p) q.toNat l.supply
      (tallyFills s.fills) where
  le p := by
    have hlevels := hm.levels fun p' => p' = p
    rw [tallyFills_apply, FlatPriceLadder.supply_apply, FlatPriceLadder.qtyAt]
    omega
  limit p hne hp := by
    refine hne (tally_eq_zero (List.forall_mem_map.mpr fun f hf => ?_))
    rintro rfl
    have hwithin := hg.within f hf
    have hbeyond := (beyond_iff side f.priceTicks priceTicks).mpr hp
    rw [hbeyond] at hwithin
    cases hwithin
  first p p' hp hne := by
    rw [← FlatPriceLadder.tally_queue side]
    exact hg.first (queue_prefers side hl) hp hne
  total := by
    have hkind : (fun p => !(Taker.of side).beyond p priceTicks) =
        fun p => decide (¬ side.Prefers priceTicks p) := by
      funext p
      rw [Bool.eq_iff_iff, Bool.not_eq_true', decide_eq_true_iff, ← beyond_iff,
        Bool.not_eq_true]
    rw [degree_tallyFills, hm.filled_eq_min hg.within, hkind,
      FlatPriceLadder.degree_filter_supply]

theorem FlatPriceLadder.small_of_totalQty {l : FlatPriceLadder} (h : l.totalQty < 2 ^ 32) :
    l.Small := by
  intro x hx
  exact (List.single_le_sum (fun _ _ => Nat.zero_le _) _ (List.mem_map_of_mem hx)).trans_lt h

/-! ## One call -/

variable {n : PoolSize}

/-- What the ladders of a book show. -/
noncomputable def OrderBook.exchange (b : OrderBook n) : Exchange :=
  ⟨fun side => (b.ladder side).supply⟩

namespace Event

/-- The order a call submits: one that is given a slot. -/
def submission (e : Event n) : Option Submission :=
  match e.call, e.before.freeList.pop.1 with
  | .add side priceTicks quantity type, some _ =>
    if type ≠ .cancel then some ⟨side, priceTicks, quantity.toNat⟩ else none
  | _, _ => none

/-- The call reports what its order trades on the exchange `x`, and nothing if
it submits none. -/
def Executed (x : Exchange) (e : Event n) : Prop :=
  match e.submission with
  | some o => x.Reports o e.fills
  | none => e.fills = []

end Event

section Call

variable {b b' : OrderBook n} {fuel : Nat} {c : Call} {r : Reply}

theorem submission_of_cancels {orderId : UInt64} (hc : c.cancels = some orderId) :
    (⟨b, c, r, b'⟩ : Event n).submission = none := by
  cases c with
  | cancel orderId => rfl
  | add side p q type =>
    cases type with
    | limit => cases hc
    | market => cases hc
    | cancel =>
      unfold Event.submission
      split
      next hcall _ =>
        injection hcall with _ _ _ htype
        exact if_neg fun h => h htype.symm
      next => rfl

theorem submission_refused {side : Side} {p : Int64} {q : UInt32} {type : OrderType}
    (hfree : b.freeList.contents = []) :
    (⟨b, .add side p q type, r, b'⟩ : Event n).submission = none := by
  unfold Event.submission
  simp only [SpscQueue.pop_of_nil hfree]

theorem submission_placed {side : Side} {p : Int64} {q : UInt32} {type : OrderType}
    {slot : UInt32} {freeList : SpscQueue UInt32 n.log2} (htype : type ≠ .cancel)
    (hpop : b.freeList.pop = (some slot, freeList)) :
    (⟨b, .add side p q type, r, b'⟩ : Event n).submission = some ⟨side, p, q.toNat⟩ := by
  unfold Event.submission
  simp only [hpop]
  exact if_pos htype

/-- A call that submits and reports nothing and moves nothing. -/
theorem exchange_unseen (hnone : (⟨b, c, r, b'⟩ : Event n).submission = none)
    (hfills : (⟨b, c, r, b'⟩ : Event n).fills = [])
    (hsame : ∀ side p, (b'.ladder side).qtyAt p = (b.ladder side).qtyAt p) :
    (⟨b, c, r, b'⟩ : Event n).Executed b.exchange ∧
      b'.exchange =
        ((⟨b, c, r, b'⟩ : Event n).submission.map b.exchange.submit).getD b.exchange := by
  unfold Event.Executed
  rw [hnone]
  refine ⟨hfills, congrArg Exchange.mk (funext fun side => ?_)⟩
  exact FlatPriceLadder.supply_congr (hsame side)

variable {side : Side} {p : Int64} {q : UInt32} {slot : UInt32}
  {freeList : SpscQueue UInt32 n.log2} {s : MatchLoop}

/-- The exchange a placed order leaves. -/
theorem submit_placed (hwf : Wf b) (hm : Matched side p q (b.ladder side.opposite) s)
    (hp : OrderBook.Placed b side p slot freeList s b')
    (hbound : (b.ladder side).totalQty + q.toNat < 2 ^ 64)
    (htrades : tallyFills s.fills = b.exchange.trades ⟨side, p, q.toNat⟩) :
    b'.exchange = b.exchange.submit ⟨side, p, q.toNat⟩ := by
  have hquantity := hm.quantity
  have hat := FlatPriceLadder.qtyWhere_le_totalQty (fun p' => p' = p) (b.ladder side)
  have hflow := flow_placed hwf hm hp (fun _ => by rw [FlatPriceLadder.qtyAt]; omega)
  refine congrArg Exchange.mk (funext fun side' => ?_)
  ext p'
  obtain ⟨hown, hopp⟩ := hflow fun p'' => p'' = p'
  show (b'.ladder side').supply p' = (if side' = side then
    b.exchange.resting side' + single p (q.toNat - (b.exchange.trades ⟨side, p, q.toNat⟩).degree)
    else b.exchange.resting side' - b.exchange.trades ⟨side, p, q.toNat⟩ : Int64 →₀ ℕ) p'
  rw [← htrades, degree_tallyFills, FlatPriceLadder.supply_apply]
  rcases Side.eq_or_opposite side side' with rfl | rfl
  · rw [if_pos rfl, Finsupp.add_apply, Finsupp.single_apply]
    show _ = (b.ladder side').supply p' + _
    rw [FlatPriceLadder.supply_apply, FlatPriceLadder.qtyAt, hown]
    simp only [decide_eq_true_eq]
    split
    · omega
    · rfl
  · rw [if_neg side.opposite_ne, Finsupp.tsub_apply, tallyFills_apply]
    show _ = (b.ladder side.opposite).supply p' - _
    rw [FlatPriceLadder.supply_apply, FlatPriceLadder.qtyAt]
    omega

/-- One call, on a book whose ladders hold fewer than `2^32` units: it executes
what it submits on the exchange the ladders show, and leaves what the exchange
leaves. -/
theorem exchange_outcome (hwf : Wf b)
    (hpos : ∀ side, ∀ x ∈ (b.ladder side).levels, x.totalQuantity ≠ 0)
    (hsmall : ∀ side, (b.ladder side).totalQty < 2 ^ 32)
    (hexec : b.exec fuel c = some (r, b')) :
    (⟨b, c, r, b'⟩ : Event n).Executed b.exchange ∧
      b'.exchange =
        ((⟨b, c, r, b'⟩ : Event n).submission.map b.exchange.submit).getD b.exchange := by
  have hout := OrderBook.exec_outcome hexec
  have hmoved := fun {orderId} (hc : c.cancels = some orderId) side p =>
    qtyWhere_cancel hwf hc hout side fun p' => p' = p
  cases hout with
  | idle hc | released hc =>
    exact exchange_unseen (submission_of_cancels hc) (fills_of_cancels hexec hc) (hmoved hc)
  | refused _ hfree =>
    exact exchange_unseen (submission_refused hfree) rfl fun side p => by cases side <;> rfl
  | @placed side p q type slot freeList s _ htype hpop hs hp =>
    have hsorted := hwf.sorted side.opposite
    have hm := matching_matched hsorted hs
    have hg := greedy_of_matching hsorted hs
    have htrades : tallyFills s.fills = b.exchange.trades ⟨side, p, q.toNat⟩ :=
      (hg.byPriority hsorted hm).eq_allot
    have hbound : (b.ladder side).totalQty + q.toNat < 2 ^ 64 := by
      have hown := hsmall side
      have hq := q.toNat_lt
      omega
    unfold Event.Executed
    rw [submission_placed htype hpop]
    exact ⟨⟨htrades, hg.ordered hsorted, hg.allPositive fun x hx => hpos _ x (mem_queue.mp hx)⟩,
      submit_placed hwf hm hp hbound htrades⟩

end Call

/-! ## Whole runs -/

/-- The orders a history submitted, the newest first. -/
def submissions (h : List (Event n)) : List Submission := h.filterMap Event.submission

/-- The quantity a history submitted. -/
def submittedQty (h : List (Event n)) : ℕ := ((submissions h).map (·.quantity)).sum

theorem submittedQty_le_cons (e : Event n) (h : List (Event n)) :
    submittedQty h ≤ submittedQty (e :: h) := by
  unfold submittedQty submissions
  rw [List.filterMap_cons]
  cases e.submission with
  | none => exact le_rfl
  | some o => exact Nat.le_add_left _ _

theorem after_cons (e : Event n) (h : List (Event n)) :
    Exchange.after (submissions (e :: h)) =
      (e.submission.map (Exchange.after (submissions h)).submit).getD
        (Exchange.after (submissions h)) := by
  unfold submissions
  rw [List.filterMap_cons]
  cases e.submission with
  | none => rfl
  | some o => rfl

theorem exchange_new (n : PoolSize) (symbolId : UInt32) :
    (OrderBook.new n symbolId).exchange = Exchange.empty := by
  refine congrArg Exchange.mk (funext fun side => ?_)
  rw [ladder_new]
  rfl

/-- A ladder holds no more than was submitted. -/
theorem totalQty_le_submitted {h : List (Event n)} {b : OrderBook n}
    (hx : b.exchange = Exchange.after (submissions h)) (side : Side) :
    (b.ladder side).totalQty ≤ submittedQty h := by
  have hle := Exchange.degree_after_le (submissions h) side
  rw [← hx] at hle
  rw [← FlatPriceLadder.degree_supply]
  exact hle

/-- The ladders show what rests on the exchange, and have no empty level. -/
theorem exchange_run {h : List (Event n)} {b : OrderBook n} (hrun : Run h b)
    (hqty : submittedQty h < 2 ^ 32) :
    b.exchange = Exchange.after (submissions h) ∧
      ∀ side, ∀ x ∈ (b.ladder side).levels, x.totalQuantity ≠ 0 := by
  induction hrun with
  | new symbolId =>
    refine ⟨exchange_new _ _, fun side => ?_⟩
    rw [ladder_new]
    simp
  | @call h b b' c r fuel hrun hexec ih =>
    have hle := submittedQty_le_cons (⟨b, c, r, b'⟩ : Event n) h
    obtain ⟨hx, hpos⟩ := ih (by omega)
    have hsmall : ∀ side, (b.ladder side).totalQty < 2 ^ 32 := fun side =>
      (totalQty_le_submitted hx side).trans_lt (by omega)
    have hwf := wf_run hrun
    refine ⟨?_, fun side => ?_⟩
    · rw [(exchange_outcome hwf hpos hsmall hexec).2, hx, after_cons]
    · refine positive_outcome hwf (fun side => ?_) hpos (OrderBook.exec_outcome hexec) side
      have hlt := hsmall side
      omega

theorem submittedQty_le_append (later h : List (Event n)) :
    submittedQty h ≤ submittedQty (later ++ h) := by
  induction later with
  | nil => exact le_rfl
  | cons e later ih => exact ih.trans (submittedQty_le_cons e (later ++ h))

/-- **The book is an exchange.** After every run whose accepted orders bring
fewer than `2^32` units in all, the ladders show what rests on the exchange to
which these orders were submitted; and each call of the run reported the trades
its order made there, best price first and none of quantity 0, or nothing if it
submitted none. -/
theorem run_refines_exchange {h : List (Event n)} {b : OrderBook n} (hrun : Run h b)
    (hqty : submittedQty h < 2 ^ 32) :
    b.exchange = Exchange.after (submissions h) ∧
      ∀ (later earlier : List (Event n)) (e : Event n), h = later ++ e :: earlier →
        e.Executed (Exchange.after (submissions earlier)) := by
  refine ⟨(exchange_run hrun hqty).1, ?_⟩
  rintro later earlier e rfl
  obtain ⟨hearlier, fuel, hexec⟩ := hrun.split
  have hle : submittedQty earlier < 2 ^ 32 :=
    ((submittedQty_le_cons e earlier).trans (submittedQty_le_append later _)).trans_lt hqty
  obtain ⟨hx, hpos⟩ := exchange_run hearlier hle
  rw [← hx]
  exact (exchange_outcome (wf_run hearlier) hpos
    (fun side => (totalQty_le_submitted hx side).trans_lt hle) hexec).1

/-- A sell order of 100 that takes a bid of 40, then a buyer of 25. -/
theorem run_refines_exchange_part_fills :
    submittedQty partFills.1 = 165 ∧
      partFills.2.exchange =
        Exchange.after [⟨.buy, 9950, 25⟩, ⟨.sell, 9950, 100⟩, ⟨.buy, 10000, 40⟩] := by
  have hrun : Run partFills.1 partFills.2 := run_played _
  have hsubs : submissions partFills.1 =
      [⟨.buy, 9950, 25⟩, ⟨.sell, 9950, 100⟩, ⟨.buy, 10000, 40⟩] := rfl
  have hqty : submittedQty partFills.1 = 165 := by
    rw [submittedQty, hsubs]
    rfl
  have hrefines := (run_refines_exchange hrun (by omega)).1
  rw [hsubs] at hrefines
  exact ⟨hqty, hrefines⟩

end HftEngine
