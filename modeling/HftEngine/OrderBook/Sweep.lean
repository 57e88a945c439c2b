import HftEngine.OrderBook.Step

/-!
# The matching loop as a sweep

An order of either side takes the levels of the opposite ladder in the order
of its own preference: asks from the front, bids from the back.
`Side.queue side l` is the ladder in that order, and `sweepStep` is the body
of the matching loop on such a queue: the head is filled and stays, or is
used up and leaves.

`matching_sweeps` says that on a sorted ladder each of the two loops of the
source is this one sweep, seen through `queue`.  What a sweep does is then
stated once for both sides:

* `Swept` — quantity is neither made nor lost, at any price; the levels left
  are a final segment of the queue; none of them is empty if none was;
* `Matched` — the same of the ladder, and that a loop which ends with
  quantity left has nothing more to trade with.
-/

namespace HftEngine

open Lib

/-- The levels of a ladder in the order in which an order of side `side`
takes them. -/
def Side.queue (side : Side) (l : FlatPriceLadder) : List PriceLevel :=
  match side with
  | .buy => l.levels
  | .sell => l.levels.reverse

/-- The variables of a matching loop, the ladder as a queue. -/
structure Sweep where
  quantity : UInt32
  queue : List PriceLevel
  fills : List MatchResult

def MatchLoop.sweep (side : Side) (s : MatchLoop) : Sweep :=
  ⟨s.quantity, side.queue s.ladder, s.fills⟩

/-- The matching loop's body on a queue. -/
def sweepStep (beyond : Int64 → Bool) (s : Sweep) : Option Sweep :=
  if s.quantity > 0 then
    match s.queue with
    | [] => none
    | level :: rest =>
      if beyond level.priceTicks then none
      else
        let qty := fillQty s.quantity level
        some
          { quantity := s.quantity - qty
            queue := if (level.fill qty).totalQuantity = 0 then rest else level.fill qty :: rest
            fills := s.fills ++ [⟨0, 0, level.priceTicks, qty⟩] }
  else none

/-! ## One fill -/

section Fill

variable (quantity : UInt32) (level : PriceLevel)

theorem toNat_fillQty :
    (fillQty quantity level).toNat = min quantity.toNat (level.totalQuantity.toNat % 2 ^ 32) := by
  rw [fillQty, UInt32.toNat_min, UInt64.toNat_toUInt32]

/-- The aggressor's subtraction does not wrap. -/
theorem toNat_sub_fillQty :
    (quantity - fillQty quantity level).toNat + (fillQty quantity level).toNat =
      quantity.toNat := by
  have hle : (fillQty quantity level).toNat ≤ quantity.toNat := by
    rw [toNat_fillQty]
    exact Nat.min_le_left _ _
  rw [UInt32.toNat_sub_of_le _ _ (UInt32.le_iff_toNat_le.mpr hle)]
  omega

/-- A fill of no more than the level holds does not wrap. -/
theorem PriceLevel.toNat_fill {level : PriceLevel} {qty : UInt32}
    (h : qty.toNat ≤ level.totalQuantity.toNat) :
    (level.fill qty).totalQuantity.toNat = level.totalQuantity.toNat - qty.toNat := by
  have hle : qty.toUInt64 ≤ level.totalQuantity := by
    rw [UInt64.le_iff_toNat_le, UInt32.toNat_toUInt64]
    exact h
  rw [PriceLevel.fill, UInt64.toNat_sub_of_le _ _ hle, UInt32.toNat_toUInt64]

/-- The level's subtraction does not wrap. -/
theorem toNat_fill_fillQty :
    (level.fill (fillQty quantity level)).totalQuantity.toNat + (fillQty quantity level).toNat =
      level.totalQuantity.toNat := by
  have hle : (fillQty quantity level).toNat ≤ level.totalQuantity.toNat := by
    rw [toNat_fillQty]
    exact (Nat.min_le_right _ _).trans (Nat.mod_le _ _)
  rw [PriceLevel.toNat_fill hle]
  omega

end Fill

/-! ## The two loops are one sweep -/

theorem top_eq (side : Side) (l : FlatPriceLadder) :
    (Taker.of side).top l = (side.queue l).head? := by
  cases side with
  | buy => rfl
  | sell => exact List.head?_reverse.symm

/-- Writing a level at the head of the queue and offering it to
`remove_if_empty` replaces the head, or drops it if it is empty. -/
theorem write_queue {side : Side} {l : FlatPriceLadder} (h : l.Sorted) {x y : PriceLevel}
    {rest : List PriceLevel} (hq : side.queue l = x :: rest) (hy : y.priceTicks = x.priceTicks) :
    side.queue (((Taker.of side).write l y).removeIfEmpty y.priceTicks) =
        (if y.totalQuantity = 0 then rest else y :: rest) ∧
      (((Taker.of side).write l y).removeIfEmpty y.priceTicks).Sorted := by
  cases side with
  | buy =>
    have hl : l.levels = x :: rest := hq
    have hfill : (((Taker.of .buy).write l y).removeIfEmpty y.priceTicks).levels =
        if y.totalQuantity = 0 then rest else y :: rest := FlatPriceLadder.fill_worst hl
    refine ⟨hfill, ?_⟩
    rw [FlatPriceLadder.Sorted, hl] at h
    rw [FlatPriceLadder.Sorted, hfill]
    split
    · exact List.Pairwise.of_cons h
    · exact SortedList.ascending_replace [] h hy
  | sell =>
    -- bids are taken from the back, so the queue is the vector reversed
    have hl : l.levels = rest.reverse ++ [x] := by
      have hrev : l.levels.reverse = x :: rest := hq
      rw [← List.reverse_reverse l.levels, hrev, List.reverse_cons]
    have hfill : (((Taker.of .sell).write l y).removeIfEmpty y.priceTicks).levels =
        if y.totalQuantity = 0 then rest.reverse else rest.reverse ++ [y] :=
      FlatPriceLadder.fill_best h hl hy
    refine ⟨?_, ?_⟩
    · show (((Taker.of .sell).write l y).removeIfEmpty y.priceTicks).levels.reverse = _
      rw [hfill]
      split <;> simp
    · rw [FlatPriceLadder.Sorted, hl] at h
      rw [FlatPriceLadder.Sorted, hfill]
      split
      · exact (List.pairwise_append.mp h).1
      · exact SortedList.ascending_replace _ h hy

/-- What an iteration does. -/
theorem matchStep_eq_some {t : Taker} {priceTicks : Int64} {s s' : MatchLoop}
    (h : matchStep t priceTicks s = some s') :
    ∃ level, t.top s.ladder = some level ∧ s' =
      { quantity := s.quantity - fillQty s.quantity level
        ladder := (t.write s.ladder (level.fill (fillQty s.quantity level))).removeIfEmpty
          level.priceTicks
        fills := s.fills ++ [⟨0, 0, level.priceTicks, fillQty s.quantity level⟩] } := by
  unfold matchStep at h
  split at h
  · split at h
    · cases h
    · rename_i level htop
      split at h
      · cases h
      · cases h
        exact ⟨level, htop, rfl⟩
  · cases h

/-- One iteration of either loop, seen through the queue, is one step of the
sweep, and leaves the ladder sorted. -/
theorem matchStep_sweep (side : Side) (priceTicks : Int64) {s : MatchLoop}
    (h : s.ladder.Sorted) :
    (matchStep (Taker.of side) priceTicks s).map (MatchLoop.sweep side) =
        sweepStep (fun p => (Taker.of side).beyond p priceTicks) (s.sweep side) ∧
      ∀ s', matchStep (Taker.of side) priceTicks s = some s' → s'.ladder.Sorted := by
  unfold matchStep sweepStep
  rw [top_eq]
  by_cases hpos : s.quantity > 0
  · have hpos' : (s.sweep side).quantity > 0 := hpos
    rw [if_pos hpos, if_pos hpos']
    cases hq : side.queue s.ladder with
    | nil => simp [MatchLoop.sweep, hq]
    | cons x rest =>
      simp only [MatchLoop.sweep, hq, List.head?_cons]
      by_cases hbeyond : (Taker.of side).beyond x.priceTicks priceTicks = true
      · simp [hbeyond]
      · obtain ⟨hqueue, hsorted⟩ := write_queue h hq (y := x.fill (fillQty s.quantity x)) rfl
        have hprice : (x.fill (fillQty s.quantity x)).priceTicks = x.priceTicks := rfl
        rw [hprice] at hqueue hsorted
        simp only [if_neg hbeyond, Option.map_some, MatchLoop.sweep, hqueue]
        refine ⟨trivial, ?_⟩
        intro s' hs'
        injection hs' with hs'
        rw [← hs']
        exact hsorted
  · have hpos' : ¬(s.sweep side).quantity > 0 := hpos
    rw [if_neg hpos, if_neg hpos']
    simp

/-- The matching loop of `add_order` on a sorted ladder is a sweep of the
ladder's queue, and leaves the ladder sorted. -/
theorem matching_sweeps {n : PoolSize} (b : OrderBook n) (side : Side) (priceTicks : Int64)
    (quantity : UInt32) (h : (b.ladder side.opposite).Sorted) (fuel : Nat) :
    (b.matching fuel side priceTicks quantity).map (MatchLoop.sweep side) =
        loop (sweepStep fun p => (Taker.of side).beyond p priceTicks) fuel
          ⟨quantity, side.queue (b.ladder side.opposite), []⟩ ∧
      ∀ s, b.matching fuel side priceTicks quantity = some s → s.ladder.Sorted := by
  have hinv : ∀ s s' : MatchLoop, s.ladder.Sorted →
      matchStep (Taker.of side) priceTicks s = some s' → s'.ladder.Sorted :=
    fun s s' hs => (matchStep_sweep side priceTicks hs).2 s'
  refine ⟨?_, ?_⟩
  · exact loop_simulates (MatchLoop.sweep side) hinv
      (fun s hs => (matchStep_sweep side priceTicks hs).1) fuel h
  · intro s hs
    exact (loop_invariant hinv h hs).1

/-! ## What a sweep does -/

/-- The quantity of the match results at prices of a kind. -/
def filledWhere (kind : Int64 → Bool) (fills : List MatchResult) : Nat :=
  ((fills.filter fun f => kind f.priceTicks).map (·.quantity.toNat)).sum

/-- The quantity of all match results. -/
def filledQty (fills : List MatchResult) : Nat := (fills.map (·.quantity.toNat)).sum

theorem filledWhere_concat (kind : Int64 → Bool) (fills : List MatchResult) (f : MatchResult) :
    filledWhere kind (fills ++ [f]) =
      filledWhere kind fills + if kind f.priceTicks then f.quantity.toNat else 0 := by
  unfold filledWhere
  rw [List.filter_append, List.map_append, List.sum_append]
  cases hk : kind f.priceTicks <;> simp [hk]

theorem filledQty_eq (fills : List MatchResult) :
    filledQty fills = filledWhere (fun _ => true) fills := by
  simp [filledQty, filledWhere]

/-- What holds between an earlier and a later state of one sweep. -/
structure Swept (s s' : Sweep) : Prop where
  quantity : filledQty s'.fills + s'.quantity.toNat = filledQty s.fills + s.quantity.toNat
  levels : ∀ kind, filledWhere kind s'.fills + qtyIn kind s'.queue =
    filledWhere kind s.fills + qtyIn kind s.queue
  prices : s'.queue.map (·.priceTicks) <:+ s.queue.map (·.priceTicks)
  positive : (∀ x ∈ s.queue, x.totalQuantity ≠ 0) → ∀ x ∈ s'.queue, x.totalQuantity ≠ 0
  fills : s.fills <+: s'.fills

theorem Swept.refl (s : Sweep) : Swept s s :=
  ⟨rfl, fun _ => rfl, List.suffix_rfl, fun h => h, List.prefix_rfl⟩

theorem Swept.trans {s s' s'' : Sweep} (h : Swept s s') (h' : Swept s' s'') : Swept s s'' :=
  ⟨h'.quantity.trans h.quantity, fun kind => (h'.levels kind).trans (h.levels kind),
    h'.prices.trans h.prices, fun hp => h'.positive (h.positive hp), h.fills.trans h'.fills⟩

section Steps

variable {beyond : Int64 → Bool} {s s' : Sweep}

/-- What one step of a sweep does. -/
theorem sweepStep_cases (h : sweepStep beyond s = some s') :
    ∃ x rest, s.quantity > 0 ∧ s.queue = x :: rest ∧ beyond x.priceTicks = false ∧
      s' = ⟨s.quantity - fillQty s.quantity x,
        if (x.fill (fillQty s.quantity x)).totalQuantity = 0 then rest
        else x.fill (fillQty s.quantity x) :: rest,
        s.fills ++ [⟨0, 0, x.priceTicks, fillQty s.quantity x⟩]⟩ := by
  unfold sweepStep at h
  by_cases hpos : s.quantity > 0
  · rw [if_pos hpos] at h
    cases hq : s.queue with
    | nil => simp [hq] at h
    | cons x rest =>
      rw [hq] at h
      cases hbeyond : beyond x.priceTicks with
      | true => simp [hbeyond] at h
      | false =>
        simp only [hbeyond, Bool.false_eq_true, if_false, Option.some.injEq] at h
        exact ⟨x, rest, hpos, rfl, hbeyond, h.symm⟩
  · rw [if_neg hpos] at h
    cases h

/-- Where a sweep stops. -/
theorem sweepStep_none (h : sweepStep beyond s = none) :
    s.quantity = 0 ∨ s.queue = [] ∨ ∃ x rest, s.queue = x :: rest ∧ beyond x.priceTicks = true := by
  unfold sweepStep at h
  by_cases hpos : s.quantity > 0
  · rw [if_pos hpos] at h
    cases hq : s.queue with
    | nil => exact .inr (.inl rfl)
    | cons x rest =>
      rw [hq] at h
      cases hbeyond : beyond x.priceTicks with
      | true => exact .inr (.inr ⟨x, rest, rfl, hbeyond⟩)
      | false => simp [hbeyond] at h
  · refine .inl (UInt32.toNat_inj.mp ?_)
    rw [gt_iff_lt, UInt32.lt_iff_toNat_lt] at hpos
    simpa using hpos

theorem swept_step (h : sweepStep beyond s = some s') : Swept s s' := by
  obtain ⟨x, rest, _, hq, _, rfl⟩ := sweepStep_cases h
  have hquantity := toNat_sub_fillQty s.quantity x
  have htotal := toNat_fill_fillQty s.quantity x
  refine ⟨?_, ?_, ?_, ?_, ?_⟩
  · rw [filledQty_eq, filledQty_eq, filledWhere_concat]
    simp only [if_true]
    omega
  · intro kind
    rw [filledWhere_concat, hq, qtyIn_cons]
    by_cases hzero : (x.fill (fillQty s.quantity x)).totalQuantity = 0
    · -- the level is used up, so the fill was all it had
      have hall : (fillQty s.quantity x).toNat = x.totalQuantity.toNat := by
        rw [hzero] at htotal
        simpa using htotal
      simp only [hzero, if_true]
      split <;> omega
    · simp only [hzero, if_false, qtyIn_cons]
      show _ + ((if kind x.priceTicks then _ else 0) + _) = _
      split <;> omega
  · rw [hq]
    by_cases hzero : (x.fill (fillQty s.quantity x)).totalQuantity = 0
    · simp only [hzero, if_true, List.map_cons]
      exact List.suffix_cons _ _
    · simp only [hzero, if_false, List.map_cons]
      exact List.suffix_rfl
  · intro hpos y hy
    rw [hq] at hpos
    by_cases hzero : (x.fill (fillQty s.quantity x)).totalQuantity = 0
    · simp only [hzero, if_true] at hy
      exact hpos y (List.mem_cons_of_mem _ hy)
    · simp only [hzero, if_false] at hy
      rcases List.mem_cons.mp hy with rfl | hy
      · exact hzero
      · exact hpos y (List.mem_cons_of_mem _ hy)
  · exact List.prefix_append _ _

/-- A whole sweep, and where it stopped. -/
theorem swept_loop {fuel : Nat} (h : loop (sweepStep beyond) fuel s = some s') :
    Swept s s' ∧ sweepStep beyond s' = none :=
  loop_invariant (fun _ _ hs hstep => hs.trans (swept_step hstep)) (Swept.refl s) h

end Steps

/-! ## What matching does to a ladder -/

section Queue

variable {side : Side} {l : FlatPriceLadder}

theorem mem_queue {x : PriceLevel} : x ∈ side.queue l ↔ x ∈ l.levels := by
  cases side with
  | buy => exact Iff.rfl
  | sell => exact List.mem_reverse

theorem qtyIn_queue (kind : Int64 → Bool) : qtyIn kind (side.queue l) = l.qtyWhere kind := by
  cases side with
  | buy => rfl
  | sell => exact qtyIn_reverse kind l.levels

/-- Along the queue of a sorted ladder, once a level is beyond the limit all
later ones are. -/
theorem queue_beyond (side : Side) (h : l.Sorted) (priceTicks : Int64) :
    (side.queue l).Pairwise fun x y =>
      (Taker.of side).beyond x.priceTicks priceTicks = true →
        (Taker.of side).beyond y.priceTicks priceTicks = true := by
  cases side with
  | buy =>
    refine List.Pairwise.imp ?_ h
    intro x y hxy hx
    have hlt : priceTicks < x.priceTicks := of_decide_eq_true hx
    exact decide_eq_true (hlt.trans hxy)
  | sell =>
    show l.levels.reverse.Pairwise _
    rw [List.pairwise_reverse]
    refine List.Pairwise.imp ?_ h
    intro x y hxy hy
    have hlt : y.priceTicks < priceTicks := of_decide_eq_true hy
    exact decide_eq_true (hxy.trans hlt)

end Queue

/-- The effect of a matching loop of side `side` with limit `priceTicks` that
took `quantity` to the ladder `l` and ended in `s`. -/
structure Matched (side : Side) (priceTicks : Int64) (quantity : UInt32) (l : FlatPriceLadder)
    (s : MatchLoop) : Prop where
  sorted : s.ladder.Sorted
  quantity : filledQty s.fills + s.quantity.toNat = quantity.toNat
  levels : ∀ kind, filledWhere kind s.fills + s.ladder.qtyWhere kind = l.qtyWhere kind
  prices : ∀ x ∈ s.ladder.levels, ∃ y ∈ l.levels, y.priceTicks = x.priceTicks
  positive : (∀ x ∈ l.levels, x.totalQuantity ≠ 0) → ∀ x ∈ s.ladder.levels, x.totalQuantity ≠ 0
  exit : s.quantity ≠ 0 → ∀ x ∈ s.ladder.levels,
    (Taker.of side).beyond x.priceTicks priceTicks = true

theorem matching_matched {n : PoolSize} {b : OrderBook n} {side : Side} {priceTicks : Int64}
    {quantity : UInt32} (h : (b.ladder side.opposite).Sorted) {fuel : Nat} {s : MatchLoop}
    (hs : b.matching fuel side priceTicks quantity = some s) :
    Matched side priceTicks quantity (b.ladder side.opposite) s := by
  obtain ⟨hview, hkeep⟩ := matching_sweeps b side priceTicks quantity h fuel
  have hsorted := hkeep s hs
  rw [hs] at hview
  obtain ⟨hswept, hexit⟩ := swept_loop hview.symm
  refine ⟨hsorted, ?_, ?_, ?_, ?_, ?_⟩
  · have hq := hswept.quantity
    simp only [MatchLoop.sweep, filledQty, List.map_nil, List.sum_nil, Nat.zero_add] at hq
    exact hq
  · intro kind
    have hk := hswept.levels kind
    simp only [MatchLoop.sweep, qtyIn_queue] at hk
    rw [hk]
    simp [filledWhere]
  · intro x hx
    have hmem : x.priceTicks ∈ (side.queue s.ladder).map (·.priceTicks) :=
      List.mem_map_of_mem (mem_queue.mpr hx)
    obtain ⟨y, hy, hyx⟩ := List.mem_map.mp (hswept.prices.subset hmem)
    exact ⟨y, mem_queue.mp hy, hyx⟩
  · intro hpos x hx
    exact hswept.positive (fun y hy => hpos y (mem_queue.mp hy)) x (mem_queue.mpr hx)
  · intro hne x hx
    rcases sweepStep_none hexit with hzero | hnil | ⟨y, rest, hq, hy⟩
    · exact absurd hzero hne
    · have hmem : x ∈ side.queue s.ladder := mem_queue.mpr hx
      have hnil : side.queue s.ladder = [] := hnil
      rw [hnil] at hmem
      exact absurd hmem (by simp)
    · have hq : side.queue s.ladder = y :: rest := hq
      have hmem : x ∈ side.queue s.ladder := mem_queue.mpr hx
      have hpair := queue_beyond side hsorted priceTicks
      rw [hq] at hmem hpair
      rcases List.mem_cons.mp hmem with rfl | hmem
      · exact hy
      · exact (List.pairwise_cons.mp hpair).1 x hmem hy

end HftEngine
