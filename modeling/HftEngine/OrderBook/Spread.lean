import HftEngine.OrderBook.Flow
import HftEngine.OrderBook.Passive

/-!
# The spread

`spread_ticks` subtracts the best bid from the best ask as 64-bit integers.  A
book is never crossed, so the difference is positive; but prices are not
checked, and two of them can be `2^63` or more apart.  There the subtraction
overflows, and what it wraps to is negative (`spread_exact_iff`).
-/

namespace HftEngine

variable {n : PoolSize} {h : List (Event n)} {b : OrderBook n}

namespace FlatPriceLadder

/-- The lowest price of a ladder. -/
def IsLowest (l : FlatPriceLadder) (p : Int64) : Prop :=
  (∃ x ∈ l.levels, x.priceTicks = p) ∧ ∀ x ∈ l.levels, p ≤ x.priceTicks

/-- The highest price of a ladder. -/
def IsHighest (l : FlatPriceLadder) (p : Int64) : Prop :=
  (∃ x ∈ l.levels, x.priceTicks = p) ∧ ∀ x ∈ l.levels, x.priceTicks ≤ p

variable {l : FlatPriceLadder} {p : Int64}

/-- On a sorted ladder, `worst` has the lowest price. -/
theorem IsLowest.worst (h : l.Sorted) (hp : l.IsLowest p) :
    ∃ x, l.worst = some x ∧ x.priceTicks = p := by
  obtain ⟨⟨x, hx, rfl⟩, hlow⟩ := hp
  rw [Sorted] at h
  cases hl : l.levels with
  | nil =>
    rw [hl] at hx
    cases hx
  | cons y rest =>
    refine ⟨y, by rw [FlatPriceLadder.worst, hl]; rfl, ?_⟩
    have hyx := hlow y (by rw [hl]; exact List.mem_cons_self)
    rw [hl] at hx h
    rcases List.mem_cons.mp hx with rfl | hx
    · rfl
    · have hxy := (List.pairwise_cons.mp h).1 x hx
      exact absurd hyx (Int64.not_le.mpr hxy)

/-- On a sorted ladder, `best` has the highest price. -/
theorem IsHighest.best (h : l.Sorted) (hp : l.IsHighest p) :
    ∃ x, l.best = some x ∧ x.priceTicks = p := by
  obtain ⟨⟨x, hx, rfl⟩, hhigh⟩ := hp
  rw [Sorted] at h
  rcases List.eq_nil_or_concat l.levels with hl | ⟨rest, y, hl⟩
  · rw [hl] at hx
    cases hx
  · rw [List.concat_eq_append] at hl
    refine ⟨y, by rw [FlatPriceLadder.best, hl]; simp, ?_⟩
    have hyx := hhigh y (by rw [hl]; simp)
    rw [hl] at hx h
    rcases List.mem_append.mp hx with hx | hx
    · have hxy := (List.pairwise_append.mp h).2.2 x hx y (List.mem_singleton.mpr rfl)
      exact absurd hyx (Int64.not_le.mpr hxy)
    · rw [List.mem_singleton.mp hx]

end FlatPriceLadder

/-- The spread of two prices, with the bid below the ask. -/
theorem spread_sub {bid ask : Int64} (hlt : bid < ask) :
    ((ask - bid).toInt = ask.toInt - bid.toInt ∧ 0 < ask - bid) ↔
      ask.toInt - bid.toInt < 2 ^ 63 := by
  rw [Int64.lt_iff_toInt_lt] at hlt
  have hupper := Int64.toInt_lt (ask - bid)
  rw [Int64.lt_iff_toInt_lt, Int64.toInt_zero]
  constructor
  · rintro ⟨heq, _⟩
    omega
  · intro hfits
    have heq : (ask - bid).toInt = ask.toInt - bid.toInt := by
      rw [Int64.toInt_sub]
      exact Int.bmod_eq_of_le (by omega) (by omega)
    rw [heq]
    omega

/-- **When the spread is exact.** In every book a run can reach, `spread_ticks`
is the difference of the lowest ask and the highest bid, and positive, if both
exist, and `INT64_MAX` otherwise, exactly if this difference is below `2^63`,
that is, if the subtraction does not overflow. -/
theorem spread_exact_iff (hrun : Run h b) :
    ((∀ bid ask, b.bids.IsHighest bid → b.asks.IsLowest ask →
        b.spreadTicks.toInt = ask.toInt - bid.toInt ∧ 0 < b.spreadTicks) ∧
      (b.bids.levels = [] ∨ b.asks.levels = [] → b.spreadTicks = Int64.maxValue)) ↔
    ∀ bid ask, b.bids.IsHighest bid → b.asks.IsLowest ask → ask.toInt - bid.toInt < 2 ^ 63 := by
  have hwf := wf_run hrun
  have hboth : ∀ bid ask, b.bids.IsHighest bid → b.asks.IsLowest ask →
      b.spreadTicks = ask - bid ∧ bid < ask := by
    intro bid ask hbid hask
    obtain ⟨x, hbest, rfl⟩ := hbid.best (hwf.sorted .buy)
    obtain ⟨y, hworst, rfl⟩ := hask.worst (hwf.sorted .sell)
    have hbest : b.bestBid = some x := hbest
    have hworst : b.bestAsk = some y := hworst
    refine ⟨?_, hwf.uncrossed x (List.mem_of_getLast? hbest) y (List.mem_of_head? hworst)⟩
    rw [OrderBook.spreadTicks, hbest, hworst]
  have hnone : b.bids.levels = [] ∨ b.asks.levels = [] → b.spreadTicks = Int64.maxValue := by
    rintro (hbids | hasks)
    · have hbest : b.bestBid = none := by rw [OrderBook.bestBid, FlatPriceLadder.best, hbids]; rfl
      rw [OrderBook.spreadTicks, hbest]
    · have hworst : b.bestAsk = none := by
        rw [OrderBook.bestAsk, FlatPriceLadder.worst, hasks]
        rfl
      rw [OrderBook.spreadTicks, hworst]
      cases b.bestBid <;> rfl
  constructor
  · rintro ⟨hexact, _⟩ bid ask hbid hask
    obtain ⟨hspread, hlt⟩ := hboth bid ask hbid hask
    have hdiff := hexact bid ask hbid hask
    rw [hspread] at hdiff
    exact (spread_sub hlt).mp hdiff
  · intro hfits
    refine ⟨fun bid ask hbid hask => ?_, hnone⟩
    obtain ⟨hspread, hlt⟩ := hboth bid ask hbid hask
    rw [hspread]
    exact (spread_sub hlt).mpr (hfits bid ask hbid hask)

/-- The book of a bid at 9900 and an ask at 9950. -/
theorem spread_exact_swept_bids :
    sweptBids.2.spreadTicks.toInt = 9950 - 9900 ∧ 0 < sweptBids.2.spreadTicks := by
  have hrun : Run sweptBids.1 sweptBids.2 := run_played _
  have hbids : sweptBids.2.bids.levels = [⟨9900, 30, 1⟩] := rfl
  have hasks : sweptBids.2.asks.levels = [⟨9950, 60, 1⟩] := rfl
  have hbid : sweptBids.2.bids.IsHighest 9900 := by
    simp [FlatPriceLadder.IsHighest, hbids]
  have hask : sweptBids.2.asks.IsLowest 9950 := by
    simp [FlatPriceLadder.IsLowest, hasks]
  refine ((spread_exact_iff hrun).mpr ?_).1 9900 9950 hbid hask
  rintro bid ask ⟨⟨x, hx, rfl⟩, _⟩ ⟨⟨y, hy, rfl⟩, _⟩
  rw [hbids, List.mem_singleton] at hx
  rw [hasks, List.mem_singleton] at hy
  subst hx hy
  decide

/-- An ask at the highest price there is and a bid at -1 are `2^63` apart; the
spread is `INT64_MIN`. -/
theorem spread_overflows :
    ∃ (h : List (Event .default)) (b : OrderBook .default), Run h b ∧
      h.map (·.call) = [.add .buy (-1) 1 .limit, .add .sell Int64.maxValue 1 .limit] ∧
      b.bids.IsHighest (-1) ∧ b.asks.IsLowest Int64.maxValue ∧
      b.spreadTicks = Int64.minValue := by
  obtain ⟨b₁, _, hrun₁, hp₁, hlen, _, _⟩ :=
    Run.first_ask .default (by decide) Int64.maxValue (q := 1) (by decide)
  have hasks₁ : b₁.ladder .sell = ⟨[⟨Int64.maxValue, 1, 1⟩]⟩ := hp₁.own
  have hbids₁ : b₁.ladder .buy = ⟨[]⟩ := hp₁.opposite
  obtain ⟨slot, rest, hfree⟩ := List.exists_cons_of_length_pos (by rw [hlen]; decide)
  have hpassive : b₁.matching 1 .buy (-1) 1 = some ⟨1, ⟨[⟨Int64.maxValue, 1, 1⟩]⟩, []⟩ :=
    matching_of_beyond_only hasks₁ rfl 1 0
  obtain ⟨b₂, _, hrun₂, hp₂, _⟩ := hrun₁.place OrderType.limit_ne_cancel hfree hpassive
  have hasks₂ : b₂.asks.levels = [⟨Int64.maxValue, 1, 1⟩] := by
    have hopp : b₂.asks = ⟨[⟨Int64.maxValue, 1, 1⟩]⟩ := hp₂.opposite
    rw [hopp]
  have hbids₂ : b₂.bids.levels = [⟨-1, 1, 1⟩] := by
    have hown : b₂.bids = (b₁.ladder .buy).upsert (-1) 1 := hp₂.own
    rw [hown, hbids₁]
    rfl
  refine ⟨_, b₂, hrun₂, rfl, ?_, ?_, ?_⟩
  · simp [FlatPriceLadder.IsHighest, hbids₂]
  · simp [FlatPriceLadder.IsLowest, hasks₂]
  · simp only [OrderBook.spreadTicks, OrderBook.bestBid, OrderBook.bestAsk, FlatPriceLadder.best,
      FlatPriceLadder.worst, hbids₂, hasks₂]
    rfl

end HftEngine
