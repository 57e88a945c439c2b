import HftEngine.OrderBook.Sweep

/-!
# Levels by price

What the operations of the book do to a ladder, said through `find`: a sorted
ladder is determined by the level it shows at each price (`ext_find`), so an
operation is described by the level found at each price after it.

* `find_upsert` — the level at the price is joined by one more order, every
  other level is as before;
* `find_removeIfEmpty` — a level still found is the level found before;
* `find_matching` — a matching loop may lower the quantity of a level or take
  the level away, but leaves its order count as it was.
-/

namespace HftEngine

open Lib

/-- A level that one more order of quantity `qty` joins. -/
def PriceLevel.join (level : PriceLevel) (qty : UInt32) : PriceLevel :=
  { level with
    totalQuantity := level.totalQuantity + qty.toUInt64
    orderCount := level.orderCount + 1 }

namespace FlatPriceLadder

variable {l l' : FlatPriceLadder} {p : Int64}

theorem find_eq_some (h : l.Sorted) {x : PriceLevel} :
    l.find p = some x ↔ x ∈ l.levels ∧ x.priceTicks = p := by
  cases SortedList.cut h p with
  | found lo y hi hcut hlb hlo hy hhi =>
    have hfind : l.find p = some y := by
      simp only [find, lowerBound, hlb]
      rw [hcut, SortedList.getElem?_cut]
      exact if_pos hy
    rw [hfind, hcut]
    constructor
    · intro hx
      cases hx
      exact ⟨by simp, hy⟩
    · rintro ⟨hx, hp⟩
      -- `y` is the only level at the price
      rcases List.mem_append.mp hx with hx | hx
      · exact absurd hp (hlo x hx).ne
      · rcases List.mem_cons.mp hx with rfl | hx
        · rfl
        · exact absurd hp (hhi x hx).ne'
  | absent lo hi hcut hlb hlo hhi =>
    have hfind : l.find p = none := by
      simp only [find, lowerBound, hlb]
      have hno := SortedList.getElem?_cut_absent lo hhi
      rw [hcut]
      cases hit : (lo ++ hi)[lo.length]? with
      | none => rfl
      | some y => exact if_neg (hno y hit)
    rw [hfind, hcut]
    constructor
    · exact fun hx => absurd hx (by simp)
    · rintro ⟨hx, hp⟩
      rcases List.mem_append.mp hx with hx | hx
      · exact absurd hp (hlo x hx).ne
      · exact absurd hp (hhi x hx).ne'

theorem find_of_mem (h : l.Sorted) {x : PriceLevel} (hx : x ∈ l.levels) :
    l.find x.priceTicks = some x :=
  (find_eq_some h).mpr ⟨hx, rfl⟩

theorem find_eq_none (h : l.Sorted) : l.find p = none ↔ ∀ x ∈ l.levels, x.priceTicks ≠ p := by
  rw [Option.eq_none_iff_forall_ne_some]
  constructor
  · intro hnone x hx hp
    exact hnone x ((find_eq_some h).mpr ⟨hx, hp⟩)
  · intro hno x hx
    obtain ⟨hmem, hp⟩ := (find_eq_some h).mp hx
    exact hno x hmem hp

/-- A sorted ladder is determined by the level it shows at each price. -/
theorem ext_find (h : l.Sorted) (h' : l'.Sorted) (heq : ∀ p, l.find p = l'.find p) : l = l' := by
  have hmem : ∀ x, x ∈ l.levels ↔ x ∈ l'.levels := by
    intro x
    constructor
    · intro hx
      have hfind := find_of_mem h hx
      rw [heq] at hfind
      exact ((find_eq_some h').mp hfind).1
    · intro hx
      have hfind := find_of_mem h' hx
      rw [← heq] at hfind
      exact ((find_eq_some h).mp hfind).1
  have hlevels : l.levels = l'.levels := SortedList.ascending_ext h h' hmem
  cases l
  cases l'
  exact congrArg FlatPriceLadder.mk hlevels

/-- The quantity a ladder shows at a price is that of the level there. -/
theorem qtyAt_of_find (h : l.Sorted) (p : Int64) :
    l.qtyAt p = ((l.find p).map (·.totalQuantity.toNat)).getD 0 := by
  have hzero : ∀ xs : List PriceLevel, (∀ y ∈ xs, y.priceTicks ≠ p) →
      qtyIn (fun p' => p' = p) xs = 0 := by
    intro xs hxs
    unfold qtyIn
    rw [List.filter_eq_nil_iff.mpr fun y hy => by simpa using hxs y hy]
    rfl
  unfold qtyAt qtyWhere
  cases hfind : l.find p with
  | none =>
    rw [hzero _ ((find_eq_none h).mp hfind)]
    rfl
  | some x =>
    obtain ⟨hx, rfl⟩ := (find_eq_some h).mp hfind
    obtain ⟨lo, hi, hl⟩ := List.append_of_mem hx
    rw [Sorted, hl] at h
    obtain ⟨_, hxhi, hcross⟩ := List.pairwise_append.mp h
    rw [hl, qtyIn_append, qtyIn_cons, hzero lo fun y hy => (hcross y hy x (by simp)).ne,
      hzero hi fun y hy => ((List.pairwise_cons.mp hxhi).1 y hy).ne']
    simp

/-- What a ladder has at a price depends on its levels at that price. -/
theorem find_congr (h : l.Sorted) (h' : l'.Sorted) {p : Int64}
    (hsame : ∀ y : PriceLevel, y.priceTicks = p → (y ∈ l.levels ↔ y ∈ l'.levels)) :
    l.find p = l'.find p := by
  refine Option.ext fun y => ?_
  rw [find_eq_some h, find_eq_some h']
  exact and_congr_left fun hy => hsame y hy

/-- `upsert` adds one order to the level at its price, made if there is none,
and leaves every other level as it is. -/
theorem find_upsert (h : l.Sorted) (p : Int64) (q : UInt32) (p' : Int64) :
    (l.upsert p q).find p' =
      if p' = p then some (((l.find p).getD ⟨p, 0, 0⟩).join q) else l.find p' := by
  have hsorted := sorted_upsert h p q
  rcases upsert_cases h p q with ⟨lo, x, hi, hl, rfl, hlo, hhi, hu⟩ | ⟨lo, hi, hl, hlo, hhi, hu⟩
  · have hx : l.find x.priceTicks = some x := find_of_mem h (by simp [hl])
    by_cases hp : p' = x.priceTicks
    · rw [if_pos hp, hx, find_eq_some hsorted, hu, hp]
      exact ⟨by simp [PriceLevel.join], rfl⟩
    · rw [if_neg hp]
      refine find_congr hsorted h fun y hy => ?_
      -- neither the level that was there nor the one that is now has the price
      have hold : y ≠ x := by
        rintro rfl
        exact hp hy.symm
      rw [hu, hl, List.mem_append, List.mem_append, List.mem_cons, List.mem_cons]
      refine or_congr_right ?_
      rw [or_iff_right hold, or_iff_right]
      rintro rfl
      exact hp hy.symm
  · have hnone : l.find p = none := by
      rw [find_eq_none h, hl]
      intro y hy
      rcases List.mem_append.mp hy with hy | hy
      · exact (hlo y hy).ne
      · exact (hhi y hy).ne'
    by_cases hp : p' = p
    · rw [if_pos hp, hnone, find_eq_some hsorted, hu, hp]
      exact ⟨by simp [PriceLevel.join], rfl⟩
    · rw [if_neg hp]
      refine find_congr hsorted h fun y hy => ?_
      rw [hu, hl, List.mem_append, List.mem_append, List.mem_cons]
      refine or_congr_right ?_
      rw [or_iff_right]
      rintro rfl
      exact hp hy.symm

/-- A level that `remove_if_empty` leaves is a level that was there. -/
theorem find_removeIfEmpty (h : l.Sorted) (p : Int64) {p' : Int64} {x : PriceLevel}
    (hx : (l.removeIfEmpty p).find p' = some x) : l.find p' = some x := by
  rw [find_eq_some (sorted_removeIfEmpty h p)] at hx
  rw [find_eq_some h]
  exact ⟨mem_of_mem_removeIfEmpty h hx.1, hx.2⟩

end FlatPriceLadder

/-- Each level of a sweep's queue was there before, with the same order
count. -/
theorem counts_step {beyond : Int64 → Bool} {s s' : Sweep} (h : sweepStep beyond s = some s') :
    ∀ x ∈ s'.queue, ∃ y ∈ s.queue, y.priceTicks = x.priceTicks ∧ y.orderCount = x.orderCount := by
  obtain ⟨y, rest, _, hq, _, rfl⟩ := sweepStep_cases h
  intro x hx
  rw [hq]
  simp only at hx
  split at hx
  · exact ⟨x, List.mem_cons_of_mem _ hx, rfl, rfl⟩
  · rcases List.mem_cons.mp hx with rfl | hx
    · exact ⟨y, List.mem_cons_self, rfl, rfl⟩
    · exact ⟨x, List.mem_cons_of_mem _ hx, rfl, rfl⟩

/-- A level that a matching loop leaves was there before, with the same order
count. -/
theorem find_matching {n : PoolSize} {b : OrderBook n} {side : Side} {priceTicks : Int64}
    {quantity : UInt32} (h : (b.ladder side.opposite).Sorted) {fuel : Nat} {s : MatchLoop}
    (hs : b.matching fuel side priceTicks quantity = some s) {p : Int64} {x : PriceLevel}
    (hx : s.ladder.find p = some x) :
    ∃ y, (b.ladder side.opposite).find p = some y ∧ y.orderCount = x.orderCount := by
  obtain ⟨hview, hkeep⟩ := matching_sweeps b side priceTicks quantity h fuel
  have hsorted := hkeep s hs
  rw [hs] at hview
  have hstep : ∀ s₁ s₂ : Sweep,
      (∀ x ∈ s₁.queue, ∃ y ∈ side.queue (b.ladder side.opposite),
        y.priceTicks = x.priceTicks ∧ y.orderCount = x.orderCount) →
      sweepStep (fun p => (Taker.of side).beyond p priceTicks) s₁ = some s₂ →
      ∀ x ∈ s₂.queue, ∃ y ∈ side.queue (b.ladder side.opposite),
        y.priceTicks = x.priceTicks ∧ y.orderCount = x.orderCount := by
    intro s₁ s₂ ih hnext x hx
    obtain ⟨y, hy, hyp, hyc⟩ := counts_step hnext x hx
    obtain ⟨z, hz, hzp, hzc⟩ := ih y hy
    exact ⟨z, hz, hzp.trans hyp, hzc.trans hyc⟩
  obtain ⟨hinv, _⟩ := loop_invariant hstep (fun x hx => ⟨x, hx, rfl, rfl⟩) hview.symm
  obtain ⟨hmem, rfl⟩ := (FlatPriceLadder.find_eq_some hsorted).mp hx
  obtain ⟨y, hy, hyp, hyc⟩ := hinv x (mem_queue.mpr hmem)
  exact ⟨y, (FlatPriceLadder.find_eq_some h).mpr ⟨mem_queue.mp hy, hyp⟩, hyc⟩

end HftEngine
