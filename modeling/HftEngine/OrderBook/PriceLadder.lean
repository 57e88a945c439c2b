import HftEngine.Lib.MachineInt
import HftEngine.Lib.SortedList
import Mathlib.Algebra.BigOperators.Group.List.Basic
import Mathlib.Tactic

/-!
# The flat price ladder (`price_level.hpp`)

`FlatPriceLadder` is a vector of price levels kept in ascending price order.
`upsert`, `find` and `remove_if_empty` start with the same `std::lower_bound`;
`best` and `worst` read the two ends; the matcher writes through the pointers
these return (`writeBest`, `writeWorst`).

The second half of the file has one specification lemma for each operation
(`upsert_cases`, `removeIfEmpty_cases`, `fill_worst`, `fill_best`): what it
does to a sorted vector, in terms of the vector cut at the price.
-/

namespace HftEngine

open Lib

/-- One price and everything that rests at it.  The `padding` word is
written as 0 and read by nobody. -/
structure PriceLevel where
  priceTicks : Int64
  totalQuantity : UInt64
  orderCount : UInt32
deriving Repr, DecidableEq

/-- The sum of `total_quantity` over those of some levels whose price is of a
kind. -/
def qtyIn (kind : Int64 → Bool) (levels : List PriceLevel) : Nat :=
  ((levels.filter fun x => kind x.priceTicks).map (·.totalQuantity.toNat)).sum

theorem qtyIn_cons (kind : Int64 → Bool) (x : PriceLevel) (levels : List PriceLevel) :
    qtyIn kind (x :: levels) =
      (if kind x.priceTicks then x.totalQuantity.toNat else 0) + qtyIn kind levels := by
  unfold qtyIn
  rw [List.filter_cons]
  cases kind x.priceTicks <;> simp

theorem qtyIn_append (kind : Int64 → Bool) (xs ys : List PriceLevel) :
    qtyIn kind (xs ++ ys) = qtyIn kind xs + qtyIn kind ys := by
  simp [qtyIn]

theorem qtyIn_reverse (kind : Int64 → Bool) (xs : List PriceLevel) :
    qtyIn kind xs.reverse = qtyIn kind xs := by
  simp [qtyIn, List.filter_reverse, List.sum_reverse]

/-- The vector `levels_`. -/
structure FlatPriceLadder where
  levels : List PriceLevel
deriving Repr, DecidableEq

namespace FlatPriceLadder

/-- The `std::lower_bound` call all searches share, comparing
`l.price_ticks < p`. -/
def lowerBound (l : FlatPriceLadder) (priceTicks : Int64) : Nat :=
  SortedList.lowerBound PriceLevel.priceTicks l.levels priceTicks

/-- The level `find` points to; `none` is `nullptr`. -/
def find (l : FlatPriceLadder) (priceTicks : Int64) : Option PriceLevel :=
  match l.levels[l.lowerBound priceTicks]? with
  | some level => if level.priceTicks = priceTicks then some level else none
  | none => none

def upsert (l : FlatPriceLadder) (priceTicks : Int64) (qtyDelta : UInt32) :
    FlatPriceLadder :=
  let it := l.lowerBound priceTicks
  let inserted : FlatPriceLadder :=
    ⟨l.levels.insertIdx it ⟨priceTicks, qtyDelta.toUInt64, 1⟩⟩
  match l.levels[it]? with
  | some level =>
    if level.priceTicks = priceTicks then
      ⟨l.levels.set it { level with
        totalQuantity := level.totalQuantity + qtyDelta.toUInt64
        orderCount := level.orderCount + 1 }⟩
    else inserted
  | none => inserted

def removeIfEmpty (l : FlatPriceLadder) (priceTicks : Int64) : FlatPriceLadder :=
  let it := l.lowerBound priceTicks
  match l.levels[it]? with
  | some level =>
    if level.priceTicks = priceTicks ∧ level.totalQuantity = 0 then
      ⟨l.levels.eraseIdx it⟩
    else l
  | none => l

/-- The level `best()` points to: the highest price. -/
def best (l : FlatPriceLadder) : Option PriceLevel := l.levels.getLast?

/-- The level `worst()` points to: the lowest price. -/
def worst (l : FlatPriceLadder) : Option PriceLevel := l.levels.head?

def size (l : FlatPriceLadder) : Nat := l.levels.length

def empty (l : FlatPriceLadder) : Bool := l.levels.isEmpty

/-- A write through the pointer `best()` returned. -/
def writeBest (l : FlatPriceLadder) (level : PriceLevel) : FlatPriceLadder :=
  ⟨l.levels.dropLast ++ [level]⟩

/-- A write through the pointer `worst()` returned. -/
def writeWorst (l : FlatPriceLadder) (level : PriceLevel) : FlatPriceLadder :=
  ⟨level :: l.levels.tail⟩

/-! ## What a ladder holds -/

/-- Strictly ascending prices. -/
def Sorted (l : FlatPriceLadder) : Prop :=
  SortedList.Ascending PriceLevel.priceTicks l.levels

/-- The sum of `total_quantity` over the ladder. -/
def totalQty (l : FlatPriceLadder) : Nat :=
  (l.levels.map (·.totalQuantity.toNat)).sum

/-- The sum of `total_quantity` over the levels at prices of a kind. -/
def qtyWhere (kind : Int64 → Bool) (l : FlatPriceLadder) : Nat := qtyIn kind l.levels

/-- The quantity a ladder shows at one price, 0 where it has no level. -/
def qtyAt (priceTicks : Int64) : FlatPriceLadder → Nat :=
  qtyWhere fun p => p = priceTicks

end FlatPriceLadder

namespace FlatPriceLadder

variable {l : FlatPriceLadder} {p : Int64}

/-! ## `upsert` -/

theorem lowerBound_cut {lo hi : List PriceLevel} (hl : l.levels = lo ++ hi)
    (hlo : ∀ y ∈ lo, y.priceTicks < p) (hhi : ∀ y ∈ hi.head?, p ≤ y.priceTicks) :
    l.lowerBound p = lo.length := by
  unfold lowerBound
  rw [hl]
  exact SortedList.lowerBound_append hlo hhi

/-- `upsert` where the price has a level. -/
theorem upsert_found {lo hi : List PriceLevel} {x : PriceLevel} (hl : l.levels = lo ++ x :: hi)
    (hlo : ∀ y ∈ lo, y.priceTicks < p) (hx : x.priceTicks = p) (q : UInt32) :
    (l.upsert p q).levels = lo ++ { x with
      totalQuantity := x.totalQuantity + q.toUInt64
      orderCount := x.orderCount + 1 } :: hi := by
  have hlb : l.lowerBound p = lo.length := lowerBound_cut hl hlo (by simp [hx])
  simp only [upsert, hlb]
  rw [hl, SortedList.getElem?_cut]
  simp only [hx, if_true, SortedList.set_cut]

/-- `upsert` where it has none. -/
theorem upsert_absent {lo hi : List PriceLevel} (hl : l.levels = lo ++ hi)
    (hlo : ∀ y ∈ lo, y.priceTicks < p) (hhi : ∀ y ∈ hi, p < y.priceTicks) (q : UInt32) :
    (l.upsert p q).levels = lo ++ ⟨p, q.toUInt64, 1⟩ :: hi := by
  have hlb : l.lowerBound p = lo.length :=
    lowerBound_cut hl hlo fun y hy => (hhi y (List.mem_of_mem_head? hy)).le
  have hno := SortedList.getElem?_cut_absent lo hhi
  simp only [upsert, hlb]
  rw [hl, SortedList.insertIdx_cut]
  cases hit : (lo ++ hi)[lo.length]? with
  | none => rfl
  | some y =>
    have hy : y.priceTicks ≠ p := hno y hit
    simp only [hy, if_false]

/-- What `upsert` does to a sorted vector: it adds to the level at the price,
or inserts a new level at the place of the price. -/
theorem upsert_cases (h : l.Sorted) (p : Int64) (q : UInt32) :
    (∃ lo x hi, l.levels = lo ++ x :: hi ∧ x.priceTicks = p ∧
      (∀ y ∈ lo, y.priceTicks < p) ∧ (∀ y ∈ hi, p < y.priceTicks) ∧
      (l.upsert p q).levels = lo ++ { x with
        totalQuantity := x.totalQuantity + q.toUInt64
        orderCount := x.orderCount + 1 } :: hi) ∨
    (∃ lo hi, l.levels = lo ++ hi ∧
      (∀ y ∈ lo, y.priceTicks < p) ∧ (∀ y ∈ hi, p < y.priceTicks) ∧
      (l.upsert p q).levels = lo ++ ⟨p, q.toUInt64, 1⟩ :: hi) := by
  cases SortedList.cut h p with
  | found lo x hi hcut _ hlo hx hhi =>
    exact .inl ⟨lo, x, hi, hcut, hx, hlo, hhi, upsert_found hcut hlo hx q⟩
  | absent lo hi hcut _ hlo hhi =>
    exact .inr ⟨lo, hi, hcut, hlo, hhi, upsert_absent hcut hlo hhi q⟩

theorem sorted_upsert (h : l.Sorted) (p : Int64) (q : UInt32) : (l.upsert p q).Sorted := by
  unfold Sorted
  rcases upsert_cases h p q with ⟨lo, x, hi, hl, _, _, _, hu⟩ | ⟨lo, hi, hl, hlo, hhi, hu⟩
  · rw [Sorted, hl] at h
    rw [hu]
    exact SortedList.ascending_replace lo h rfl
  · rw [Sorted, hl] at h
    rw [hu]
    exact SortedList.ascending_insert h hlo hhi

/-- `upsert` brings in no price but its own. -/
theorem price_of_mem_upsert (h : l.Sorted) {q : UInt32} {x : PriceLevel}
    (hx : x ∈ (l.upsert p q).levels) :
    x.priceTicks = p ∨ ∃ y ∈ l.levels, y.priceTicks = x.priceTicks := by
  rcases upsert_cases h p q with ⟨lo, y, hi, hl, hy, _, _, hu⟩ | ⟨lo, hi, hl, _, _, hu⟩
  · rw [hu] at hx
    rw [hl]
    rcases List.mem_append.mp hx with hx | hx
    · exact .inr ⟨x, by simp [hx], rfl⟩
    · rcases List.mem_cons.mp hx with rfl | hx
      · exact .inl hy
      · exact .inr ⟨x, by simp [hx], rfl⟩
  · rw [hu] at hx
    rw [hl]
    rcases List.mem_append.mp hx with hx | hx
    · exact .inr ⟨x, by simp [hx], rfl⟩
    · rcases List.mem_cons.mp hx with rfl | hx
      · exact .inl rfl
      · exact .inr ⟨x, by simp [hx], rfl⟩

/-- Unless the total of its level wraps, `upsert` adds its quantity at its
price. -/
theorem qtyWhere_upsert (h : l.Sorted) {q : UInt32} (hbound : l.qtyAt p + q.toNat < 2 ^ 64)
    (kind : Int64 → Bool) :
    (l.upsert p q).qtyWhere kind = l.qtyWhere kind + if kind p then q.toNat else 0 := by
  unfold qtyAt qtyWhere at hbound
  unfold qtyWhere
  rcases upsert_cases h p q with ⟨lo, x, hi, hl, rfl, _, _, hu⟩ | ⟨lo, hi, hl, _, _, hu⟩
  · rw [hl] at hbound ⊢
    rw [hu]
    simp only [qtyIn_append, qtyIn_cons, decide_true, if_true] at hbound ⊢
    have hadd : (x.totalQuantity + q.toUInt64).toNat = x.totalQuantity.toNat + q.toNat := by
      rw [UInt64.toNat_add, UInt32.toNat_toUInt64, Nat.mod_eq_of_lt (by omega)]
    rw [hadd]
    split <;> omega
  · rw [hl, hu]
    simp only [qtyIn_append, qtyIn_cons, UInt32.toNat_toUInt64]
    omega

theorem totalQty_eq (l : FlatPriceLadder) : l.totalQty = l.qtyWhere fun _ => true := by
  simp [totalQty, qtyWhere, qtyIn]

theorem qtyWhere_le_totalQty (kind : Int64 → Bool) (l : FlatPriceLadder) :
    l.qtyWhere kind ≤ l.totalQty :=
  List.Sublist.sum_le_sum (List.filter_sublist.map _) (fun _ _ => Nat.zero_le _)

/-- Whether or not a total wraps, the sum grows by no more than the quantity
added. -/
theorem totalQty_upsert_le (h : l.Sorted) (p : Int64) (q : UInt32) :
    (l.upsert p q).totalQty ≤ l.totalQty + q.toNat := by
  unfold totalQty
  rcases upsert_cases h p q with ⟨lo, x, hi, hl, _, _, _, hu⟩ | ⟨lo, hi, hl, _, _, hu⟩
  · rw [hl, hu]
    simp only [List.map_append, List.map_cons, List.sum_append, List.sum_cons]
    have hwrap : (x.totalQuantity + q.toUInt64).toNat ≤ x.totalQuantity.toNat + q.toNat := by
      rw [UInt64.toNat_add, UInt32.toNat_toUInt64]
      exact Nat.mod_le _ _
    omega
  · rw [hl, hu]
    simp only [List.map_append, List.map_cons, List.sum_append, List.sum_cons,
      UInt32.toNat_toUInt64]
    omega

/-- Where the total does not wrap, `upsert` of a positive quantity leaves no
empty level. -/
theorem positive_upsert (h : l.Sorted) {q : UInt32} (hq : q ≠ 0)
    (hbound : l.qtyAt p + q.toNat < 2 ^ 64) (hpos : ∀ x ∈ l.levels, x.totalQuantity ≠ 0) :
    ∀ x ∈ (l.upsert p q).levels, x.totalQuantity ≠ 0 := by
  have hq' : q.toNat ≠ 0 := fun hz => hq (UInt32.toNat_inj.mp hz)
  intro x hx
  rcases upsert_cases h p q with ⟨lo, y, hi, hl, rfl, _, _, hu⟩ | ⟨lo, hi, hl, _, _, hu⟩
  · rw [hu] at hx
    rw [hl] at hpos
    simp only [qtyAt, qtyWhere, hl, qtyIn_append, qtyIn_cons, decide_true, if_true] at hbound
    rcases List.mem_append.mp hx with hx | hx
    · exact hpos x (by simp [hx])
    · rcases List.mem_cons.mp hx with rfl | hx
      · -- the sum of the level does not wrap to 0
        intro hz
        have hz := congrArg UInt64.toNat hz
        simp only [UInt64.toNat_add, UInt32.toNat_toUInt64, UInt64.toNat_zero] at hz
        rw [Nat.mod_eq_of_lt (by omega)] at hz
        omega
      · exact hpos x (by simp [hx])
  · rw [hu] at hx
    rw [hl] at hpos
    rcases List.mem_append.mp hx with hx | hx
    · exact hpos x (by simp [hx])
    · rcases List.mem_cons.mp hx with rfl | hx
      · intro hz
        have hz := congrArg UInt64.toNat hz
        simp only [UInt32.toNat_toUInt64, UInt64.toNat_zero] at hz
        omega
      · exact hpos x (by simp [hx])

/-! ## `remove_if_empty` -/

/-- What `remove_if_empty` does to a sorted vector: it drops the level at the
price if that shows no quantity, and nothing else. -/
theorem removeIfEmpty_cases (h : l.Sorted) (p : Int64) :
    (∃ lo x hi, l.levels = lo ++ x :: hi ∧ x.priceTicks = p ∧ x.totalQuantity = 0 ∧
      (∀ y ∈ lo, y.priceTicks < p) ∧ (∀ y ∈ hi, p < y.priceTicks) ∧
      (l.removeIfEmpty p).levels = lo ++ hi) ∨
    ((∀ x ∈ l.levels, x.priceTicks = p → x.totalQuantity ≠ 0) ∧ l.removeIfEmpty p = l) := by
  cases SortedList.cut h p with
  | found lo x hi hcut hlb hlo hx hhi =>
    have hrun : l.removeIfEmpty p =
        if x.priceTicks = p ∧ x.totalQuantity = 0 then ⟨l.levels.eraseIdx lo.length⟩ else l := by
      simp only [removeIfEmpty, lowerBound, hlb]
      rw [hcut, SortedList.getElem?_cut]
    by_cases hzero : x.totalQuantity = 0
    · refine .inl ⟨lo, x, hi, hcut, hx, hzero, hlo, hhi, ?_⟩
      rw [hrun, if_pos ⟨hx, hzero⟩, hcut, SortedList.eraseIdx_cut]
    · refine .inr ⟨?_, by rw [hrun, if_neg (fun hc => hzero hc.2)]⟩
      -- `x` is the only level at the price
      intro y hy hyp
      rw [hcut] at hy
      rcases List.mem_append.mp hy with hy | hy
      · exact absurd hyp (hlo y hy).ne
      · rcases List.mem_cons.mp hy with rfl | hy
        · exact hzero
        · exact absurd hyp (hhi y hy).ne'
  | absent lo hi hcut hlb hlo hhi =>
    refine .inr ⟨?_, ?_⟩
    · intro y hy hyp
      rw [hcut] at hy
      rcases List.mem_append.mp hy with hy | hy
      · exact absurd hyp (hlo y hy).ne
      · exact absurd hyp (hhi y hy).ne'
    · simp only [removeIfEmpty, lowerBound, hlb]
      have hno := SortedList.getElem?_cut_absent lo hhi
      rw [hcut]
      cases hit : (lo ++ hi)[lo.length]? with
      | none => rfl
      | some y =>
        have hy : y.priceTicks ≠ p := hno y hit
        simp only [hy, false_and, if_false]

theorem sorted_removeIfEmpty (h : l.Sorted) (p : Int64) : (l.removeIfEmpty p).Sorted := by
  rcases removeIfEmpty_cases h p with ⟨lo, x, hi, hl, _, _, _, _, hr⟩ | ⟨_, hr⟩
  · rw [Sorted, hl] at h
    rw [Sorted, hr]
    exact SortedList.ascending_erase h
  · rw [hr]
    exact h

theorem mem_of_mem_removeIfEmpty (h : l.Sorted) {x : PriceLevel}
    (hx : x ∈ (l.removeIfEmpty p).levels) : x ∈ l.levels := by
  rcases removeIfEmpty_cases h p with ⟨lo, y, hi, hl, _, _, _, _, hr⟩ | ⟨_, hr⟩
  · rw [hr] at hx
    rw [hl]
    rcases List.mem_append.mp hx with hx | hx <;> simp [hx]
  · rw [hr] at hx
    exact hx

theorem qtyWhere_removeIfEmpty (h : l.Sorted) (p : Int64) (kind : Int64 → Bool) :
    (l.removeIfEmpty p).qtyWhere kind = l.qtyWhere kind := by
  rcases removeIfEmpty_cases h p with ⟨lo, x, hi, hl, _, hzero, _, _, hr⟩ | ⟨_, hr⟩
  · unfold qtyWhere
    rw [hr, hl]
    simp [qtyIn_append, qtyIn_cons, hzero]
  · rw [hr]

/-! ## The matcher's write-then-remove at the two ends -/

/-- The lowest level, written through `worst()` and then offered to
`remove_if_empty`, is replaced, or dropped if nothing is left of it. -/
theorem fill_worst {x y : PriceLevel} {rest : List PriceLevel} (hl : l.levels = x :: rest) :
    ((l.writeWorst y).removeIfEmpty y.priceTicks).levels =
      if y.totalQuantity = 0 then rest else y :: rest := by
  have hlb : (l.writeWorst y).lowerBound y.priceTicks = 0 :=
    SortedList.lowerBound_nil_append (by simp [writeWorst])
  simp only [removeIfEmpty, hlb]
  simp only [writeWorst, hl, List.tail_cons, List.getElem?_cons_zero, true_and,
    List.eraseIdx_cons_zero]
  split <;> rfl

/-- The highest level, written through `best()` and then offered to
`remove_if_empty`: the search finds it again because every other level is
below it. -/
theorem fill_best {x y : PriceLevel} {rest : List PriceLevel} (h : l.Sorted)
    (hl : l.levels = rest ++ [x]) (hy : y.priceTicks = x.priceTicks) :
    ((l.writeBest y).removeIfEmpty y.priceTicks).levels =
      if y.totalQuantity = 0 then rest else rest ++ [y] := by
  have hw : l.writeBest y = ⟨rest ++ [y]⟩ := by simp [writeBest, hl]
  have hbelow : ∀ z ∈ rest, z.priceTicks < y.priceTicks := by
    rw [Sorted, hl] at h
    intro z hz
    rw [hy]
    exact (List.pairwise_append.mp h).2.2 z hz x (by simp)
  have hlb : (l.writeBest y).lowerBound y.priceTicks = rest.length := by
    rw [hw]
    exact SortedList.lowerBound_append hbelow (by simp)
  simp only [removeIfEmpty, hlb]
  rw [hw]
  simp only [SortedList.getElem?_cut, true_and, SortedList.eraseIdx_cut, List.append_nil]
  split <;> rfl

end FlatPriceLadder

end HftEngine
