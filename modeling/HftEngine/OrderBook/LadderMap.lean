import HftEngine.Lib.Calls
import HftEngine.Lib.SortedMap
import HftEngine.OrderBook.PriceLadder

/-!
# The ladder is an ordered finite map

What a price ladder is for: a finite map from prices to total quantity and
order count, of which one can ask the entry at a price and those at the two
ends (`PriceMap`).  The flat array answers every sequence of operations the
way the map does (`ladder_refines_map`).

* `LadderOp` — the operations, with those of a caller who decreases
  `total_quantity` through a pointer that `find`, `best` or `worst` returned;
* `apply_toPriceMap` — one operation: on a sorted array the answer is that of
  the map the array stands for, and so is the array that is left.
-/

namespace HftEngine

open Lib

/-- Total quantity and order count at each price. -/
abbrev PriceMap := Finmap fun _ : Int64 => ℕ × ℕ

/-- A price with the total quantity and order count there. -/
abbrev LevelEntry := Int64 × ℕ × ℕ

/-! ## Operations and answers -/

inductive LadderOp where
  | upsert (priceTicks : Int64) (qtyDelta : UInt32)
  | find (priceTicks : Int64)
  | removeIfEmpty (priceTicks : Int64)
  | best
  | worst
  | size
  | empty
  | decreaseFound (priceTicks : Int64) (qty : UInt64)
  | decreaseBest (qty : UInt64)
  | decreaseWorst (qty : UInt64)
deriving Repr, DecidableEq

/-- What an operation returns: nothing, what a pointer shows (`none` is
`nullptr`), a size, a flag. -/
inductive LadderAnswer where
  | unit
  | level (entry : Option LevelEntry)
  | size (n : ℕ)
  | empty (b : Bool)
deriving Repr, DecidableEq

namespace PriceMap

/-- One more order of `qty`. -/
def joined (v : ℕ × ℕ) (qty : ℕ) : ℕ × ℕ := ((v.1 + qty) % 2 ^ 64, (v.2 + 1) % 2 ^ 32)

/-- `qty` less, modulo `2^64`. -/
def lessened (v : ℕ × ℕ) (qty : ℕ) : ℕ × ℕ := ((v.1 + (2 ^ 64 - qty)) % 2 ^ 64, v.2)

variable (m : PriceMap) (p : Int64)

def entry : Option LevelEntry := (m.lookup p).map fun v => (p, v)

/-- Adds `(qty, 1)` to what is at the price. -/
def upsert (qty : ℕ) : PriceMap := m.insert p (joined ((m.lookup p).getD (0, 0)) qty)

def removeIfEmpty : PriceMap :=
  if (m.lookup p).map Prod.fst = some 0 then m.erase p else m

/-- Takes `qty` off the quantity at the price. -/
def decrease (qty : ℕ) : PriceMap :=
  match m.lookup p with
  | some v => m.insert p (lessened v qty)
  | none => m

/-- The greatest price. -/
def best : Option Int64 := if h : m.keys.Nonempty then some (m.keys.max' h) else none

/-- The least price. -/
def worst : Option Int64 := if h : m.keys.Nonempty then some (m.keys.min' h) else none

/-- A decrease at one of the ends. -/
def decreaseAt (qty : ℕ) : Option Int64 → LadderAnswer × PriceMap
  | some p => (.level ((m.decrease p qty).entry p), m.decrease p qty)
  | none => (.level none, m)

def apply (m : PriceMap) : LadderOp → LadderAnswer × PriceMap
  | .upsert p qty => (.level ((m.upsert p qty.toNat).entry p), m.upsert p qty.toNat)
  | .find p => (.level (m.entry p), m)
  | .removeIfEmpty p => (.unit, m.removeIfEmpty p)
  | .best => (.level (m.best.bind m.entry), m)
  | .worst => (.level (m.worst.bind m.entry), m)
  | .size => (.size m.keys.card, m)
  | .empty => (.empty (m.keys = ∅), m)
  | .decreaseFound p qty => m.decreaseAt qty.toNat (some p)
  | .decreaseBest qty => m.decreaseAt qty.toNat m.best
  | .decreaseWorst qty => m.decreaseAt qty.toNat m.worst

end PriceMap

/-- Quantity and count of a level. -/
def PriceLevel.value (x : PriceLevel) : ℕ × ℕ := (x.totalQuantity.toNat, x.orderCount.toNat)

def PriceLevel.entry (x : PriceLevel) : LevelEntry := (x.priceTicks, x.value)

/-- The level after `total_quantity -= qty`. -/
def PriceLevel.decrease (x : PriceLevel) (qty : UInt64) : PriceLevel :=
  { x with totalQuantity := x.totalQuantity - qty }

namespace FlatPriceLadder

/-- A write through the pointer `find` returned. -/
def writeFind (l : FlatPriceLadder) (priceTicks : Int64) (level : PriceLevel) : FlatPriceLadder :=
  ⟨l.levels.set (l.lowerBound priceTicks) level⟩

/-- The level at the position from which `upsert` makes its reference. -/
def upserted (l : FlatPriceLadder) (priceTicks : Int64) (qtyDelta : UInt32) : Option PriceLevel :=
  (l.upsert priceTicks qtyDelta).levels[l.lowerBound priceTicks]?

/-- A decrease through a pointer: where it points, and how it writes. -/
def decreaseAt (l : FlatPriceLadder) (qty : UInt64) (pointer : Option PriceLevel)
    (write : PriceLevel → FlatPriceLadder) : LadderAnswer × FlatPriceLadder :=
  match pointer with
  | some level => (.level (some (level.decrease qty).entry), write (level.decrease qty))
  | none => (.level none, l)

def apply (l : FlatPriceLadder) : LadderOp → LadderAnswer × FlatPriceLadder
  | .upsert p qty => (.level ((l.upserted p qty).map PriceLevel.entry), l.upsert p qty)
  | .find p => (.level ((l.find p).map PriceLevel.entry), l)
  | .removeIfEmpty p => (.unit, l.removeIfEmpty p)
  | .best => (.level (l.best.map PriceLevel.entry), l)
  | .worst => (.level (l.worst.map PriceLevel.entry), l)
  | .size => (.size l.size, l)
  | .empty => (.empty l.empty, l)
  | .decreaseFound p qty => l.decreaseAt qty (l.find p) (l.writeFind p)
  | .decreaseBest qty => l.decreaseAt qty l.best l.writeBest
  | .decreaseWorst qty => l.decreaseAt qty l.worst l.writeWorst

/-- The map a ladder stands for. -/
def toPriceMap (l : FlatPriceLadder) : PriceMap :=
  SortedList.toMap PriceLevel.priceTicks PriceLevel.value l.levels

/-! ## One operation -/

variable {l : FlatPriceLadder} {p : Int64}

theorem value_upserted (x : PriceLevel) (q : UInt32) :
    PriceLevel.value { x with
        totalQuantity := x.totalQuantity + q.toUInt64
        orderCount := x.orderCount + 1 } = PriceMap.joined x.value q.toNat := by
  simp [PriceLevel.value, PriceMap.joined, UInt64.toNat_add, UInt32.toNat_add]

theorem value_new (p : Int64) (q : UInt32) :
    PriceLevel.value ⟨p, q.toUInt64, 1⟩ = PriceMap.joined (0, 0) q.toNat := by
  have hlt := q.toNat_lt
  unfold PriceMap.joined
  rw [Nat.zero_add, Nat.mod_eq_of_lt (by omega)]
  simp [PriceLevel.value]

theorem value_decrease (x : PriceLevel) (qty : UInt64) :
    (x.decrease qty).value = PriceMap.lessened x.value qty.toNat := by
  simp [PriceLevel.value, PriceLevel.decrease, PriceMap.lessened, UInt64.toNat_sub, Nat.add_comm]

theorem upsert_toPriceMap (h : l.Sorted) (p : Int64) (q : UInt32) :
    (l.upsert p q).toPriceMap = l.toPriceMap.upsert p q.toNat ∧
      (l.upserted p q).map PriceLevel.entry = (l.toPriceMap.upsert p q.toNat).entry p := by
  unfold toPriceMap upserted PriceMap.upsert PriceMap.entry
  rw [Finmap.lookup_insert]
  rcases upsert_cases h p q with ⟨lo, x, hi, hl, rfl, hlo, hhi, hu⟩ | ⟨lo, hi, hl, hlo, hhi, hu⟩
  · have hne : ∀ y ∈ lo, y.priceTicks ≠ x.priceTicks := fun y hy => (hlo y hy).ne
    have hlb : l.lowerBound x.priceTicks = lo.length := lowerBound_cut hl hlo (by simp)
    rw [hu, hlb, SortedList.getElem?_cut, hl, SortedList.lookup_cut hi hne, Option.getD_some,
      ← value_upserted]
    refine ⟨?_, rfl⟩
    exact SortedList.toMap_replace hi hne rfl
  · have hlb : l.lowerBound p = lo.length :=
      lowerBound_cut hl hlo fun y hy => (hhi y (List.mem_of_mem_head? hy)).le
    have habsent : ∀ y ∈ lo ++ hi, y.priceTicks ≠ p := by
      intro y hy
      rcases List.mem_append.mp hy with hy | hy
      · exact (hlo y hy).ne
      · exact (hhi y hy).ne'
    rw [hu, hlb, SortedList.getElem?_cut, hl, SortedList.lookup_absent habsent, Option.getD_none,
      ← value_new p]
    refine ⟨?_, rfl⟩
    exact SortedList.toMap_insert (x := ⟨p, q.toUInt64, 1⟩) hi fun y hy => (hlo y hy).ne

/-- On a sorted array, `find` and the map agree; where there is a level, the
array is cut at it. -/
theorem find_cases (h : l.Sorted) (p : Int64) :
    (∃ lo x hi, l.levels = lo ++ x :: hi ∧ x.priceTicks = p ∧ (∀ y ∈ lo, y.priceTicks ≠ p) ∧
      l.lowerBound p = lo.length ∧ l.find p = some x ∧ l.toPriceMap.lookup p = some x.value) ∨
    (l.find p = none ∧ l.toPriceMap.lookup p = none) := by
  unfold toPriceMap
  cases SortedList.cut h p with
  | found lo x hi hcut hlb hlo hx hhi =>
    subst hx
    have hne : ∀ y ∈ lo, y.priceTicks ≠ x.priceTicks := fun y hy => (hlo y hy).ne
    refine .inl ⟨lo, x, hi, hcut, rfl, hne, hlb, ?_, ?_⟩
    · simp only [find, lowerBound, hlb]
      rw [hcut, SortedList.getElem?_cut]
      exact if_pos rfl
    · rw [hcut]
      exact SortedList.lookup_cut hi hne
  | absent lo hi hcut hlb hlo hhi =>
    refine .inr ⟨?_, ?_⟩
    · simp only [find, lowerBound, hlb]
      have hno := SortedList.getElem?_cut_absent lo hhi
      rw [hcut]
      cases hit : (lo ++ hi)[lo.length]? with
      | none => rfl
      | some y => exact if_neg (hno y hit)
    · rw [hcut]
      refine SortedList.lookup_absent fun y hy => ?_
      rcases List.mem_append.mp hy with hy | hy
      · exact (hlo y hy).ne
      · exact (hhi y hy).ne'

theorem find_entry (h : l.Sorted) (p : Int64) :
    (l.find p).map PriceLevel.entry = l.toPriceMap.entry p := by
  unfold PriceMap.entry
  rcases find_cases h p with ⟨lo, x, hi, _, rfl, _, _, hfind, hlookup⟩ | ⟨hfind, hlookup⟩
  · rw [hfind, hlookup]
    rfl
  · rw [hfind, hlookup]
    rfl

theorem removeIfEmpty_toPriceMap (h : l.Sorted) (p : Int64) :
    (l.removeIfEmpty p).toPriceMap = l.toPriceMap.removeIfEmpty p := by
  unfold PriceMap.removeIfEmpty
  rcases removeIfEmpty_cases h p with ⟨lo, x, hi, hl, rfl, hzero, hlo, hhi, hr⟩ | ⟨hpos, hr⟩
  · have hne : ∀ y ∈ lo, y.priceTicks ≠ x.priceTicks := fun y hy => (hlo y hy).ne
    have hlookup : l.toPriceMap.lookup x.priceTicks = some x.value := by
      unfold toPriceMap
      rw [hl]
      exact SortedList.lookup_cut hi hne
    rw [hlookup, if_pos (by simp [PriceLevel.value, hzero])]
    unfold toPriceMap
    rw [hr, hl]
    exact SortedList.toMap_erase hne fun y hy => (hhi y hy).ne'
  · rw [hr, if_neg]
    rcases find_cases h p with ⟨lo, x, hi, hl, hx, _, _, _, hlookup⟩ | ⟨_, hlookup⟩
    · rw [hlookup]
      intro hzero
      injection hzero with hzero
      exact hpos x (by simp [hl]) hx (UInt64.toNat_inj.mp hzero)
    · rw [hlookup]
      exact nofun

/-! ## The ends -/

end FlatPriceLadder

theorem PriceMap.decrease_of_lookup {m : PriceMap} {p : Int64} {v : ℕ × ℕ}
    (h : m.lookup p = some v) (qty : ℕ) : m.decrease p qty = m.insert p (lessened v qty) := by
  unfold PriceMap.decrease
  rw [h]

theorem PriceMap.best_of_max {m : PriceMap} {p : Int64} (h : m.keys.max = (p : WithBot Int64)) :
    m.best = some p := by
  have hne : m.keys.Nonempty := ⟨p, Finset.mem_of_max h⟩
  unfold PriceMap.best
  rw [dif_pos hne]
  rw [← Finset.coe_max' hne] at h
  rw [WithBot.coe_injective h]

theorem PriceMap.worst_of_min {m : PriceMap} {p : Int64} (h : m.keys.min = (p : WithTop Int64)) :
    m.worst = some p := by
  have hne : m.keys.Nonempty := ⟨p, Finset.mem_of_min h⟩
  unfold PriceMap.worst
  rw [dif_pos hne]
  rw [← Finset.coe_min' hne] at h
  rw [WithTop.coe_injective h]

namespace FlatPriceLadder

variable {l : FlatPriceLadder} {p : Int64}

theorem best_cases (h : l.Sorted) :
    (∃ lo x, l.levels = lo ++ [x] ∧ (∀ y ∈ lo, y.priceTicks ≠ x.priceTicks) ∧
      l.best = some x ∧ l.toPriceMap.best = some x.priceTicks) ∨
    (l.best = none ∧ l.toPriceMap.best = none) := by
  rcases List.eq_nil_or_concat l.levels with hl | ⟨lo, x, hl⟩
  · refine .inr ⟨by simp [best, hl], ?_⟩
    unfold PriceMap.best toPriceMap
    rw [hl]
    rfl
  · rw [List.concat_eq_append] at hl
    rw [Sorted, hl] at h
    refine .inl ⟨lo, x, hl, ?_, by simp [best, hl], ?_⟩
    · intro y hy
      exact ((List.pairwise_append.mp h).2.2 y hy x (by simp)).ne
    · refine PriceMap.best_of_max ?_
      unfold toPriceMap
      rw [hl]
      exact SortedList.max_keys h

theorem worst_cases (h : l.Sorted) :
    (∃ x hi, l.levels = x :: hi ∧ l.worst = some x ∧ l.toPriceMap.worst = some x.priceTicks) ∨
    (l.worst = none ∧ l.toPriceMap.worst = none) := by
  cases hl : l.levels with
  | nil =>
    refine .inr ⟨by simp [worst, hl], ?_⟩
    unfold PriceMap.worst toPriceMap
    rw [hl]
    rfl
  | cons x hi =>
    rw [Sorted, hl] at h
    refine .inl ⟨x, hi, rfl, by simp [worst, hl], ?_⟩
    refine PriceMap.worst_of_min ?_
    unfold toPriceMap
    rw [hl]
    exact SortedList.min_keys h

theorem entry_of_cut {lo hi : List PriceLevel} {x : PriceLevel} (hl : l.levels = lo ++ x :: hi)
    (hlo : ∀ y ∈ lo, y.priceTicks ≠ x.priceTicks) :
    l.toPriceMap.entry x.priceTicks = some x.entry := by
  unfold PriceMap.entry toPriceMap
  rw [hl, SortedList.lookup_cut hi hlo]
  rfl

theorem best_entry (h : l.Sorted) :
    l.toPriceMap.best.bind l.toPriceMap.entry = l.best.map PriceLevel.entry := by
  rcases best_cases h with ⟨lo, x, hl, hlo, hbest, hmax⟩ | ⟨hbest, hmax⟩
  · rw [hbest, hmax, Option.bind_some, entry_of_cut hl hlo]
    rfl
  · rw [hbest, hmax]
    rfl

theorem worst_entry (h : l.Sorted) :
    l.toPriceMap.worst.bind l.toPriceMap.entry = l.worst.map PriceLevel.entry := by
  rcases worst_cases h with ⟨x, hi, hl, hworst, hmin⟩ | ⟨hworst, hmin⟩
  · have hcut : l.levels = [] ++ x :: hi := hl
    rw [hworst, hmin, Option.bind_some, entry_of_cut hcut nofun]
    rfl
  · rw [hworst, hmin]
    rfl

theorem keys_eq_empty (h : l.Sorted) : decide (l.toPriceMap.keys = ∅) = l.empty := by
  rw [empty, Bool.eq_iff_iff, decide_eq_true_iff, List.isEmpty_iff, ← List.length_eq_zero_iff,
    ← Finset.card_eq_zero, toPriceMap, SortedList.card_keys h]

/-! ## Decreases through a pointer -/

/-- A decrease of the level at which the array is cut. -/
theorem decrease_toPriceMap {lo hi : List PriceLevel} {x : PriceLevel} (h : l.Sorted)
    (hl : l.levels = lo ++ x :: hi) (hlo : ∀ y ∈ lo, y.priceTicks ≠ x.priceTicks) (qty : UInt64)
    {l' : FlatPriceLadder} (hl' : l'.levels = lo ++ x.decrease qty :: hi) :
    l'.Sorted ∧ l.toPriceMap.decreaseAt qty.toNat (some x.priceTicks) =
      (.level (some (x.decrease qty).entry), l'.toPriceMap) := by
  have hmap : l'.toPriceMap = l.toPriceMap.decrease x.priceTicks qty.toNat := by
    unfold toPriceMap
    rw [hl, PriceMap.decrease_of_lookup (SortedList.lookup_cut hi hlo), hl', ← value_decrease]
    exact SortedList.toMap_replace hi hlo rfl
  refine ⟨?_, ?_⟩
  · rw [Sorted, hl] at h
    rw [Sorted, hl']
    exact SortedList.ascending_replace lo h rfl
  · have hentry : l'.toPriceMap.entry x.priceTicks = some (x.decrease qty).entry :=
      entry_of_cut (x := x.decrease qty) hl' hlo
    simp only [PriceMap.decreaseAt]
    rw [← hmap, hentry]

/-- Through the pointer that `find` returned. -/
theorem decreaseFound_toPriceMap (h : l.Sorted) (p : Int64) (qty : UInt64) :
    (l.decreaseAt qty (l.find p) (l.writeFind p)).2.Sorted ∧
      l.toPriceMap.decreaseAt qty.toNat (some p) =
        ((l.decreaseAt qty (l.find p) (l.writeFind p)).1,
          (l.decreaseAt qty (l.find p) (l.writeFind p)).2.toPriceMap) := by
  rcases find_cases h p with ⟨lo, x, hi, hl, rfl, hlo, hlb, hfind, _⟩ | ⟨hfind, hlookup⟩
  · rw [hfind]
    refine decrease_toPriceMap h hl hlo qty ?_
    show (l.writeFind x.priceTicks (x.decrease qty)).levels = _
    simp only [writeFind, hlb, hl, SortedList.set_cut]
  · rw [hfind]
    refine ⟨h, ?_⟩
    -- there is nothing to decrease
    have hsame : l.toPriceMap.decrease p qty.toNat = l.toPriceMap := by
      unfold PriceMap.decrease
      rw [hlookup]
    have hentry : l.toPriceMap.entry p = none := by
      unfold PriceMap.entry
      rw [hlookup]
      rfl
    rw [PriceMap.decreaseAt, hsame, hentry]
    rfl

theorem decreaseBest_toPriceMap (h : l.Sorted) (qty : UInt64) :
    (l.decreaseAt qty l.best l.writeBest).2.Sorted ∧
      l.toPriceMap.decreaseAt qty.toNat l.toPriceMap.best =
        ((l.decreaseAt qty l.best l.writeBest).1,
          (l.decreaseAt qty l.best l.writeBest).2.toPriceMap) := by
  rcases best_cases h with ⟨lo, x, hl, hlo, hbest, hmax⟩ | ⟨hbest, hmax⟩
  · rw [hbest, hmax]
    refine decrease_toPriceMap h hl hlo qty ?_
    show (l.writeBest (x.decrease qty)).levels = _
    simp only [writeBest, hl, List.dropLast_concat]
  · rw [hbest, hmax]
    exact ⟨h, rfl⟩

theorem decreaseWorst_toPriceMap (h : l.Sorted) (qty : UInt64) :
    (l.decreaseAt qty l.worst l.writeWorst).2.Sorted ∧
      l.toPriceMap.decreaseAt qty.toNat l.toPriceMap.worst =
        ((l.decreaseAt qty l.worst l.writeWorst).1,
          (l.decreaseAt qty l.worst l.writeWorst).2.toPriceMap) := by
  rcases worst_cases h with ⟨x, hi, hl, hworst, hmin⟩ | ⟨hworst, hmin⟩
  · rw [hworst, hmin]
    refine decrease_toPriceMap h (show l.levels = [] ++ x :: hi from hl) nofun qty ?_
    show (l.writeWorst (x.decrease qty)).levels = _
    simp only [writeWorst, hl, List.tail_cons, List.nil_append]
  · rw [hworst, hmin]
    exact ⟨h, rfl⟩

/-- One operation: the array stays sorted, and answers and changes as the map
it stands for. -/
theorem apply_toPriceMap (h : l.Sorted) (op : LadderOp) :
    (l.apply op).2.Sorted ∧
      l.toPriceMap.apply op = ((l.apply op).1, (l.apply op).2.toPriceMap) := by
  cases op with
  | upsert p q =>
    obtain ⟨hmap, hentry⟩ := upsert_toPriceMap h p q
    refine ⟨sorted_upsert h p q, ?_⟩
    simp only [PriceMap.apply, apply, hmap, hentry]
  | find p =>
    refine ⟨h, ?_⟩
    simp only [PriceMap.apply, apply, find_entry h p]
  | removeIfEmpty p =>
    refine ⟨sorted_removeIfEmpty h p, ?_⟩
    simp only [PriceMap.apply, apply, removeIfEmpty_toPriceMap h p]
  | best =>
    refine ⟨h, ?_⟩
    simp only [PriceMap.apply, apply, best_entry h]
  | worst =>
    refine ⟨h, ?_⟩
    simp only [PriceMap.apply, apply, worst_entry h]
  | size =>
    refine ⟨h, ?_⟩
    simp only [PriceMap.apply, apply, size]
    rw [toPriceMap, SortedList.card_keys h]
  | empty =>
    refine ⟨h, ?_⟩
    simp only [PriceMap.apply, apply, keys_eq_empty h]
  | decreaseFound p qty => exact decreaseFound_toPriceMap h p qty
  | decreaseBest qty => exact decreaseBest_toPriceMap h qty
  | decreaseWorst qty => exact decreaseWorst_toPriceMap h qty

/-! ## Every sequence of operations -/

theorem replies_toPriceMap (h : l.Sorted) (ops : List LadderOp) :
    replies apply l ops = replies PriceMap.apply l.toPriceMap ops := by
  have hcall : ∀ (l : FlatPriceLadder) (m : PriceMap) (op : LadderOp),
      l.Sorted ∧ m = l.toPriceMap → (l.apply op).1 = (m.apply op).1 ∧
        (l.apply op).2.Sorted ∧ (m.apply op).2 = (l.apply op).2.toPriceMap := by
    rintro l _ op ⟨hl, rfl⟩
    obtain ⟨hsorted, happly⟩ := apply_toPriceMap hl op
    rw [happly]
    exact ⟨rfl, hsorted, rfl⟩
  exact (replies_of_simulation hcall ⟨h, rfl⟩ ops).1

end FlatPriceLadder

/-- **The ladder is an ordered finite map.** From the empty ladder, each
sequence of operations gets the answers of a finite map from prices to total
quantity modulo `2^64` and order count modulo `2^32`. -/
theorem ladder_refines_map (ops : List LadderOp) :
    replies FlatPriceLadder.apply ⟨[]⟩ ops = replies PriceMap.apply ∅ ops :=
  FlatPriceLadder.replies_toPriceMap List.Pairwise.nil ops

/-- A level brought to zero in place stays until it is removed. -/
example : replies FlatPriceLadder.apply ⟨[]⟩
    [.upsert 7 5, .upsert 9 1, .decreaseBest 1, .best, .removeIfEmpty 9, .best, .size] =
    [.level (some (7, 5, 1)), .level (some (9, 1, 1)), .level (some (9, 0, 1)),
      .level (some (9, 0, 1)), .unit, .level (some (7, 5, 1)), .size 1] := by decide

end HftEngine
