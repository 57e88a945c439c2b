import HftEngine.OrderBook.Flow
import HftEngine.OrderBook.Levels
import HftEngine.OrderBook.Reentrant

/-!
# Fills in flight

While a callback runs, the fill it was told of is still on the book: it has
been reported and not yet taken off its level.  At each price of a ladder

  reported + on the level = rested + in flight

holds throughout (`Balanced`), as long as each fill is taken off a level that
holds it, at the price reported, and no total wraps.

* `balanced_report` — a fill is reported, and in flight from then on;
* `balanced_lower` — it is taken off its level;
* `balanced_finish` — what is left of an order rests.
-/

namespace HftEngine

open Lib

variable {n : PoolSize}

/-! ## Quantities of a log -/

def Obs.reportedAt (side : Side) (priceTicks : Int64) : Obs → Nat
  | .matched side' r => if side' = side ∧ r.priceTicks = priceTicks then r.quantity.toNat else 0
  | _ => 0

def Obs.restedAt (side : Side) (priceTicks : Int64) : Obs → Nat
  | .rested side' p q => if side' = side ∧ p = priceTicks then q.toNat else 0
  | _ => 0

/-- The quantity reported as matched with a level. -/
def reportedQty (side : Side) (priceTicks : Int64) (log : List Obs) : Nat :=
  (log.map (Obs.reportedAt side priceTicks)).sum

/-- The quantity that came to rest at a level. -/
def restedQty (side : Side) (priceTicks : Int64) (log : List Obs) : Nat :=
  (log.map (Obs.restedAt side priceTicks)).sum

def Frame.inFlightAt (side : Side) (priceTicks : Int64) (f : Frame) : Nat :=
  if f.sweeps = side ∧ f.result.priceTicks = priceTicks then f.result.quantity.toNat else 0

/-- The quantity reported to callbacks that have not returned. -/
def inFlight (side : Side) (priceTicks : Int64) (frames : List Frame) : Nat :=
  (frames.map (Frame.inFlightAt side priceTicks)).sum

/-- No fill was taken off a level that held less. -/
def NoUnderflow (log : List Obs) : Prop :=
  ∀ side level result, Obs.lowered side level result ∈ log →
    result.quantity.toNat ≤ level.totalQuantity.toNat

/-- Each fill was taken off a level at the price reported. -/
def OwnLevels (log : List Obs) : Prop :=
  ∀ side level result, Obs.lowered side level result ∈ log →
    level.priceTicks = result.priceTicks

section Log

variable {side : Side} {p : Int64} {log : List Obs}

theorem reportedQty_cons (o : Obs) :
    reportedQty side p (o :: log) = o.reportedAt side p + reportedQty side p log := by
  simp [reportedQty]

theorem restedQty_cons (o : Obs) :
    restedQty side p (o :: log) = o.restedAt side p + restedQty side p log := by
  simp [restedQty]

theorem inFlight_cons (f : Frame) (frames : List Frame) :
    inFlight side p (f :: frames) = f.inFlightAt side p + inFlight side p frames := by
  simp [inFlight]

end Log

/-! ## Ladders -/

section Ladders

variable {l : FlatPriceLadder}

/-- A fill taken off the level at a position. -/
theorem fill_writeAt (h : l.Sorted) {i : Nat} {level : PriceLevel}
    (hlevel : l.levels[i]? = some level) (q : UInt32) :
    (l.writeAt i (level.fill q)).Sorted ∧
      (q.toNat ≤ level.totalQuantity.toNat → ∀ kind,
        (l.writeAt i (level.fill q)).qtyWhere kind + (if kind level.priceTicks then q.toNat else 0) =
          l.qtyWhere kind) := by
  obtain ⟨hlt, hget⟩ := List.getElem?_eq_some_iff.mp hlevel
  obtain ⟨lo, hi, hl, _, hset⟩ : ∃ lo hi, l.levels = lo ++ l.levels[i] :: hi ∧ lo.length = i ∧
      l.levels.set i (level.fill q) = lo ++ level.fill q :: hi := List.exists_of_set hlt
  rw [hget] at hl
  refine ⟨?_, ?_⟩
  · unfold FlatPriceLadder.Sorted FlatPriceLadder.writeAt
    rw [hset]
    rw [FlatPriceLadder.Sorted, hl] at h
    exact SortedList.ascending_replace lo h rfl
  · intro hle kind
    unfold FlatPriceLadder.qtyWhere FlatPriceLadder.writeAt
    rw [hset, hl, qtyIn_append, qtyIn_append, qtyIn_cons, qtyIn_cons]
    have htotal := PriceLevel.toNat_fill hle
    show _ + ((if kind level.priceTicks then _ else 0) + _) + _ = _
    split <;> omega

theorem ladder_settle (b : OrderBook n) (slot : UInt32) (side : Side) (p : Int64) (q : UInt32)
    (side' : Side) :
    (b.settle slot side p q).ladder side' =
      if side' = side ∧ q ≠ 0 then (b.ladder side').upsert p q else b.ladder side' := by
  by_cases hq : q = 0 <;> cases side <;> cases side' <;>
    simp [OrderBook.settle, OrderBook.ladder, hq]

end Ladders

/-! ## The balance -/

/-- What is reported or on a level is what rested there or is in flight. -/
structure Balanced (m : Machine n) : Prop where
  sorted : ∀ side, (m.book.ladder side).Sorted
  balance : ∀ side p, reportedQty side p m.log + (m.book.ladder side).qtyAt p =
    restedQty side p m.log + inFlight side p m.frames
  reported : ∀ side p, inFlight side p m.frames ≤ reportedQty side p m.log

namespace Machine

variable (grow : Nat → Nat) {m m' : Machine n}

theorem balanced_new (symbolId : UInt32) : Balanced (Machine.new n symbolId) := by
  refine ⟨(wf_new symbolId).sorted, ?_, ?_⟩
  · intro side p
    show 0 + ((OrderBook.new n symbolId).ladder side).qtyAt p = 0
    rw [ladder_new]
    rfl
  · exact fun _ _ => Nat.le_refl _

/-- A step that moves no quantity keeps the balance. -/
theorem balanced_idle (h : Balanced m) (hframes : m'.frames = m.frames) {o : Obs}
    (hlog : m'.log = o :: m.log) (hreturn : o.isReturn = true)
    (hladder : ∀ side, m'.book.ladder side = m.book.ladder side ∨
      ∃ p, m'.book.ladder side = (m.book.ladder side).removeIfEmpty p) : Balanced m' := by
  have ho : ∀ side p, o.reportedAt side p = 0 ∧ o.restedAt side p = 0 := by
    intro side p
    cases o with
    | returned orderId => exact ⟨rfl, rfl⟩
    | cancelled ok => exact ⟨rfl, rfl⟩
    | matched side' r => cases hreturn
    | lowered side' level r => cases hreturn
    | rested side' p' q => cases hreturn
  have hreported : ∀ side p, reportedQty side p m'.log = reportedQty side p m.log := by
    intro side p
    rw [hlog, reportedQty_cons, (ho side p).1, Nat.zero_add]
  have hrested : ∀ side p, restedQty side p m'.log = restedQty side p m.log := by
    intro side p
    rw [hlog, restedQty_cons, (ho side p).2, Nat.zero_add]
  refine ⟨?_, ?_, ?_⟩
  · intro side
    rcases hladder side with hsame | ⟨p, hremoved⟩
    · rw [hsame]
      exact h.sorted side
    · rw [hremoved]
      exact FlatPriceLadder.sorted_removeIfEmpty (h.sorted side) p
  · intro side p
    have hqty : (m'.book.ladder side).qtyAt p = (m.book.ladder side).qtyAt p := by
      rcases hladder side with hsame | ⟨p', hremoved⟩
      · rw [hsame]
      · rw [hremoved]
        exact FlatPriceLadder.qtyWhere_removeIfEmpty (h.sorted side) p' _
    rw [hreported, hrested, hframes, hqty]
    exact h.balance side p
  · intro side p
    rw [hreported, hframes]
    exact h.reported side p

/-- A report puts its fill in flight. -/
theorem balanced_report (h : Balanced m) (a : Activation) (level : PriceLevel) :
    Balanced (m.report a level) := by
  have hfill : ∀ side p result pointer, Frame.inFlightAt side p ⟨a, result, pointer⟩ =
      Obs.reportedAt side p (.matched a.side.opposite result) := fun _ _ _ _ => rfl
  have hnone : ∀ side p result,
      Obs.restedAt side p (.matched a.side.opposite result) = 0 := fun _ _ _ => rfl
  refine ⟨h.sorted, ?_, ?_⟩
  · intro side p
    have hbalance := h.balance side p
    simp only [report, reportedQty_cons, restedQty_cons, inFlight_cons, hfill, hnone]
    omega
  · intro side p
    have hreported := h.reported side p
    simp only [report, reportedQty_cons, inFlight_cons, hfill]
    omega

/-- The order that rests is in the log, and reports nothing. -/
theorem log_finish (m : Machine n) (a : Activation) (side : Side) (p : Int64) :
    reportedQty side p (m.finish grow a).log = reportedQty side p m.log ∧
      restedQty side p (m.finish grow a).log = restedQty side p m.log +
        if side = a.side ∧ a.quantity ≠ 0 ∧ a.priceTicks = p then a.quantity.toNat else 0 := by
  by_cases hzero : a.quantity = 0
  · simp [finish, reportedQty_cons, restedQty_cons, Obs.reportedAt, Obs.restedAt, hzero]
  · simp only [finish, hzero, if_false, List.singleton_append, reportedQty_cons, restedQty_cons,
      Obs.reportedAt, Obs.restedAt, eq_comm (a := side), ne_eq, not_false_eq_true, true_and]
    omega

/-- The level of an order that rests has room for it: all that ever rested
there is less than `2^64`. -/
theorem room_finish (h : Balanced m) {a : Activation} (hzero : a.quantity ≠ 0)
    (hfits : ∀ side p, restedQty side p (m.finish grow a).log < 2 ^ 64) :
    (m.book.ladder a.side).qtyAt a.priceTicks + a.quantity.toNat < 2 ^ 64 := by
  have hfit := hfits a.side a.priceTicks
  have hheld := h.balance a.side a.priceTicks
  have hknown := h.reported a.side a.priceTicks
  rw [(log_finish grow m a _ _).2, if_pos ⟨rfl, hzero, rfl⟩] at hfit
  omega

/-- What the end of `add_order` does to the ladders. -/
theorem ladder_finish (m : Machine n) (a : Activation) (side : Side) :
    (m.finish grow a).book.ladder side =
      if side = a.side ∧ a.quantity ≠ 0 then (m.book.ladder side).upsert a.priceTicks a.quantity
      else m.book.ladder side :=
  ladder_settle m.book a.slot a.side a.priceTicks a.quantity side

/-- What rests at the end of `add_order` is on its level. -/
theorem balanced_finish (h : Balanced m) (a : Activation)
    (hfits : ∀ side p, restedQty side p (m.finish grow a).log < 2 ^ 64) :
    Balanced (m.finish grow a) := by
  have hladder := ladder_finish grow m a
  refine ⟨?_, ?_, ?_⟩
  · intro side
    rw [hladder]
    split
    · exact FlatPriceLadder.sorted_upsert (h.sorted side) _ _
    · exact h.sorted side
  · intro side p
    have hbalance := h.balance side p
    obtain ⟨hreported, hrested⟩ := log_finish grow m a side p
    rw [hreported, hladder, hrested]
    show _ = _ + _ + inFlight side p m.frames
    by_cases hrests : side = a.side ∧ a.quantity ≠ 0
    · obtain ⟨rfl, hzero⟩ := hrests
      have hups := FlatPriceLadder.qtyWhere_upsert (h.sorted a.side) (room_finish grow h hzero hfits)
        fun p' => p' = p
      rw [if_pos ⟨rfl, hzero⟩]
      unfold FlatPriceLadder.qtyAt at hbalance ⊢
      rw [hups]
      by_cases hp : a.priceTicks = p
      · rw [if_pos (decide_eq_true hp), if_pos ⟨rfl, hzero, hp⟩]
        omega
      · rw [if_neg (by simpa using hp), if_neg (fun hc => hp hc.2.2)]
        omega
    · rw [if_neg hrests, if_neg (fun hc => hrests ⟨hc.1, hc.2.1⟩)]
      omega
  · intro side p
    rw [(log_finish grow m a side p).1]
    exact h.reported side p

/-- What `lower` does to the ladders: the level is written and, if empty,
removed; the other ladder is kept. -/
theorem ladder_lower (f : Frame) (level : PriceLevel) (m : Machine n) (side : Side) :
    (m.lower f level).book.ladder side =
      if side = f.sweeps then
        ((m.book.ladder f.sweeps).writeAt f.level.index
          (level.fill f.result.quantity)).removeIfEmpty level.priceTicks
      else m.book.ladder side := by
  rw [lower]
  cases f.sweeps <;> cases side <;> rfl

/-- Such a fill leaves its level. -/
theorem qtyAt_lower (h : Balanced m) {f : Frame} {level : PriceLevel}
    (hlevel : (m.book.ladder f.sweeps).levels[f.level.index]? = some level)
    (hown : level.priceTicks = f.result.priceTicks)
    (hle : f.result.quantity.toNat ≤ level.totalQuantity.toNat) (side : Side) :
    ((m.lower f level).book.ladder side).Sorted ∧
      ∀ p, ((m.lower f level).book.ladder side).qtyAt p + f.inFlightAt side p =
        (m.book.ladder side).qtyAt p := by
  obtain ⟨hwritten, hqty⟩ := fill_writeAt (h.sorted f.sweeps) hlevel f.result.quantity
  rw [ladder_lower, hown]
  by_cases hside : side = f.sweeps
  · subst hside
    rw [if_pos rfl]
    refine ⟨FlatPriceLadder.sorted_removeIfEmpty hwritten _, ?_⟩
    intro p
    have hprice := hqty hle fun p' => p' = p
    unfold FlatPriceLadder.qtyAt Frame.inFlightAt
    rw [FlatPriceLadder.qtyWhere_removeIfEmpty hwritten, ← hprice, hown]
    simp
  · rw [if_neg hside]
    refine ⟨h.sorted side, ?_⟩
    intro p
    rw [Frame.inFlightAt, if_neg (fun hc => hside hc.1.symm), Nat.add_zero]

/-- A fill taken off a level that holds it, at the price reported, is no
longer in flight. -/
theorem balanced_lower (h : Balanced m) {f : Frame} {frames : List Frame}
    (hframes : m.frames = f :: frames) {level : PriceLevel}
    (hlevel : (m.book.ladder f.sweeps).levels[f.level.index]? = some level)
    (hown : level.priceTicks = f.result.priceTicks)
    (hle : f.result.quantity.toNat ≤ level.totalQuantity.toNat) :
    Balanced (lower f level { m with frames := frames }) := by
  have hladder := qtyAt_lower h hlevel hown hle
  -- the entry in the log is neither a report nor an order that rests
  have hreported : ∀ side p, reportedQty side p (lower f level { m with frames := frames }).log =
      reportedQty side p m.log := by
    intro side p
    simp [lower, reportedQty_cons, Obs.reportedAt]
  have hrested : ∀ side p, restedQty side p (lower f level { m with frames := frames }).log =
      restedQty side p m.log := by
    intro side p
    simp [lower, restedQty_cons, Obs.restedAt]
  refine ⟨fun side => (hladder side).1, ?_, ?_⟩
  · intro side p
    have hbalance := h.balance side p
    have hqty := (hladder side).2 p
    rw [hframes, inFlight_cons] at hbalance
    rw [hreported, hrested]
    show _ + ((m.lower f level).book.ladder side).qtyAt p = _ + inFlight side p frames
    omega
  · intro side p
    have hknown := h.reported side p
    rw [hframes, inFlight_cons] at hknown
    rw [hreported]
    show inFlight side p frames ≤ _
    omega

end Machine

end HftEngine
