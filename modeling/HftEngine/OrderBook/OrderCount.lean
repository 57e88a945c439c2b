import HftEngine.OrderBook.Conservation
import HftEngine.OrderBook.Greedy

/-!
# What an order count counts

`upsert` adds one to the order count of a level, and nothing takes it away:
the matching loops lower the quantity of a level and leave its count.  So the
count of a level is the number of orders that have joined it since it was
made, filled or not, while its quantity is what they brought less what was
traded away (`level_run`).

A level can come to count more orders than it has units only where an order
stops inside it.  All levels of a run count no more orders than units exactly
if every such order leaves the level a unit for each order counted there, a
condition on each call and the book it is made on (`counts_within_totals_iff`);
two asks of one unit and a buyer of one do not meet it
(`count_exceeds_total`).
-/

namespace HftEngine

open Lib

variable {n : PoolSize}

/-- A call left an order resting on a side at a price. -/
def Event.joins (side : Side) (priceTicks : Int64) (e : Event n) : Bool :=
  match e.rests with
  | some o => o.side = side ∧ o.priceTicks = priceTicks
  | none => false

/-- The count of the level which a resting order joins does not wrap. -/
def Event.CountFits (e : Event n) : Prop :=
  ∀ o, e.rests = some o → ∀ x, (e.before.ladder o.side).find o.priceTicks = some x →
    x.orderCount.toNat + 1 < 2 ^ 32

section Since

variable (side : Side) (priceTicks : Int64) (h : List (Event n))

/-- The calls since the level at a price was made, newest first: those after
which it is there. -/
def sinceMade : List (Event n) :=
  h.takeWhile fun e => ((e.after.ladder side).find priceTicks).isSome

/-- The number of orders that joined the level since it was made. -/
def joinedOrders : Nat := (sinceMade side priceTicks h).countP (Event.joins side priceTicks)

/-- What those orders brought. -/
def joinedQty : Nat :=
  ((sinceMade side priceTicks h).map (Event.restedWhere (fun p => p = priceTicks) side)).sum

/-- What was traded away from the level since it was made. -/
def tradedSince : Nat :=
  ((sinceMade side priceTicks h).map (Event.tradedWhere (fun p => p = priceTicks) side)).sum

end Since

/-! ## One call -/

/-- The order count of a level found after an order joined a ladder. -/
theorem count_upsert {l : FlatPriceLadder} (h : l.Sorted) {p : Int64} (q : UInt32)
    (hroom : ∀ y, l.find p = some y → y.orderCount.toNat + 1 < 2 ^ 32) {p' : Int64}
    {x : PriceLevel} (hx : (l.upsert p q).find p' = some x) :
    x.orderCount.toNat =
      ((l.find p').map (·.orderCount.toNat)).getD 0 + if p = p' then 1 else 0 := by
  rw [FlatPriceLadder.find_upsert h] at hx
  by_cases hp : p = p'
  · subst hp
    rw [if_pos rfl] at hx
    injection hx with hx
    subst hx
    cases hbefore : l.find p with
    | none => simp [PriceLevel.join]
    | some y =>
      simp only [PriceLevel.join, Option.getD_some, Option.map_some, UInt32.toNat_add, if_true]
      exact Nat.mod_eq_of_lt (hroom y hbefore)
  · rw [if_neg (Ne.symm hp)] at hx
    simp [hx, hp]

section Step

variable {b b' : OrderBook n} {fuel : Nat} {c : Call} {r : Reply}

theorem joins_of_rests {e : Event n} {o : Resting} (h : e.rests = some o) (side : Side) (p : Int64) :
    e.joins side p = decide (o.side = side ∧ o.priceTicks = p) := by
  rw [Event.joins, h]

theorem joins_of_rests_none {e : Event n} (h : e.rests = none) (side : Side) (p : Int64) :
    e.joins side p = false := by
  rw [Event.joins, h]

/-- The order count of a level found after a call: one more than before if
the call's order joined it, and otherwise what it was. -/
theorem count_step (hwf : Wf b) (hexec : b.exec fuel c = some (r, b'))
    (hfits : (⟨b, c, r, b'⟩ : Event n).CountFits) {side : Side} {p : Int64} {x : PriceLevel}
    (hx : (b'.ladder side).find p = some x) :
    x.orderCount.toNat = (((b.ladder side).find p).map (·.orderCount.toNat)).getD 0 +
      if (⟨b, c, r, b'⟩ : Event n).joins side p then 1 else 0 := by
  have hout := OrderBook.exec_outcome hexec
  cases hout with
  | idle hc _ hsame =>
    rw [hsame.ladder] at hx
    simp [joins_of_rests_none (rests_of_cancels hc), hx]
  | @released _ _ _ _ slot hc _ hrel =>
    have hkept : (b.ladder side).find p = some x := by
      rcases Side.eq_or_opposite (b.orderPool slot.toNat).side side with rfl | rfl
      · rw [hrel.own] at hx
        exact FlatPriceLadder.find_removeIfEmpty (hwf.sorted _) _ hx
      · rw [hrel.opposite] at hx
        exact hx
    simp [joins_of_rests_none (rests_of_cancels hc), hkept]
  | refused _ hfree =>
    have hkept : (b.ladder side).find p = some x := by
      cases side <;> exact hx
    simp [joins_of_rests_none (rests_refused hfree), hkept]
  | @placed side' p' q type slot freeList s _ htype hpop hs hp =>
    have hrests := rests_placed b' b.nextOrderId htype hpop (matching_matched (hwf.sorted _) hs)
    rcases Side.eq_or_opposite side' side with rfl | rfl
    · rw [hp.own] at hx
      by_cases hzero : s.quantity = 0
      · rw [if_pos hzero] at hx hrests
        simp [joins_of_rests_none hrests, hx]
      · rw [if_neg hzero] at hx hrests
        have hcount := count_upsert (hwf.sorted _) _ (hfits _ hrests) hx
        simpa [joins_of_rests hrests] using hcount
    · -- the other side: the matching loop leaves counts alone
      rw [hp.opposite] at hx
      obtain ⟨y, hy, hcount⟩ := find_matching (hwf.sorted _) hs hx
      by_cases hzero : s.quantity = 0
      · rw [if_pos hzero] at hrests
        simp [joins_of_rests_none hrests, hy, hcount]
      · rw [if_neg hzero] at hrests
        simp [joins_of_rests hrests, Ne.symm side'.opposite_ne, hy, hcount]

end Step

/-! ## Whole runs -/

/-- A level that is not there has no calls since it was made. -/
theorem sinceMade_of_absent {h : List (Event n)} {b : OrderBook n} (hrun : Run h b) {side : Side}
    {p : Int64} (hnone : (b.ladder side).find p = none) : sinceMade side p h = [] := by
  cases hrun with
  | new symbolId => rfl
  | call _ _ => simp [sinceMade, hnone]

/-- **What a level shows.** Its count is the number of orders that joined it
since it was made; its quantity, with what was traded away since, is what
those orders brought. -/
theorem level_run {h : List (Event n)} {b : OrderBook n} (hrun : Run h b)
    (hfits : ∀ e ∈ h, e.Fits) (hcounts : ∀ e ∈ h, e.CountFits) {side : Side} {p : Int64}
    {x : PriceLevel} (hx : (b.ladder side).find p = some x) :
    x.orderCount.toNat = joinedOrders side p h ∧
      x.totalQuantity.toNat + tradedSince side p h = joinedQty side p h := by
  induction hrun generalizing x with
  | new symbolId =>
    rw [ladder_new] at hx
    exact absurd hx (by simp [FlatPriceLadder.find])
  | @call h b b' c r fuel hrun hexec ih =>
    have hwf := wf_run hrun
    have hcount := count_step hwf hexec (hcounts _ List.mem_cons_self) hx
    have hflow := flow_outcome hwf hexec (hfits _ List.mem_cons_self) side fun p' => p' = p
    have hafter := FlatPriceLadder.qtyAt_of_find ((wf_run (hrun.call hexec)).sorted side) p
    have hbefore := FlatPriceLadder.qtyAt_of_find (hwf.sorted side) p
    unfold FlatPriceLadder.qtyAt at hafter hbefore
    rw [hafter, hbefore, hx] at hflow
    -- the level is there, so the new call is one of those since it was made
    have hsince : sinceMade side p (⟨b, c, r, b'⟩ :: h) = ⟨b, c, r, b'⟩ :: sinceMade side p h := by
      simp [sinceMade, hx]
    simp only [joinedOrders, joinedQty, tradedSince, hsince, List.countP_cons, List.map_cons,
      List.sum_cons]
    cases hfind : (b.ladder side).find p with
    | none =>
      rw [hfind] at hcount hflow
      rw [sinceMade_of_absent hrun hfind]
      simp only [Option.map_none, Option.getD_none, Option.map_some, Option.getD_some] at hcount hflow
      simp only [List.countP_nil, List.map_nil, List.sum_nil]
      omega
    | some y =>
      obtain ⟨hcount', hqty'⟩ := ih (fun e he => hfits e (List.mem_cons_of_mem _ he))
        (fun e he => hcounts e (List.mem_cons_of_mem _ he)) hfind
      rw [hfind] at hcount hflow
      simp only [Option.map_some, Option.getD_some] at hcount hflow
      unfold joinedOrders at hcount'
      unfold joinedQty tradedSince at hqty'
      omega

/-- No count wraps in the first `2^32` calls. -/
theorem countFits_run {h : List (Event n)} {b : OrderBook n} (hrun : Run h b)
    (hlen : h.length < 2 ^ 32) : ∀ e ∈ h, e.CountFits := by
  induction hrun with
  | new symbolId => simp
  | @call h b b' c r fuel hrun hexec ih =>
    rw [List.length_cons] at hlen
    have ih := ih (by omega)
    intro e he
    rcases List.mem_cons.mp he with rfl | he
    · intro o _ x hx
      have hcount := (level_run hrun (fits_run hrun (by omega)) ih hx).1
      have hle : joinedOrders o.side o.priceTicks h ≤ h.length :=
        List.countP_le_length.trans (List.takeWhile_sublist _).length_le
      omega
    · exact ih e he

/-! ## No more orders than units -/

/-- A level counts no more orders than it has units. -/
def PriceLevel.Covers (x : PriceLevel) : Prop := x.orderCount.toNat ≤ x.totalQuantity.toNat

/-- Where the quantity `q`, taken from the front of a queue, ends inside a
level within the limit, it leaves that level a unit for each order counted
there. -/
def LeavesCounts (beyond : Int64 → Bool) (q : Nat) (queue : List PriceLevel) : Prop :=
  ∀ ahead x behind, queue = ahead ++ x :: behind → beyond x.priceTicks = false →
    (ahead.map (·.totalQuantity.toNat)).sum < q →
    q < (ahead.map (·.totalQuantity.toNat)).sum + x.totalQuantity.toNat →
    q + x.orderCount.toNat ≤ (ahead.map (·.totalQuantity.toNat)).sum + x.totalQuantity.toNat

/-- The same of a call, by the book it is made on.  A cancel takes nothing,
nor does an order for which there is no slot. -/
def Call.LeavesCounts (b : OrderBook n) : Call → Prop
  | .add side priceTicks quantity type => type ≠ .cancel → b.freeList.contents ≠ [] →
      HftEngine.LeavesCounts (fun p => (Taker.of side).beyond p priceTicks) quantity.toNat
        (side.queue (b.ladder side.opposite))
  | .cancel _ => True

/-- The condition level by level: on the head, and on the rest for what the
head leaves of the quantity. -/
theorem leavesCounts_cons {beyond : Int64 → Bool} {q : Nat} {x : PriceLevel}
    {rest : List PriceLevel} :
    LeavesCounts beyond q (x :: rest) ↔
      (beyond x.priceTicks = false → 0 < q → q < x.totalQuantity.toNat →
        q + x.orderCount.toNat ≤ x.totalQuantity.toNat) ∧
      LeavesCounts beyond (q - x.totalQuantity.toNat) rest := by
  constructor
  · intro hleaves
    refine ⟨fun hx hpos hlt => ?_, fun ahead y behind hsplit hy hahead hlt => ?_⟩
    · have hle := hleaves [] x rest rfl hx (by simpa using hpos) (by simpa using hlt)
      simpa using hle
    · have hle := hleaves (x :: ahead) y behind (by rw [hsplit]; rfl) hy
      simp only [List.map_cons, List.sum_cons] at hle
      omega
  · rintro ⟨hhead, hrest⟩ ahead y behind hsplit hy hahead hlt
    cases ahead with
    | nil =>
      injection hsplit with hxy _
      subst hxy
      simp only [List.map_nil, List.sum_nil, Nat.zero_add] at hahead hlt ⊢
      exact hhead hy hahead hlt
    | cons z ahead =>
      injection hsplit with hxz hsplit
      subst hxz
      simp only [List.map_cons, List.sum_cons] at hahead hlt ⊢
      have hle := hrest ahead y behind hsplit hy (by omega) (by omega)
      omega

/-- An order executed by priority against levels that cover their counts:
they still do after it exactly if it leaves the counts. -/
theorem Greedy.covers_iff {beyond : Int64 → Bool} {q : UInt32} {queue queue' : List PriceLevel}
    {fills : List MatchResult} (h : Greedy beyond q queue fills queue')
    (hmono : queue.Pairwise fun x y => beyond x.priceTicks = true → beyond y.priceTicks = true)
    (hcovers : ∀ x ∈ queue, x.Covers) :
    (∀ x ∈ queue', x.Covers) ↔ LeavesCounts beyond q.toNat queue := by
  induction h with
  | filled queue =>
    refine iff_of_true hcovers ?_
    intro ahead x behind _ _ hahead
    exact absurd hahead (by simp)
  | empty q =>
    refine iff_of_true hcovers ?_
    intro ahead x behind hsplit
    exact absurd hsplit (by simp)
  | @stopped q x rest hx =>
    -- the rest of the queue is beyond the limit too
    refine iff_of_true hcovers ?_
    intro ahead y behind hsplit hy
    have hmem : y ∈ x :: rest := by rw [hsplit]; simp
    rcases List.mem_cons.mp hmem with rfl | hmem
    · rw [hx] at hy
      cases hy
    · rw [(List.pairwise_cons.mp hmono).1 y hmem hx] at hy
      cases hy
  | @part q x rest hq hx hlt =>
    have hpos : 0 < q.toNat := Nat.pos_of_ne_zero fun hz => hq (UInt32.toNat_inj.mp hz)
    have htotal := PriceLevel.toNat_fill hlt.le
    have hcount : (x.fill q).orderCount = x.orderCount := rfl
    obtain ⟨_, hrest⟩ := List.forall_mem_cons.mp hcovers
    rw [leavesCounts_cons, List.forall_mem_cons, PriceLevel.Covers, htotal, hcount]
    constructor
    · rintro ⟨hhead, _⟩
      refine ⟨fun _ _ _ => by omega, ?_⟩
      -- nothing is left of the order behind this level
      intro ahead y behind _ _ hahead
      omega
    · rintro ⟨hhead, _⟩
      have hle := hhead hx hpos hlt
      exact ⟨by omega, hrest⟩
  | @whole q x rest queue' fills hq hx hle _ ih =>
    rw [ih (List.pairwise_cons.mp hmono).2 (List.forall_mem_cons.mp hcovers).2,
      toNat_sub_total hle, leavesCounts_cons]
    refine ⟨fun hleaves => ⟨fun _ _ hlt => ?_, hleaves⟩, fun hleaves => hleaves.2⟩
    omega

/-- A level that one more order joins still covers its count. -/
theorem PriceLevel.covers_join {x : PriceLevel} (hx : x.Covers) {q : UInt32} (hq : q ≠ 0)
    (hroom : x.totalQuantity.toNat + q.toNat < 2 ^ 64) : (x.join q).Covers := by
  have hpos : 0 < q.toNat := Nat.pos_of_ne_zero fun hz => hq (UInt32.toNat_inj.mp hz)
  have hcount : (x.orderCount + 1).toNat ≤ x.orderCount.toNat + 1 := by
    rw [UInt32.toNat_add]
    exact Nat.mod_le _ _
  unfold Covers at hx ⊢
  simp only [join]
  rw [UInt64.toNat_add, UInt32.toNat_toUInt64, Nat.mod_eq_of_lt hroom]
  omega

/-- So do the levels of a ladder that an order joins. -/
theorem covers_upsert {l : FlatPriceLadder} (h : l.Sorted) (hl : ∀ x ∈ l.levels, x.Covers)
    {p : Int64} {q : UInt32} (hq : q ≠ 0) (hroom : l.qtyAt p + q.toNat < 2 ^ 64) :
    ∀ x ∈ (l.upsert p q).levels, x.Covers := by
  intro x hx
  have hfind := FlatPriceLadder.find_of_mem (FlatPriceLadder.sorted_upsert h p q) hx
  rw [FlatPriceLadder.find_upsert h] at hfind
  by_cases hp : x.priceTicks = p
  · rw [if_pos hp] at hfind
    injection hfind with hfind
    rw [← hfind]
    rw [FlatPriceLadder.qtyAt_of_find h] at hroom
    cases hbefore : l.find p with
    | none =>
      rw [hbefore] at hroom
      refine PriceLevel.covers_join (Nat.zero_le _) hq ?_
      simpa using hroom
    | some y =>
      rw [hbefore] at hroom
      exact PriceLevel.covers_join (hl y ((FlatPriceLadder.find_eq_some h).mp hbefore).1) hq hroom
  · rw [if_neg hp] at hfind
    exact hl x ((FlatPriceLadder.find_eq_some h).mp hfind).1

/-- Every level of both ladders covers its count. -/
def OrderBook.Covers (b : OrderBook n) : Prop := ∀ side, ∀ x ∈ (b.ladder side).levels, x.Covers

theorem leavesCounts_of_cancels {b : OrderBook n} {c : Call} {orderId : UInt64}
    (hc : c.cancels = some orderId) : c.LeavesCounts b := by
  cases c with
  | cancel => trivial
  | add side p q type =>
    intro htype
    cases type with
    | limit => cases hc
    | market => cases hc
    | cancel => exact absurd rfl htype

/-- The opposite ladder of an order that was placed covers its counts exactly
if the order leaves them. -/
theorem covers_opposite {b b' : OrderBook n} {fuel : Nat} {side : Side} {p : Int64} {q : UInt32}
    {slot : UInt32} {freeList : SpscQueue UInt32 n.log2} {s : MatchLoop} (hwf : Wf b)
    (hb : b.Covers) (hs : b.matching fuel side p q = some s)
    (hp : OrderBook.Placed b side p slot freeList s b') :
    (∀ x ∈ (b'.ladder side.opposite).levels, x.Covers) ↔
      LeavesCounts (fun p' => (Taker.of side).beyond p' p) q.toNat
        (side.queue (b.ladder side.opposite)) := by
  have hiff := (greedy_of_matching (hwf.sorted _) hs).covers_iff
    (queue_beyond side (hwf.sorted _) p) fun x hx => hb _ x (mem_queue.mp hx)
  rw [← hiff, hp.opposite]
  exact forall_congr' fun x => imp_congr_left mem_queue.symm

/-- **One call**: the levels still cover their counts exactly if it leaves
the counts. -/
theorem covers_step {b b' : OrderBook n} {fuel : Nat} {c : Call} {r : Reply} (hwf : Wf b)
    (hexec : b.exec fuel c = some (r, b')) (hfits : (⟨b, c, r, b'⟩ : Event n).Fits)
    (hb : b.Covers) : b'.Covers ↔ c.LeavesCounts b := by
  cases OrderBook.exec_outcome hexec with
  | idle hc _ hsame =>
    refine iff_of_true ?_ (leavesCounts_of_cancels hc)
    intro side x hx
    rw [hsame.ladder] at hx
    exact hb side x hx
  | @released _ _ _ _ slot hc _ hrel =>
    refine iff_of_true ?_ (leavesCounts_of_cancels hc)
    intro side x hx
    rcases Side.eq_or_opposite (b.orderPool slot.toNat).side side with rfl | rfl
    · rw [hrel.own] at hx
      exact hb _ x (FlatPriceLadder.mem_of_mem_removeIfEmpty (hwf.sorted _) hx)
    · rw [hrel.opposite] at hx
      exact hb _ x hx
  | refused _ hfree =>
    refine iff_of_true ?_ (fun _ hne => absurd hfree hne)
    intro side x hx
    refine hb side x ?_
    cases side <;> exact hx
  | @placed side p q type slot freeList s _ htype hpop hs hp =>
    have hne : b.freeList.contents ≠ [] := by
      rw [SpscQueue.contents_of_pop hpop]
      exact List.cons_ne_nil _ _
    -- what rests covers its count, so the opposite ladder decides
    have hown : ∀ x ∈ (b'.ladder side).levels, x.Covers := by
      have hrests := rests_placed b' b.nextOrderId htype hpop (matching_matched (hwf.sorted _) hs)
      rw [hp.own]
      by_cases hzero : s.quantity = 0
      · rw [if_pos hzero]
        exact hb side
      · rw [if_neg hzero] at hrests ⊢
        exact covers_upsert (hwf.sorted side) (hb side) hzero (hfits _ hrests)
    have hopp := covers_opposite hwf hb hs hp
    constructor
    · intro hb' _ _
      exact hopp.mp (hb' side.opposite)
    · intro hleaves side'
      rcases Side.eq_or_opposite side side' with rfl | rfl
      · exact hown
      · exact hopp.mpr (hleaves htype hne)

/-- The book at the end of a run is a fresh one or the one its last call
left. -/
theorem covers_of_events {h : List (Event n)} {b : OrderBook n} (hrun : Run h b)
    (hcovers : ∀ e ∈ h, e.after.Covers) : b.Covers := by
  cases hrun with
  | new symbolId =>
    intro side x hx
    rw [ladder_new] at hx
    exact absurd hx (by simp)
  | call hrun hexec => exact hcovers _ List.mem_cons_self

/-- **When a level counts no more orders than it has units.** In a run in
which no total wraps, that holds of every level after every call exactly if
each order that stops inside a level leaves there at least as many units as
the level counts orders. -/
theorem counts_within_totals_iff {h : List (Event n)} {b : OrderBook n} (hrun : Run h b)
    (hfits : ∀ e ∈ h, e.Fits) :
    (∀ e ∈ h, ∀ side, ∀ x ∈ (e.after.ladder side).levels,
        x.orderCount.toNat ≤ x.totalQuantity.toNat) ↔
      ∀ e ∈ h, e.call.LeavesCounts e.before := by
  show (∀ e ∈ h, e.after.Covers) ↔ _
  induction hrun with
  | new symbolId => simp
  | @call h b b' c r fuel hrun hexec ih =>
    obtain ⟨hfit, hfits⟩ := List.forall_mem_cons.mp hfits
    have ih := ih hfits
    rw [List.forall_mem_cons, List.forall_mem_cons, ih]
    refine and_congr_left fun hleaves => ?_
    exact covers_step (wf_run hrun) hexec hfit (covers_of_events hrun (ih.mpr hleaves))

/-- In a run of part fills the buyer of 25 leaves 35 units to the one order
at 9950. -/
theorem counts_within_totals_part_fills :
    partFills.2.asks.levels = [⟨9950, 35, 1⟩] ∧
      ∀ e ∈ partFills.1, e.call.LeavesCounts e.before := by
  have hrun : Run partFills.1 partFills.2 := run_played _
  refine ⟨rfl, (counts_within_totals_iff hrun (fits_run hrun (by decide))).mp ?_⟩
  intro e he side
  fin_cases he <;> cases side <;> decide

/-- Two asks of one unit at one price, and a buyer of one: the level is left
with one unit and a count of two. -/
theorem count_exceeds_total :
    ∃ (h : List (Event .default)) (b : OrderBook .default), Run h b ∧ LimitOnly h ∧
      (∀ e ∈ h, e.Fits ∧ e.CountFits) ∧ b.asks.levels = [⟨10100, 1, 2⟩] := by
  obtain ⟨b₁, _, hrun₁, hp₁, hfree₁, _, _⟩ :=
    Run.first_ask .default (by decide) 10100 (show (1 : UInt32) ≠ 0 by decide)
  have hbids₁ : b₁.ladder Side.sell.opposite = ⟨[]⟩ := hp₁.opposite
  have hasks₁ : b₁.ladder .sell = ⟨[⟨10100, 1, 1⟩]⟩ := by
    rw [hp₁.own, ladder_new]
    rfl
  have hsize : PoolSize.default.maxOrders - 2 = 1048574 := rfl
  rw [hsize] at hfree₁
  obtain ⟨slot₂, slot₃, rest, hcont₁⟩ :
      ∃ slot₂ slot₃ rest, b₁.freeList.contents = slot₂ :: slot₃ :: rest := by
    match b₁.freeList.contents, hfree₁ with
    | slot₂ :: slot₃ :: rest, _ => exact ⟨slot₂, slot₃, rest, rfl⟩
  obtain ⟨b₂, _, hrun₂, hp₂, hcont₂⟩ := hrun₁.place OrderType.limit_ne_cancel hcont₁
    (OrderBook.matching_of_empty .sell hbids₁ 10100 1)
  have hasks₂ : b₂.ladder .sell = ⟨[⟨10100, 2, 2⟩]⟩ := by
    rw [hp₂.own, hasks₁]
    rfl
  have hs₃ : b₂.matching 2 .buy 10100 1 =
      some ⟨0, ⟨[⟨10100, 1, 2⟩]⟩, [⟨0, 0, 10100, 1⟩]⟩ := by
    show loop _ 2 (⟨1, b₂.ladder .sell, []⟩ : MatchLoop) = _
    rw [hasks₂]
    rfl
  obtain ⟨b₃, _, hrun₃, hp₃, _⟩ := hrun₂.place OrderType.limit_ne_cancel hcont₂ hs₃
  refine ⟨_, b₃, hrun₃, ?_, ?_, ?_⟩
  · intro e he
    fin_cases he
    · exact ⟨.buy, 10100, 1, rfl⟩
    · exact ⟨.sell, 10100, 1, rfl⟩
    · exact ⟨.sell, 10100, 1, rfl⟩
  · intro e he
    exact ⟨fits_run hrun₃ (by simp) e he, countFits_run hrun₃ (by simp) e he⟩
  · exact congrArg FlatPriceLadder.levels hp₃.opposite

end HftEngine
