import HftEngine.OrderBook.Steady

/-!
# What a callback may do

Runs whose callbacks make harmless calls survive, and by the call alone
nothing but a cancel or an order of nothing is safe for a callback to make
(`callbacks_survive`): whatever the order, there is a book with one unit on it
that is sold twice (`order_overfills`).

The source has no rule for callbacks.  `callback_overfills` is a run in which
a level of five units is sold to one buyer, and three of them to the order
the buyer's callback makes; the total underflows.
-/

namespace HftEngine

open Lib

variable {n : PoolSize}

/-! ## Orders on one level -/

section OneLevel

variable (grow : Nat → Nat) {m : Machine n} (side : Side)

/-- What runs on a single level need to know of a machine: the ladder of a
side, the memory it is in, and the free slots. -/
structure Shows (m : Machine n) (side : Side) (levels : List PriceLevel) (slots : List UInt32) :
    Prop where
  ladder : m.book.ladder side = ⟨levels⟩
  buffer : m.buffers side = ⟨256, 0⟩
  slots : m.book.freeList.contents = slots

/-- The first order of a book rests. -/
theorem shows_rest {slot : UInt32} {rest : List UInt32} (h : Shows m side [] (slot :: rest))
    (hopp : m.book.ladder side.opposite = ⟨[]⟩) (p : Int64) {q : UInt32} (hq : q ≠ 0) :
    ∃ m' : Machine n, m.step grow (.call (.add side p q .limit)) = some m' ∧
      Shows m' side [⟨p, q.toUInt64, 1⟩] rest ∧ m'.frames = m.frames ∧
      m'.log = .returned m.book.nextOrderId :: .rested side p q :: m.log := by
  obtain ⟨free, hpop, hcont⟩ := SpscQueue.pop_of_contents h.slots
  have hnext : (⟨m.book.nextOrderId, slot, side, p, q⟩ : Activation).next
      ((m.take side p q .limit slot free).book.ladder side.opposite) = none := by
    rw [Machine.ladder_take, hopp]
    cases side <;> simp [Activation.next, Taker.of, Taker.buy, Taker.sell, FlatPriceLadder.worst,
      FlatPriceLadder.best]
  have hstep := Machine.step_add grow side p q OrderType.limit_ne_cancel hpop
  rw [Machine.proceed_finish grow hnext] at hstep
  have hladder : ((m.take side p q .limit slot free).finish grow
      ⟨m.book.nextOrderId, slot, side, p, q⟩).book.ladder side = ⟨[⟨p, q.toUInt64, 1⟩]⟩ := by
    rw [Machine.ladder_finish, if_pos ⟨rfl, hq⟩, Machine.ladder_take, h.ladder]
    rfl
  have hfits : (1 : Nat) ≤ (m.buffers side).capacity := by
    rw [h.buffer]
    decide
  refine ⟨_, hstep, ⟨hladder, ?_, ?_⟩, rfl, ?_⟩
  · rw [Machine.buffers_finish grow (by rw [hladder]; exact hfits)]
    exact h.buffer
  · rw [← hcont]
    cases side <;> simp [Machine.finish, OrderBook.settle, hq, Machine.take, OrderBook.allocate]
  · simp [Machine.finish, hq, Machine.take]

/-- An order is told of the level at its price. -/
theorem shows_taker {slot : UInt32} {rest : List UInt32} {x : PriceLevel}
    (h : Shows m side.opposite [x] (slot :: rest)) {q : UInt32} (hq : q ≠ 0) {type : OrderType}
    (htype : type ≠ .cancel) :
    ∃ m' : Machine n, m.step grow (.call (.add side x.priceTicks q type)) = some m' ∧
      Shows m' side.opposite [x] rest ∧
      m'.frames = ⟨⟨m.book.nextOrderId, slot, side, x.priceTicks, q⟩,
        ⟨0, 0, x.priceTicks, fillQty q x⟩, ⟨0, 0⟩⟩ :: m.frames ∧
      m'.log = .matched side.opposite ⟨0, 0, x.priceTicks, fillQty q x⟩ :: m.log := by
  obtain ⟨free, hpop, hcont⟩ := SpscQueue.pop_of_contents h.slots
  have hladder : (m.take side x.priceTicks q type slot free).book.ladder side.opposite = ⟨[x]⟩ := by
    rw [Machine.ladder_take, h.ladder]
  have hnext : (⟨m.book.nextOrderId, slot, side, x.priceTicks, q⟩ : Activation).next
      ((m.take side x.priceTicks q type slot free).book.ladder side.opposite) = some x := by
    rw [hladder, next_eq_some]
    refine ⟨UInt32.pos_iff_ne_zero.mpr hq, ?_, ?_⟩
    · cases side <;> rfl
    · cases side <;> simp [Taker.of, Taker.buy, Taker.sell]
  have hstep := Machine.step_add grow side x.priceTicks q htype hpop
  rw [Machine.proceed_report grow hnext] at hstep
  have hindex : side.topIndex ((m.take side x.priceTicks q type slot free).book.ladder
      side.opposite) = 0 := by
    rw [hladder]
    cases side <;> rfl
  refine ⟨_, hstep, ⟨hladder, h.buffer, hcont⟩, ?_, rfl⟩
  show Frame.mk _ _ ⟨(m.buffers side.opposite).generation, _⟩ :: m.frames = _
  rw [hindex, h.buffer]

/-- Its callback returns, and it is filled. -/
theorem shows_return {slots : List UInt32} {x y : PriceLevel}
    (h : Shows m side.opposite [x] slots) {orderId : UInt64} {slot : UInt32} {p : Int64}
    {q : UInt32} {frames : List Frame}
    (hframes : m.frames = ⟨⟨orderId, slot, side, p, q⟩, ⟨0, 0, p, q⟩, ⟨0, 0⟩⟩ :: frames)
    (hfill : FlatPriceLadder.removeIfEmpty ⟨[x.fill q]⟩ x.priceTicks = ⟨[y]⟩) :
    ∃ (m' : Machine n) (slots' : List UInt32), m.step grow .ret = some m' ∧
      Shows m' side.opposite [y] slots' ∧ m'.frames = frames ∧
      m'.log = .returned orderId :: .lowered side.opposite x ⟨0, 0, p, q⟩ :: m.log := by
  have hlevel : (m.book.ladder side.opposite).levels[0]? = some x := by
    rw [h.ladder]
    rfl
  have hgeneration : 0 = (m.buffers side.opposite).generation := by rw [h.buffer]
  have hret := Machine.step_ret grow hframes hgeneration hlevel
  have hzero : q - q = 0 := UInt32.sub_self q
  simp only [hzero] at hret
  rw [Machine.proceed_finish grow (by simp [Activation.next])] at hret
  have hlowered : ((m.book.ladder side.opposite).writeAt 0 (x.fill q)).removeIfEmpty x.priceTicks =
      ⟨[y]⟩ := by
    rw [h.ladder]
    exact hfill
  have hladder : (Machine.finish grow ⟨orderId, slot, side, p, 0⟩
      (Machine.lower ⟨⟨orderId, slot, side, p, q⟩, ⟨0, 0, p, q⟩, ⟨0, 0⟩⟩ x
        { m with frames := frames })).book.ladder side.opposite = ⟨[y]⟩ := by
    rw [Machine.ladder_finish, if_neg (by simp), Machine.ladder_lower]
    exact (if_pos rfl).trans hlowered
  have hfits : (1 : Nat) ≤ (m.buffers side.opposite).capacity := by
    rw [h.buffer]
    decide
  refine ⟨_, _, hret, ⟨hladder, ?_, rfl⟩, rfl, rfl⟩
  rw [Machine.buffers_finish grow (by rw [hladder]; exact hfits)]
  exact h.buffer

end OneLevel

/-- One unit, an order that takes it, and the call its callback makes. -/
def oneUnit (side : Side) (p : Int64) (c : Call) : List Input :=
  [.call (.add side.opposite p 1 .limit), .call (.add side p 1 .limit), .call c]

/-- Any order overfills some book if a callback makes it: the one unit is
reported twice. -/
theorem order_overfills (grow : Nat → Nat) (symbolId : UInt32) (hn : 2 ≤ n.log2) (side : Side)
    (p : Int64) {q : UInt32} (hq : q ≠ 0) {type : OrderType} (htype : type ≠ .cancel) :
    (∀ allow : Call → Prop, allow (.add side p q type) → (Machine.new n symbolId).Obeys grow
        (fun _ => allow) (oneUnit side p (.add side p q type))) ∧
      ¬(Machine.new n symbolId).Survives grow (oneUnit side p (.add side p q type)) := by
  obtain ⟨rest, hfree, hlen⟩ := OrderBook.contents_new_cons n symbolId (by omega)
  have hsize : 2 ^ 2 ≤ n.maxOrders := Nat.pow_le_pow_right (by decide) hn
  obtain ⟨slot₂, rest₂, rfl⟩ : ∃ slot₂ rest₂, rest = slot₂ :: rest₂ :=
    List.exists_cons_of_ne_nil fun h => by rw [h, List.length_nil] at hlen; omega
  obtain ⟨slot₃, rest₃, rfl⟩ : ∃ slot₃ rest₃, rest₂ = slot₃ :: rest₃ :=
    List.exists_cons_of_ne_nil fun h => by
      rw [h, List.length_cons, List.length_nil] at hlen
      omega
  have hone : (1 : UInt32) ≠ 0 := by decide
  obtain ⟨m₁, h₁, hshows₁, hframes₁, hlog₁⟩ := shows_rest grow side.opposite
    (m := Machine.new n symbolId) ⟨ladder_new symbolId _, rfl, hfree⟩ (ladder_new symbolId _) p hone
  obtain ⟨m₂, h₂, hshows₂, hframes₂, hlog₂⟩ :=
    shows_taker grow side hshows₁ hone OrderType.limit_ne_cancel
  obtain ⟨m₃, h₃, _, _, hlog₃⟩ := shows_taker grow side hshows₂ hq htype
  refine ⟨?_, ?_⟩
  · -- the first two calls are made by nobody's callback
    intro allow hallow
    refine ⟨fun _ _ hne => absurd rfl hne, fun m₁' h₁' => ?_⟩
    cases h₁.symm.trans h₁'
    refine ⟨fun _ _ hne => absurd hframes₁ hne, fun m₂' h₂' => ?_⟩
    cases h₂.symm.trans h₂'
    refine ⟨fun c hc _ => ?_, fun _ _ => trivial⟩
    cases hc
    exact hallow
  · intro hsurvives
    obtain ⟨m, hrun, _, hwithin⟩ := hsurvives _ List.prefix_rfl
    rw [oneUnit, Machine.run_cons grow h₁, Machine.run_cons grow h₂, Machine.run_cons grow h₃] at hrun
    cases hrun
    have hle := hwithin side.opposite p
    have hpos : q.toNat ≠ 0 := fun hz => hq (UInt32.toNat_inj.mp hz)
    rw [hlog₃, hlog₂, hlog₁] at hle
    simp [reportedQty, restedQty, Obs.reportedAt, Obs.restedAt, Machine.new, toNat_fillQty] at hle
    omega

/-- **Which callbacks are safe.** In a run of orders of less than `2^64`
units in all, if each call a callback makes is harmless in the state it is
made in, then at every moment no more is reported at a price than rested
there, no total has underflowed and no pointer dangled.  For callbacks that do
not look at the book the calls that are safe to make are exactly the cancels
and the orders of nothing. -/
theorem callbacks_survive (grow : Nat → Nat) (symbolId : UInt32) (hn : 2 ≤ n.log2) :
    (∀ inputs, orderedQty inputs < 2 ^ 64 →
      (Machine.new n symbolId).Obeys grow Machine.Harmless inputs →
      (Machine.new n symbolId).Survives grow inputs) ∧
    ∀ allow : Call → Prop,
      (∀ inputs, orderedQty inputs < 2 ^ 64 →
        (Machine.new n symbolId).Obeys grow (fun _ => allow) inputs →
        (Machine.new n symbolId).Survives grow inputs) ↔
      ∀ c, allow c → c.Inert := by
  have hharmless : ∀ inputs, orderedQty inputs < 2 ^ 64 →
      (Machine.new n symbolId).Obeys grow Machine.Harmless inputs →
      (Machine.new n symbolId).Survives grow inputs := by
    intro inputs hbound hobeys
    exact Machine.survives_of_steady grow (Machine.steady_new symbolId) hobeys (by omega)
  refine ⟨hharmless, fun allow => ⟨?_, ?_⟩⟩
  · intro hsafe c hallow
    cases c with
    | cancel orderId => trivial
    | add side p q type =>
      by_contra hinert
      obtain ⟨htype, hq⟩ := not_or.mp hinert
      obtain ⟨hobeys, hoverfills⟩ := order_overfills (n := n) grow symbolId hn side p hq htype
      refine hoverfills (hsafe _ ?_ (hobeys allow hallow))
      have hlt := q.toNat_lt
      simp only [oneUnit, orderedQty, Input.quantity, Call.quantity, List.map_cons, List.map_nil,
        List.sum_cons, List.sum_nil, UInt32.reduceToNat]
      omega
  · intro hinert inputs hbound hobeys
    exact hharmless inputs hbound (hobeys.imp grow fun m c hc => (hinert c hc).harmless m)

/-- An ask of 5, a buyer of 2, and a callback that cancels an order there is
not and buys the other 3. -/
def sharedLevel : List Input :=
  [.call (.add .sell 100 5 .limit), .call (.add .buy 100 2 .limit), .call (.cancel 9),
    .call (.add .buy 100 3 .limit), .ret, .ret]

/-- The level can spare the 3 beside the 2 in flight: both buyers are filled,
5 are reported where 5 rested, and the level is gone. -/
theorem callbacks_survive_shared_level :
    (Machine.new .four 1).Survives (2 * ·) sharedLevel ∧
      ((Machine.new .four 1).run (2 * ·) sharedLevel).map (fun m =>
        (m.frames, m.book.asks, reportedQty .sell 100 m.log, restedQty .sell 100 m.log)) =
      some ([], ⟨[]⟩, 5, 5) := by
  refine ⟨(callbacks_survive (n := .four) (2 * ·) 1 (by decide)).1 sharedLevel (by decide) ?_,
    by decide⟩
  refine ⟨fun _ _ hne => absurd rfl hne, fun m₁ h₁ => ?_⟩
  cases h₁
  refine ⟨fun _ _ hne => absurd rfl hne, fun m₂ h₂ => ?_⟩
  cases h₂
  refine ⟨fun c hc _ => ?_, fun m₃ h₃ => ?_⟩
  · cases hc
    trivial
  cases h₃
  refine ⟨fun c hc _ => ?_, fun m₄ _ => ?_⟩
  · cases hc
    refine .inr (.inr (.inr ?_))
    decide
  -- from here on the callbacks return
  refine ⟨fun c hc => ?_, fun m₅ _ => ⟨fun c hc => ?_, fun _ _ => trivial⟩⟩
  · cases hc
  · cases hc

/-- An ask of 5, a buyer of 5, and what the callback of the buyer's match
does: it buys 3 at the same price, and both callbacks return. -/
def overfill : List Input :=
  [.call (.add .sell 100 5 .limit), .call (.add .buy 100 5 .limit),
    .call (.add .buy 100 3 .limit), .ret, .ret]

/-- The nested order takes 3 of the 5 that the outer one was just told of:
8 are reported where 5 rested, and the level is left with `2^64 - 3`. -/
theorem callback_overfills :
    ∃ m : Machine .default, (Machine.new .default 1).run (2 * ·) overfill = some m ∧
      m.frames = [] ∧ OwnLevels m.log ∧
      reportedQty .sell 100 m.log = 8 ∧ restedQty .sell 100 m.log = 5 ∧
      m.book.asks.levels = [⟨100, 18446744073709551613, 1⟩] ∧ ¬NoUnderflow m.log := by
  obtain ⟨rest, hfree, hlen⟩ := OrderBook.contents_new_cons .default 1 (by decide)
  have hsize : PoolSize.default.maxOrders - 2 = 1048574 := rfl
  rw [hsize] at hlen
  obtain ⟨slot₂, slot₃, rest₃, hrest⟩ : ∃ slot₂ slot₃ rest₃, rest = slot₂ :: slot₃ :: rest₃ := by
    match rest, hlen with
    | a :: b :: rest, _ => exact ⟨a, b, rest, rfl⟩
  rw [hrest] at hfree
  have hfive : (5 : UInt32) ≠ 0 := by decide
  have hthree : (3 : UInt32) ≠ 0 := by decide
  obtain ⟨m₁, h₁, hshows₁, hframes₁, hlog₁⟩ := shows_rest (2 * ·) .sell
    (m := Machine.new .default 1) ⟨rfl, rfl, hfree⟩ rfl 100 hfive
  obtain ⟨m₂, h₂, hshows₂, hframes₂, hlog₂⟩ :=
    shows_taker (2 * ·) .buy hshows₁ hfive OrderType.limit_ne_cancel
  obtain ⟨m₃, h₃, hshows₃, hframes₃, hlog₃⟩ :=
    shows_taker (2 * ·) .buy hshows₂ hthree OrderType.limit_ne_cancel
  -- the inner callback returns first
  obtain ⟨m₄, _, h₄, hshows₄, hframes₄, hlog₄⟩ :=
    shows_return (2 * ·) .buy hshows₃ hframes₃ (y := ⟨100, 2, 1⟩) rfl
  rw [hframes₂] at hframes₄
  obtain ⟨m₅, _, h₅, hshows₅, hframes₅, hlog₅⟩ :=
    shows_return (2 * ·) .buy hshows₄ hframes₄ (y := ⟨100, 18446744073709551613, 1⟩) rfl
  have hlog : m₅.log = [.returned m₁.book.nextOrderId,
      .lowered .sell ⟨100, 2, 1⟩ ⟨0, 0, 100, 5⟩, .returned m₂.book.nextOrderId,
      .lowered .sell ⟨100, 5, 1⟩ ⟨0, 0, 100, 3⟩, .matched .sell ⟨0, 0, 100, 3⟩,
      .matched .sell ⟨0, 0, 100, 5⟩, .returned 1, .rested .sell 100 5] := by
    rw [hlog₅, hlog₄, hlog₃, hlog₂, hlog₁]
    rfl
  refine ⟨m₅, ?_, by rw [hframes₅, hframes₁]; rfl, ?_, by rw [hlog]; rfl, by rw [hlog]; rfl, ?_, ?_⟩
  · unfold overfill
    rw [Machine.run_cons _ h₁, Machine.run_cons _ h₂, Machine.run_cons _ h₃,
      Machine.run_cons _ h₄, Machine.run_cons _ h₅]
    rfl
  · intro side level result hmem
    rw [hlog] at hmem
    simp only [List.mem_cons, Obs.lowered.injEq, reduceCtorEq, List.not_mem_nil, false_or,
      or_false] at hmem
    rcases hmem with ⟨_, rfl, rfl⟩ | ⟨_, rfl, rfl⟩ <;> rfl
  · exact congrArg FlatPriceLadder.levels hshows₅.ladder
  · intro hno
    have hle := hno .sell ⟨100, 2, 1⟩ ⟨0, 0, 100, 5⟩ (by simp [hlog])
    exact absurd hle (by decide)

end HftEngine
