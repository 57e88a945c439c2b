import HftEngine.OrderBook.Flow

/-!
# What a cancel takes off the book

`cancel_order` is meant to take what is left of the order off its level
(`Withdrawn`).  It never does: it calls `remove_if_empty` on the level and
does not touch its total, so the quantity shown at each price stays what it
was (`qtyAt_cancelOrder`).  An order whose level has not traded since it came
to rest is therefore still on offer after its cancel, in full
(`rested_still_offered`), and can be traded with (`cancelled_ask_trades`).
-/

namespace HftEngine

open Lib

variable {n : PoolSize}

/-- `o` is an order of the history that came to rest, that no call has
cancelled, and at whose level nothing has been traded since. -/
def Untouched (h : List (Event n)) (o : Resting) : Prop :=
  ∃ later e earlier, h = later ++ e :: earlier ∧ e.rests = some o ∧
    ∀ e' ∈ later, e'.cancelled ≠ some (o.orderId, o.slot) ∧
      e'.tradedWhere (fun p => p = o.priceTicks) o.side = 0

/-- What is left of `o` is off the book: its level is lowered by exactly that
much, and is gone if nothing else is there; every other level is as before. -/
structure Withdrawn (b b' : OrderBook n) (o : Resting) : Prop where
  lowered : (b'.ladder o.side).qtyAt o.priceTicks + o.quantity =
    (b.ladder o.side).qtyAt o.priceTicks
  dropped : (b'.ladder o.side).qtyAt o.priceTicks = 0 →
    (b'.ladder o.side).find o.priceTicks = none
  others : ∀ side p, side ≠ o.side ∨ p ≠ o.priceTicks →
    (b'.ladder side).find p = (b.ladder side).find p

/-- `cancel_order` moves no quantity. -/
theorem qtyAt_cancelOrder {b : OrderBook n} (hwf : Wf b) (orderId : UInt64) (side : Side)
    (p : Int64) : ((b.cancelOrder orderId).2.ladder side).qtyAt p = (b.ladder side).qtyAt p :=
  qtyWhere_cancel hwf (c := .cancel orderId) rfl
    (OrderBook.cancel_outcome 0 (.cancelled true) rfl (.inl rfl)) side _

/-- Where nothing has been traded since, the level still holds all of the
order: later calls only add to it. -/
theorem rested_still_offered {later : List (Event n)} {e : Event n} {earlier : List (Event n)}
    {b : OrderBook n} {o : Resting} (hrun : Run (later ++ e :: earlier) b)
    (ho : e.rests = some o)
    (hquiet : ∀ e' ∈ later, e'.tradedWhere (fun p => p = o.priceTicks) o.side = 0)
    (hfits : ∀ e' ∈ later ++ e :: earlier, e'.Fits) :
    o.quantity ≤ (b.ladder o.side).qtyAt o.priceTicks := by
  -- back from the last call to the one that left the order resting
  induction later generalizing b with
  | nil =>
    cases hrun with
    | call hrun hexec =>
      have hflow := flow_outcome (wf_run hrun) hexec (hfits _ List.mem_cons_self) o.side
        fun p => p = o.priceTicks
      rw [tradedWhere_of_rests ho] at hflow
      simp only [Event.restedWhere, ho, decide_true, and_self, if_true] at hflow
      show o.quantity ≤ (b.ladder o.side).qtyWhere _
      omega
  | cons e' later ih =>
    cases hrun with
    | call hrun hexec =>
      have ih := ih hrun (fun e'' he => hquiet e'' (List.mem_cons_of_mem _ he))
        fun e'' he => hfits e'' (List.mem_cons_of_mem _ he)
      have hflow := flow_outcome (wf_run hrun) hexec (hfits _ List.mem_cons_self) o.side
        fun p => p = o.priceTicks
      rw [hquiet _ List.mem_cons_self] at hflow
      refine ih.trans ?_
      show (_ : FlatPriceLadder).qtyWhere _ ≤ (b.ladder o.side).qtyWhere _
      omega

/-- **A cancel withdraws nothing.** Of an order that rests untouched, a
`cancel_order` that returns true takes nothing off the book: the quantity
shown at every price of both ladders stays the same, and unless totals have
wrapped the order's level still offers all that was left of it. -/
theorem cancel_withdraws_nothing {h : List (Event n)} {b : OrderBook n} {o : Resting}
    (hrun : Run h b) (hrest : Untouched h o) (_hok : (b.cancelOrder o.orderId).1 = true) :
    ¬ Withdrawn b (b.cancelOrder o.orderId).2 o ∧
      (∀ side p, ((b.cancelOrder o.orderId).2.ladder side).qtyAt p = (b.ladder side).qtyAt p) ∧
      ((∀ e ∈ h, e.Fits) →
        o.quantity ≤ ((b.cancelOrder o.orderId).2.ladder o.side).qtyAt o.priceTicks) := by
  have hsame := qtyAt_cancelOrder (wf_run hrun) o.orderId
  obtain ⟨later, e, earlier, rfl, ho, hlater⟩ := hrest
  refine ⟨?_, hsame, ?_⟩
  · intro hw
    have hlowered := hw.lowered
    have hpos := (quantity_of_rests ho).1
    rw [hsame] at hlowered
    omega
  · intro hfits
    rw [hsame]
    exact rested_still_offered hrun ho (fun e' he => (hlater e' he).2) hfits

def restingAsk : List (Event .four) × OrderBook .four :=
  played 1 1 [.add .sell 10100 100 .limit] (by decide)

/-- An ask of 100, alone in the book and just placed: its cancel returns true
and withdraws nothing. -/
theorem cancel_withdraws_nothing_one_ask :
    (restingAsk.2.cancelOrder 1).1 = true ∧
      ¬ Withdrawn restingAsk.2 (restingAsk.2.cancelOrder 1).2 ⟨1, 0, .sell, 10100, 100⟩ := by
  have hrun : Run restingAsk.1 restingAsk.2 := run_played _
  have hrest : Untouched restingAsk.1 ⟨1, 0, .sell, 10100, 100⟩ :=
    ⟨[], _, [], rfl, by decide, by simp⟩
  have hok : (restingAsk.2.cancelOrder 1).1 = true := by decide
  exact ⟨hok, (cancel_withdraws_nothing hrun hrest hok).1⟩

/-- The first order of a book of any size, an ask of 100: it rests, its
cancel returns true and leaves the level as it was, and the next buyer trades
the 100 cancelled units. -/
theorem first_ask_cancelled (n : PoolSize) (hlog : 1 < n.log2) :
    ∃ (h : List (Event n)) (b b₁ b₂ : OrderBook n),
      Run h b ∧ h.map (·.call) = [.add .sell 10100 100 .limit] ∧
      Untouched h ⟨1, 0, .sell, 10100, 100⟩ ∧
      b.cancelOrder 1 = (true, b₁) ∧ ¬ Withdrawn b b₁ ⟨1, 0, .sell, 10100, 100⟩ ∧
      b₁.asks.find 10100 = some ⟨10100, 100, 1⟩ ∧
      b₁.addOrder 2 .buy 10100 100 .limit = some (2, [⟨0, 0, 10100, 100⟩], b₂) := by
  have htype := OrderType.limit_ne_cancel
  have hfour : 2 ^ 2 ≤ n.maxOrders := Nat.pow_le_pow_right (by decide) hlog
  obtain ⟨b, _, hrun, hp, hlen, hrests, hslot⟩ :=
    Run.first_ask n (by omega) 10100 (by decide : (100 : UInt32) ≠ 0)
  have hasks : b.ladder .sell = ⟨[⟨10100, 100, 1⟩]⟩ := hp.own
  -- the cancel finds the order and touches no total
  have hcancel : b.cancelOrder 1 = (true, b.release 0) := by
    rw [OrderBook.cancelOrder_eq, hslot]
  have hrel := OrderBook.release_spec b 0
  have hasks₁ : (b.release 0).ladder .sell = ⟨[⟨10100, 100, 1⟩]⟩ := by
    have hown := hrel.own
    rw [hp.ordered.2.2, hp.ordered.2.1, hasks] at hown
    exact hown
  -- so a buy order still finds the whole ask
  have hmatch₁ : (b.release 0).matching 2 .buy 10100 100 =
      some ⟨0, ⟨[]⟩, [⟨0, 0, 10100, 100⟩]⟩ := by
    unfold OrderBook.matching
    rw [show Side.buy.opposite = .sell from rfl, hasks₁]
    decide
  obtain ⟨slot, rest₁, hfree₁⟩ : ∃ slot rest₁, (b.release 0).freeList.contents = slot :: rest₁ := by
    apply List.exists_cons_of_length_pos
    rw [hrel.freeList]
    obtain ⟨_, hpush⟩ | ⟨_, _, hpush⟩ := b.freeList.push_eq 0
    · rw [hpush, hlen]
      omega
    · rw [hpush]
      simp
  obtain ⟨b₂, _, hadd, _⟩ := OrderBook.addOrder_of_matching htype hfree₁ hmatch₁
  have hnext : (b.release 0).nextOrderId = 2 := by
    have hkeep := OrderBook.cancel_nextOrderId b 1
    rw [hcancel] at hkeep
    rw [hkeep, hp.nextOrderId]
    rfl
  rw [hnext] at hadd
  refine ⟨_, b, _, b₂, hrun, rfl, ⟨[], _, [], rfl, hrests, by simp⟩, hcancel, ?_, ?_, hadd⟩
  · intro hw
    have hlowered := hw.lowered
    simp only [hasks₁, hasks] at hlowered
    exact absurd hlowered (by decide)
  · show ((b.release 0).ladder .sell).find 10100 = _
    rw [hasks₁]
    decide

/-- The same on a book of the size the engine is built with. -/
theorem cancelled_ask_trades :
    ∃ (h : List (Event .default)) (b b₁ b₂ : OrderBook .default),
      Run h b ∧ h.map (·.call) = [.add .sell 10100 100 .limit] ∧
      Untouched h ⟨1, 0, .sell, 10100, 100⟩ ∧
      b.cancelOrder 1 = (true, b₁) ∧ ¬ Withdrawn b b₁ ⟨1, 0, .sell, 10100, 100⟩ ∧
      b₁.asks.find 10100 = some ⟨10100, 100, 1⟩ ∧
      b₁.addOrder 2 .buy 10100 100 .limit = some (2, [⟨0, 0, 10100, 100⟩], b₂) :=
  first_ask_cancelled .default (by decide)

end HftEngine
