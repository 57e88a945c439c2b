import HftEngine.OrderBook.Exchange

/-!
# Sequences of calls that all return

A matching loop that meets a level whose total is a multiple of `2^32` never
returns.  This needs `2^32` units on one side: any sequence of calls, of orders
of every type and cancels, that brings fewer units in all gets through
(`calls_return`).

* `exec_returns` — one call on a book whose ladders hold fewer than `2^32`
  units, with any fuel from some point on;
* `replay_returns` — a sequence of calls made on a book that a run can reach.
-/

namespace HftEngine

open Lib

variable {n : PoolSize}

/-- A call submits no more than it asks for. -/
theorem submitted_le_quantity (e : Event n) (h : List (Event n)) :
    submittedQty (e :: h) ≤ e.call.quantity + submittedQty h := by
  unfold submittedQty submissions
  rw [List.filterMap_cons]
  cases hsub : e.submission with
  | none => exact Nat.le_add_left _ _
  | some o =>
    have hquantity : o.quantity = e.call.quantity := by
      unfold Event.submission at hsub
      split at hsub
      next hcall _ =>
        split at hsub
        · cases hsub
          rw [hcall]
          rfl
        · cases hsub
      next => cases hsub
    rw [List.map_cons, List.sum_cons, hquantity]

/-- One call on a book whose ladders hold fewer than `2^32` units. -/
theorem exec_returns {b : OrderBook n} (hwf : Wf b)
    (hsmall : ∀ side, (b.ladder side).totalQty < 2 ^ 32) (c : Call) :
    ∃ fuel₀ r b', ∀ fuel, fuel₀ ≤ fuel → b.exec fuel c = some (r, b') := by
  cases c with
  | cancel orderId => exact ⟨0, _, _, fun fuel _ => rfl⟩
  | add side p q type =>
    by_cases htype : type = .cancel
    · subst htype
      exact ⟨0, _, _, fun fuel _ => rfl⟩
    · cases hfree : b.freeList.contents with
      | nil =>
        refine ⟨0, .added 0 [], b.bump, fun fuel _ => ?_⟩
        rw [OrderBook.exec, OrderBook.addOrder_refused htype hfree]
        rfl
      | cons slot free =>
        obtain ⟨fuel₀, s, b', hadd, _⟩ := addOrder_greedy side p q htype (hwf.sorted _)
          (FlatPriceLadder.small_of_totalQty (hsmall _)) hfree
        refine ⟨fuel₀, .added b.nextOrderId s.fills, b', fun fuel hle => ?_⟩
        rw [OrderBook.exec, hadd fuel hle]
        rfl

/-- Calls made on a book that a run has reached. -/
theorem replay_returns {h : List (Event n)} {b : OrderBook n} (hrun : Run h b) (cs : List Call)
    (hqty : submittedQty h + (cs.map Call.quantity).sum < 2 ^ 32) :
    ∃ fuel₀ h' b', ∀ fuel, fuel₀ ≤ fuel → replay fuel cs (h, b) = some (h', b') := by
  induction cs generalizing h b with
  | nil => exact ⟨0, h, b, fun fuel _ => rfl⟩
  | cons c cs ih =>
    rw [List.map_cons, List.sum_cons] at hqty
    obtain ⟨hx, _⟩ := exchange_run hrun (by omega)
    obtain ⟨fuel₁, r, b₁, hexec⟩ := exec_returns (wf_run hrun)
      (fun side => (totalQty_le_submitted hx side).trans_lt (by omega)) c
    have hsub : submittedQty ((⟨b, c, r, b₁⟩ : Event n) :: h) ≤ c.quantity + submittedQty h :=
      submitted_le_quantity _ h
    obtain ⟨fuel₂, h', b', hreplay⟩ := ih (hrun.call (hexec fuel₁ le_rfl)) (by omega)
    refine ⟨max fuel₁ fuel₂, h', b', fun fuel hle => ?_⟩
    rw [replay, hexec fuel (by omega)]
    exact hreplay fuel (by omega)

/-- **Every sequence of calls that brings fewer than `2^32` units returns.**
Whatever the orders' sides, prices and types, and whatever is cancelled in
between, on a fresh book each matching loop ends; and more fuel changes
nothing. -/
theorem calls_return (n : PoolSize) (symbolId : UInt32) (cs : List Call)
    (hqty : (cs.map Call.quantity).sum < 2 ^ 32) :
    ∃ fuel₀ h b, Run h b ∧
      ∀ fuel, fuel₀ ≤ fuel → replay fuel cs ([], OrderBook.new n symbolId) = some (h, b) := by
  obtain ⟨fuel₀, h, b, hreplay⟩ := replay_returns (.new symbolId) cs
    (by rw [show submittedQty ([] : List (Event n)) = 0 from rfl, Nat.zero_add]; exact hqty)
  exact ⟨fuel₀, h, b, run_replay (.new symbolId) (hreplay fuel₀ le_rfl), hreplay⟩

/-- The largest order there is, a buyer who takes one unit of it, and a cancel. -/
theorem calls_return_largest_order :
    ∃ fuel₀ h b, Run (n := .default) h b ∧
      ∀ fuel, fuel₀ ≤ fuel → replay fuel
        [.add .sell 100 4294967294 .limit, .add .buy 100 1 .market, .cancel 1]
        ([], OrderBook.new .default 7) = some (h, b) :=
  calls_return .default 7 _ (by decide)

/-! ## Orders that all find a slot -/

/-- The order a call brings, unless it is a cancel. -/
def Call.order : Call → Option Submission
  | .add _ _ _ .cancel => none
  | .add side priceTicks quantity _ => some ⟨side, priceTicks, quantity.toNat⟩
  | .cancel _ => none

theorem Call.order_add (side : Side) (p : Int64) (q : UInt32) {type : OrderType}
    (htype : type ≠ .cancel) : (Call.add side p q type).order = some ⟨side, p, q.toNat⟩ := by
  cases type with
  | limit => rfl
  | market => rfl
  | cancel => exact absurd rfl htype

/-- An order that finds a slot is submitted, and uses up one slot at most. -/
theorem submission_of_free {b b' : OrderBook n} {fuel : Nat} {c : Call} {r : Reply}
    {o : Submission} (hexec : b.exec fuel c = some (r, b')) (ho : c.order = some o)
    (hfree : b.freeList.contents ≠ []) :
    (⟨b, c, r, b'⟩ : Event n).submission = some o ∧
      b.freeList.contents.length ≤ b'.freeList.contents.length + 1 := by
  have hcancels : c.cancels = none := by
    cases c with
    | cancel orderId => cases ho
    | add side p q type =>
      cases type with
      | limit => rfl
      | market => rfl
      | cancel => cases ho
  cases OrderBook.exec_outcome hexec with
  | idle hc | released hc =>
    rw [hcancels] at hc
    cases hc
  | refused _ hnil => exact absurd hnil hfree
  | @placed side p q type slot freeList s _ htype hpop _ hp =>
    rw [Call.order_add side p q htype] at ho
    cases ho
    obtain ⟨rest, hcons, hcont⟩ := OrderBook.placed_contents hpop hp
    refine ⟨submission_placed htype hpop, ?_⟩
    rw [hcons, hcont]
    split <;> simp

/-- Orders for which there are slots, on a book that a run has reached: all
return, and the exchange executes them. -/
theorem replay_executes {h : List (Event n)} {b : OrderBook n} (hrun : Run h b) (cs : List Call)
    (hqty : submittedQty h + (cs.map Call.quantity).sum < 2 ^ 32)
    (horders : ∀ c ∈ cs, c.order ≠ none) (hfree : cs.length ≤ b.freeList.contents.length) :
    ∃ fuel₀ later b', (∀ fuel, fuel₀ ≤ fuel → replay fuel cs (h, b) = some (later ++ h, b')) ∧
      b.exchange.Executes (cs.filterMap Call.order) (later.reverse.map Event.fills)
        b'.exchange := by
  induction cs generalizing h b with
  | nil => exact ⟨0, [], b, fun fuel _ => rfl, .nil _⟩
  | cons c cs ih =>
    obtain ⟨hc, hcs⟩ := List.forall_mem_cons.mp horders
    obtain ⟨o, ho⟩ := Option.ne_none_iff_exists'.mp hc
    rw [List.map_cons, List.sum_cons] at hqty
    rw [List.length_cons] at hfree
    obtain ⟨hx, hpos⟩ := exchange_run hrun (by omega)
    have hsmall : ∀ side, (b.ladder side).totalQty < 2 ^ 32 := fun side =>
      (totalQty_le_submitted hx side).trans_lt (by omega)
    obtain ⟨fuel₁, r, b₁, hexec⟩ := exec_returns (wf_run hrun) hsmall c
    have hstep := hexec fuel₁ le_rfl
    obtain ⟨hsub, hslots⟩ := submission_of_free hstep ho
      (List.ne_nil_of_length_pos (by omega))
    obtain ⟨hexecuted, hleft⟩ := exchange_outcome (wf_run hrun) hpos hsmall hstep
    unfold Event.Executed at hexecuted
    rw [hsub] at hexecuted hleft
    have hle : submittedQty ((⟨b, c, r, b₁⟩ : Event n) :: h) ≤ c.quantity + submittedQty h :=
      submitted_le_quantity _ h
    obtain ⟨fuel₂, later, b', hreplay, hrest⟩ :=
      ih (hrun.call hstep) (by omega) hcs (by omega)
    refine ⟨max fuel₁ fuel₂, later ++ [⟨b, c, r, b₁⟩], b', fun fuel hfuel => ?_, ?_⟩
    · rw [replay, hexec fuel (by omega), List.append_assoc]
      exact hreplay fuel (by omega)
    · rw [List.filterMap_cons_some ho, List.reverse_append, List.map_append]
      rw [hleft] at hrest
      exact .cons hexecuted hrest

end HftEngine
