import HftEngine.Fix.Encode
import HftEngine.OrderBook.Returns

/-!
# From bytes to the book

`handle` is the body of the loop of `bench_fix_pipeline.cpp` that drives the
book from FIX messages: parse the buffer, and send a valid `NewOrderSingle` to
`add_order` as a `Limit` order.  `feed` is the loop over a list of buffers; it
keeps the vector to which the callback pushes each match.

The pipeline makes the calls `callIn` reads off the buffers and no others
(`feed_replay`), so what is known of runs of the book holds of it:

* `gateway_refines_exchange` — up to `2^32` units and as many buffers as there
  are slots, every buffer is got through and the book is the exchange to which
  the orders in the buffers were submitted;
* `gateway_safe` — whatever bytes arrive, the book stays in order and no
  quantity is made.
-/

namespace HftEngine.Gateway

open HftEngine.Fix HftEngine.Lib

variable {n : PoolSize}

/-- The book, and the vector of the callback. -/
structure State (n : PoolSize) where
  book : OrderBook n
  matched : List MatchResult

/-- One buffer, a `std::string`: its bytes are followed by a zero.  `none` when
a matching loop does not return. -/
def handle (fuel : Nat) (s : State n) (buf : List UInt8) : Option (State n) := do
  let msg ← parse (some (buf ++ [0])) buf.length
  if msg.valid ∧ msg.msgType = .newOrderSingle then
    let side := if msg.side = 1 then Side.buy else Side.sell
    let (_, fills, book) ← s.book.addOrder fuel side msg.priceTicks msg.orderQty .limit
    return ⟨book, s.matched ++ fills⟩
  else return s

/-- The buffers one after the other. -/
def feed (fuel : Nat) (bufs : List (List UInt8)) (s : State n) : Option (State n) :=
  bufs.foldlM (handle fuel) s

/-! ## The calls made -/

/-- The call made for a message. -/
def callOf (msg : FixMessage) : Option Call :=
  if msg.valid ∧ msg.msgType = .newOrderSingle then
    some (.add (if msg.side = 1 then .buy else .sell) msg.priceTicks msg.orderQty .limit)
  else none

/-- The call made for a buffer. -/
def callIn (buf : List UInt8) : Option Call :=
  (parse (some (buf ++ [0])) buf.length).bind callOf

/-- All matches a history reported, the oldest first. -/
def reported (h : List (Event n)) : List MatchResult := h.reverse.flatMap Event.fills

theorem reported_cons (e : Event n) (h : List (Event n)) :
    reported (e :: h) = reported h ++ e.fills := by
  simp [reported]

/-- The state after a history. -/
def State.ofRun (s : List (Event n) × OrderBook n) : State n := ⟨s.2, reported s.1⟩

/-- What is done with a message. -/
theorem handle_parsed (fuel : Nat) (s : State n) {buf : List UInt8} {msg : FixMessage}
    (hmsg : parse (some (buf ++ [0])) buf.length = some msg) :
    handle fuel s buf = match callOf msg with
      | none => some s
      | some c => (s.book.exec fuel c).map fun rb =>
        ⟨rb.2, s.matched ++ (⟨s.book, c, rb.1, rb.2⟩ : Event n).fills⟩ := by
  unfold handle callOf
  rw [hmsg]
  show (if msg.valid ∧ msg.msgType = .newOrderSingle then _ else _) = _
  split
  next =>
    simp only [OrderBook.exec]
    cases s.book.addOrder fuel (if msg.side = 1 then .buy else .sell) msg.priceTicks
      msg.orderQty .limit with
    | none => rfl
    | some r => rfl
  next => rfl

/-- The pipeline makes the calls that are in the buffers. -/
theorem feed_replay (fuel : Nat) (bufs : List (List UInt8)) (h : List (Event n))
    (b : OrderBook n) :
    feed fuel bufs (State.ofRun (h, b)) =
      (replay fuel (bufs.filterMap callIn) (h, b)).map State.ofRun := by
  induction bufs generalizing h b with
  | nil => rfl
  | cons buf bufs ih =>
    have hstep : feed fuel (buf :: bufs) (State.ofRun (h, b)) =
        (handle fuel (State.ofRun (h, b)) buf).bind (feed fuel bufs) := rfl
    have hcall : callIn buf = callOf (grammar buf) := by rw [callIn, parse_eq]; rfl
    rw [hstep, handle_parsed fuel _ (parse_eq buf [0]), List.filterMap_cons, hcall]
    cases callOf (grammar buf) with
    | none => exact ih h b
    | some c =>
      show ((b.exec fuel c).map _).bind _ = (replay fuel (c :: _) (h, b)).map _
      rw [replay]
      cases hexec : b.exec fuel c with
      | none => rfl
      | some rb =>
        obtain ⟨r, b'⟩ := rb
        have hnext : (⟨b', reported h ++ (⟨b, c, r, b'⟩ : Event n).fills⟩ : State n) =
            State.ofRun (⟨b, c, r, b'⟩ :: h, b') := by
          rw [State.ofRun, reported_cons]
        show feed fuel bufs ⟨b', reported h ++ (⟨b, c, r, b'⟩ : Event n).fills⟩ = _
        rw [hnext]
        exact ih _ b'

/-- Every state the pipeline reaches from a fresh book is reached by a run. -/
theorem run_feed {fuel : Nat} {bufs : List (List UInt8)} {symbolId : UInt32} {s : State n}
    (hfeed : feed fuel bufs ⟨OrderBook.new n symbolId, []⟩ = some s) :
    ∃ h, Run h s.book ∧ s.matched = reported h ∧
      replay fuel (bufs.filterMap callIn) ([], OrderBook.new n symbolId) = some (h, s.book) := by
  have hreplay := feed_replay fuel bufs [] (OrderBook.new n symbolId)
  have hstart : State.ofRun (([] : List (Event n)), OrderBook.new n symbolId) =
      ⟨OrderBook.new n symbolId, []⟩ := rfl
  rw [hstart, hfeed] at hreplay
  obtain ⟨⟨h, b⟩, hsome, hs⟩ := Option.map_eq_some_iff.mp hreplay.symm
  subst hs
  exact ⟨h, run_replay (.new symbolId) hsome, rfl, hsome⟩

/-! ## The orders in the buffers -/

/-- The order in a buffer. -/
def orderIn (buf : List UInt8) : Option Submission := (callIn buf).bind Call.order

theorem callIn_limit {buf : List UInt8} {c : Call} (h : callIn buf = some c) :
    ∃ side p q, c = .add side p q .limit := by
  rw [callIn, parse_eq] at h
  have h : callOf (grammar buf) = some c := h
  unfold callOf at h
  split at h
  · cases h
    exact ⟨_, _, _, rfl⟩
  · cases h

theorem limit_calls (bufs : List (List UInt8)) :
    ∀ c ∈ bufs.filterMap callIn, ∃ side p q, c = .add side p q .limit := by
  intro c hc
  obtain ⟨buf, _, hbuf⟩ := List.mem_filterMap.mp hc
  exact callIn_limit hbuf

theorem orders_calls (bufs : List (List UInt8)) :
    (bufs.filterMap callIn).filterMap Call.order = bufs.filterMap orderIn :=
  List.filterMap_filterMap

theorem sum_quantity_orders {cs : List Call} (h : ∀ c ∈ cs, ∃ side p q, c = .add side p q .limit) :
    (cs.map Call.quantity).sum = ((cs.filterMap Call.order).map (·.quantity)).sum := by
  induction cs with
  | nil => rfl
  | cons c cs ih =>
    obtain ⟨⟨side, p, q, rfl⟩, hcs⟩ := List.forall_mem_cons.mp h
    rw [List.map_cons, List.sum_cons, ih hcs]
    rfl

/-- **The gateway is an exchange.** Let buffers of any content arrive at a fresh
book, fewer than it has slots and with orders for fewer than `2^32` units in
all.  Then every buffer is got through, and the matches reported, order by
order, and the quantities left on the ladders are those of an exchange to which
the orders in the buffers are submitted in turn. -/
theorem gateway_refines_exchange (n : PoolSize) (symbolId : UInt32) (bufs : List (List UInt8))
    (hlen : bufs.length < n.maxOrders)
    (hqty : ((bufs.filterMap orderIn).map (·.quantity)).sum < 2 ^ 32) :
    ∃ fuel₀ s reports,
      (∀ fuel, fuel₀ ≤ fuel → feed fuel bufs ⟨OrderBook.new n symbolId, []⟩ = some s) ∧
      s.matched = reports.flatten ∧
      Exchange.empty.Executes (bufs.filterMap orderIn) reports s.book.exchange := by
  have hlimit := limit_calls bufs
  have hslots : (bufs.filterMap callIn).length ≤
      (OrderBook.new n symbolId).freeList.contents.length := by
    have hle := List.length_filterMap_le callIn bufs
    rw [OrderBook.contents_new, List.length_map, List.length_range]
    omega
  have horders : ∀ c ∈ bufs.filterMap callIn, c.order ≠ none := by
    intro c hc
    obtain ⟨side, p, q, rfl⟩ := hlimit c hc
    exact Option.some_ne_none _
  have hsum : submittedQty ([] : List (Event n)) +
      ((bufs.filterMap callIn).map Call.quantity).sum < 2 ^ 32 := by
    rw [sum_quantity_orders hlimit, orders_calls]
    exact (Nat.zero_add _).trans_lt hqty
  obtain ⟨fuel₀, later, b, hreplay, hexecutes⟩ :=
    replay_executes (.new symbolId) _ hsum horders hslots
  rw [orders_calls, exchange_new] at hexecutes
  refine ⟨fuel₀, State.ofRun (later ++ [], b), _, fun fuel hle => ?_, ?_, hexecutes⟩
  · have hfeed := feed_replay fuel bufs [] (OrderBook.new n symbolId)
    rw [hreplay fuel hle] at hfeed
    exact hfeed
  · rw [List.append_nil]
    exact List.flatMap_def

/-- An ask, a buyer of a part of it, and a buffer that is no message. -/
def mixedBuffers : List (List UInt8) :=
  [bytes "35=D\x0154=2\x0138=5\x0144=1\x01", bytes "35=D\x0154=1\x0138=3\x0144=2\x01",
    bytes "35=D\x01junk"]

theorem callIn_mixedBuffers : mixedBuffers.filterMap callIn =
    [.add .sell 10000 5 .limit, .add .buy 20000 3 .limit] := by
  simp only [mixedBuffers, List.filterMap_cons, callIn, parse_eq]
  rfl

theorem gateway_refines_exchange_mixed :
    ∃ fuel₀ s reports,
      (∀ fuel, fuel₀ ≤ fuel → feed fuel mixedBuffers ⟨OrderBook.new .four 1, []⟩ = some s) ∧
      s.matched = reports.flatten ∧
      Exchange.empty.Executes [⟨.sell, 10000, 5⟩, ⟨.buy, 20000, 3⟩] reports s.book.exchange := by
  have horders : mixedBuffers.filterMap orderIn = [⟨.sell, 10000, 5⟩, ⟨.buy, 20000, 3⟩] := by
    rw [← orders_calls, callIn_mixedBuffers]
    rfl
  have hrefines := gateway_refines_exchange .four 1 mixedBuffers (by decide)
    (by rw [horders]; decide)
  rw [horders] at hrefines
  exact hrefines

/-! ## Arbitrary bytes -/

/-- The quantity a call asks for on a side. -/
def quantityOn (side : Side) : Call → ℕ
  | .add side' _ quantity _ => if side' = side then quantity.toNat else 0
  | .cancel _ => 0

/-- The quantity the orders in the buffers ask for on a side. -/
def orderedQty (side : Side) (bufs : List (List UInt8)) : ℕ :=
  ((bufs.filterMap callIn).map (quantityOn side)).sum

theorem calls_replay {fuel : Nat} {cs : List Call} {h h' : List (Event n)} {b b' : OrderBook n}
    (hreplay : replay fuel cs (h, b) = some (h', b')) :
    h'.map Event.call = cs.reverse ++ h.map Event.call := by
  induction cs generalizing h b with
  | nil =>
    cases hreplay
    rfl
  | cons c cs ih =>
    rw [replay] at hreplay
    split at hreplay
    · cases hreplay
    · rw [ih hreplay, List.reverse_cons, List.append_assoc]
      rfl

theorem accepted_le_quantityOn (side : Side) (e : Event n) :
    e.accepted side ≤ quantityOn side e.call := by
  unfold Event.accepted quantityOn
  split
  next side' _ q _ _ _ hcall _ =>
    rw [hcall]
    show _ ≤ if side' = side then q.toNat else 0
    by_cases hside : side' = side
    · rw [if_pos hside]
      split <;> omega
    · rw [if_neg hside, if_neg fun h => hside h.1]
  next => exact Nat.zero_le _

theorem acceptedQty_le {side : Side} {h : List (Event n)} {bufs : List (List UInt8)}
    (hcalls : h.map Event.call = (bufs.filterMap callIn).reverse) :
    acceptedQty side h ≤ orderedQty side bufs := by
  have hle : acceptedQty side h ≤ (h.map fun e => quantityOn side e.call).sum :=
    List.sum_le_sum fun e _ => accepted_le_quantityOn side e
  have hsum : (h.map fun e => quantityOn side e.call).sum = orderedQty side bufs := by
    have hmap : h.map (fun e => quantityOn side e.call) =
        (h.map Event.call).map (quantityOn side) := by
      rw [List.map_map]
      rfl
    rw [hmap, hcalls, List.map_reverse, List.sum_reverse]
    rfl
  rw [hsum] at hle
  exact hle

theorem filledQty_reported (h : List (Event n)) : filledQty (reported h) = tradedQty h := by
  induction h with
  | nil => rfl
  | cons e h ih =>
    have hsum : tradedQty (e :: h) = filledQty e.fills + tradedQty h := rfl
    have happend : filledQty (reported h ++ e.fills) =
        filledQty (reported h) + filledQty e.fills := by
      simp [filledQty]
    rw [reported_cons, happend, ih, hsum, Nat.add_comm]

/-- **Whatever bytes arrive**, as long as there are fewer than `2^32` buffers:
both ladders ascend strictly and have no empty level, every bid is below every
ask, and no quantity is made: what was reported as matched and what a side
still shows is no more than the orders in the buffers asked for on that side. -/
theorem gateway_safe {fuel : Nat} {bufs : List (List UInt8)} {symbolId : UInt32} {s : State n}
    (hlen : bufs.length < 2 ^ 32)
    (hfeed : feed fuel bufs ⟨OrderBook.new n symbolId, []⟩ = some s) :
    (∀ side, (s.book.ladder side).Sorted ∧
      (∀ x ∈ (s.book.ladder side).levels, 0 < x.totalQuantity) ∧
      filledQty s.matched + (s.book.ladder side).totalQty ≤ orderedQty side bufs) ∧
    ∀ x ∈ s.book.bids.levels, ∀ y ∈ s.book.asks.levels, x.priceTicks < y.priceTicks := by
  obtain ⟨h, hrun, hmatched, hreplay⟩ := run_feed hfeed
  have hcalls : h.map Event.call = (bufs.filterMap callIn).reverse := by
    rw [calls_replay hreplay]
    exact List.append_nil _
  have hcount : h.length < 2 ^ 32 := by
    have hle := List.length_filterMap_le callIn bufs
    rw [← List.length_map (f := Event.call), hcalls, List.length_reverse]
    omega
  have hlimit : LimitOnly h := by
    intro e he
    have hmem : e.call ∈ (bufs.filterMap callIn).reverse := hcalls ▸ List.mem_map_of_mem he
    exact limit_calls bufs e.call (List.mem_reverse.mp hmem)
  have hwf := wf_run hrun
  refine ⟨fun side => ⟨hwf.sorted side, fun x hx => ?_, ?_⟩, hwf.uncrossed⟩
  · exact UInt64.pos_iff_ne_zero.mpr (positive_run hrun hcount side x hx)
  · rw [hmatched, filledQty_reported, ← conserved_run hrun hlimit hcount side]
    exact acceptedQty_le hcalls

theorem gateway_safe_mixed : ∃ s, feed 2 mixedBuffers ⟨OrderBook.new .four 1, []⟩ = some s ∧
    s.matched = [⟨0, 0, 10000, 3⟩] ∧
    ∀ side, filledQty s.matched + (s.book.ladder side).totalQty ≤ orderedQty side mixedBuffers := by
  have hfeed := feed_replay 2 mixedBuffers [] (OrderBook.new .four 1)
  rw [callIn_mixedBuffers] at hfeed
  exact ⟨_, hfeed, rfl, fun side => ((gateway_safe (by decide) hfeed).1 side).2.2⟩

end HftEngine.Gateway
