import HftEngine.Gateway.Orders

/-!
# A pipeline that starves

The slot of an order that is filled on arrival goes back to the pool; the slot
of an order that rested and was filled later does not.  A `Crossing` is a sell
order and a buy order that takes it whole, in two messages.  On a book with
both ladders empty it leaves both empty again, with one slot less
(`replay_crossing`).

A stream of crossings therefore trades as often as there are slots, but for
two: the next sell order takes the last slot and rests, its buyer is refused,
and so is every order from then on (`crossings_starve`).

The messages of the benchmark are such a stream (`benchMessages_eq`), so from
some iteration on its loop measures refusals only.
-/

namespace HftEngine.Gateway

open HftEngine.Fix HftEngine.Lib

variable {n : PoolSize}

/-- A sell order, and a buy order that takes it whole. -/
structure Crossing where
  ask : NewOrder
  bid : NewOrder
  ask_side : ask.side = .sell
  bid_side : bid.side = .buy
  same_quantity : bid.quantity = ask.quantity
  positive : ask.quantity ≠ 0
  crosses : ask.price ≤ bid.price

namespace Crossing

/-- The two orders, the seller first. -/
def orders (c : Crossing) : List NewOrder := [c.ask, c.bid]

/-- The match the buyer causes. -/
def fill (c : Crossing) : MatchResult := ⟨0, 0, Int64.ofNat c.ask.price, c.ask.quantity⟩

/-- The level the seller makes. -/
def level (c : Crossing) : PriceLevel := ⟨Int64.ofNat c.ask.price, c.ask.quantity.toUInt64, 1⟩

theorem ask_call (c : Crossing) :
    c.ask.call = .add .sell (Int64.ofNat c.ask.price) c.ask.quantity .limit := by
  rw [NewOrder.call, c.ask_side]

theorem bid_call (c : Crossing) :
    c.bid.call = .add .buy (Int64.ofNat c.bid.price) c.ask.quantity .limit := by
  rw [NewOrder.call, c.bid_side, c.same_quantity]

/-- The seller's price is within the buyer's limit. -/
theorem within (c : Crossing) :
    (Taker.of .buy).beyond (Int64.ofNat c.ask.price) (Int64.ofNat c.bid.price) = false := by
  have hle : Int64.ofNat c.ask.price ≤ Int64.ofNat c.bid.price := by
    rw [Int64.le_iff_toInt_le, Int64.toInt_ofNat_of_lt c.ask.price_lt,
      Int64.toInt_ofNat_of_lt c.bid.price_lt]
    exact_mod_cast c.crosses
  exact decide_eq_false (not_lt.mpr hle)

end Crossing

/-! ## One crossing -/

/-- An order that finds a slot and whose loop ends, with any fuel from there
on. -/
theorem exec_of_matching {b : OrderBook n} {side : Side} {p : Int64} {q : UInt32} {slot : UInt32}
    {free : List UInt32} (hfree : b.freeList.contents = slot :: free) {fuel₀ : Nat}
    {s : MatchLoop} (hs : b.matching fuel₀ side p q = some s) :
    ∃ b', (∀ fuel, fuel₀ ≤ fuel →
        b.exec fuel (.add side p q .limit) = some (.added b.nextOrderId s.fills, b')) ∧
      b'.ladder side.opposite = s.ladder ∧ b'.ladder side = (b.ladder side).rest p s.quantity ∧
      b'.freeList.contents = if s.quantity = 0 then free ++ [slot] else free := by
  obtain ⟨freeList, hpop, _⟩ := SpscQueue.pop_of_contents hfree
  have hp := OrderBook.place_spec b side p q .limit slot freeList s
  refine ⟨_, fun fuel hle => ?_, hp.opposite, hp.own, ?_⟩
  · have hs' : b.matching fuel side p q = some s := loop_mono hle hs
    rw [OrderBook.exec, OrderBook.addOrder_eq side p q OrderType.limit_ne_cancel hpop fuel, hs']
    rfl
  · obtain ⟨free', hcons, hcont⟩ := OrderBook.placed_contents hpop hp
    rw [hfree] at hcons
    injection hcons with _ hfree'
    rw [hcont, hfree']

theorem rest_empty (p : Int64) {q : UInt32} (hq : q ≠ 0) :
    (⟨[]⟩ : FlatPriceLadder).rest p q = ⟨[⟨p, q.toUInt64, 1⟩]⟩ := by
  have hcut : (⟨[]⟩ : FlatPriceLadder).levels = [] ++ [] := rfl
  have hlevels := FlatPriceLadder.upsert_absent (p := p) hcut
    (fun _ hy => absurd hy List.not_mem_nil) (fun _ hy => absurd hy List.not_mem_nil) q
  rw [FlatPriceLadder.rest, if_neg hq]
  exact congrArg FlatPriceLadder.mk hlevels

/-- The buyer's loop takes the one level there is. -/
theorem matching_crossing {b : OrderBook n} (c : Crossing) (hasks : b.ladder .sell = ⟨[c.level]⟩) :
    b.matching 2 .buy (Int64.ofNat c.bid.price) c.ask.quantity = some ⟨0, ⟨[]⟩, [c.fill]⟩ := by
  have hsorted : (b.ladder Side.buy.opposite).Sorted := by
    show (b.ladder .sell).Sorted
    rw [hasks]
    exact List.pairwise_singleton _ _
  have hsweep := (matching_sweeps b .buy (Int64.ofNat c.bid.price) c.ask.quantity hsorted 2).1
  have hqueue : Side.buy.queue (b.ladder Side.buy.opposite) = [c.level] := by
    show (b.ladder .sell).levels = _
    rw [hasks]
  have hstep : sweepStep (fun p => (Taker.of .buy).beyond p (Int64.ofNat c.bid.price))
      ⟨c.ask.quantity, [c.level], []⟩ = _ := sweepStep_cons [] [] c.positive c.within
  have hle : c.level.totalQuantity.toNat ≤ c.ask.quantity.toNat := by
    show c.ask.quantity.toUInt64.toNat ≤ _
    rw [UInt32.toNat_toUInt64]
  obtain ⟨hall, hgone⟩ := fill_whole hle
  have hqty : c.level.totalQuantity.toUInt32 = c.ask.quantity :=
    UInt32.toNat_inj.mp ((toNat_total hle).trans (UInt32.toNat_toUInt64 _))
  rw [if_pos hgone, hall, hqty, UInt32.sub_self] at hstep
  rw [hqueue, loop_next hstep 1, loop_exit (by simp [sweepStep]) 0] at hsweep
  obtain ⟨⟨quantity, ⟨levels⟩, fills⟩, hs, heq⟩ := Option.map_eq_some_iff.mp hsweep
  injection heq with hquantity hlevels hfills
  rw [hs]
  cases hquantity
  cases hlevels
  cases hfills
  rfl

/-- A crossing that finds two slots: both orders are executed, and the
seller's slot is lost. -/
theorem replay_crossing {b : OrderBook n} (c : Crossing)
    (hempty : ∀ side, b.ladder side = ⟨[]⟩) {slot₁ slot₂ : UInt32} {free : List UInt32}
    (hfree : b.freeList.contents = slot₁ :: slot₂ :: free) (h : List (Event n)) :
    ∃ (e₁ e₂ : Event n) (b' : OrderBook n),
      (∀ fuel, 2 ≤ fuel →
        replay fuel (c.orders.map NewOrder.call) (h, b) = some (e₂ :: e₁ :: h, b')) ∧
      e₁.fills = [] ∧ e₂.fills = [c.fill] ∧ (∀ side, b'.ladder side = ⟨[]⟩) ∧
      b'.freeList.contents = free ++ [slot₂] := by
  obtain ⟨b₁, hexec₁, hopp₁, hown₁, hfree₁⟩ := exec_of_matching hfree
    (OrderBook.matching_of_empty .sell (hempty .buy) (Int64.ofNat c.ask.price) c.ask.quantity)
  rw [if_neg c.positive] at hfree₁
  rw [hempty, rest_empty _ c.positive] at hown₁
  obtain ⟨b₂, hexec₂, hopp₂, hown₂, hfree₂⟩ := exec_of_matching hfree₁ (matching_crossing c hown₁)
  refine ⟨⟨b, c.ask.call, .added b.nextOrderId [], b₁⟩,
    ⟨b₁, c.bid.call, .added b₁.nextOrderId [c.fill], b₂⟩, b₂, fun fuel hfuel => ?_, rfl, rfl,
    fun side => ?_, hfree₂⟩
  · have hask : b.exec fuel c.ask.call = some (.added b.nextOrderId [], b₁) := by
      rw [c.ask_call]
      exact hexec₁ fuel (by omega)
    have hbid : b₁.exec fuel c.bid.call = some (.added b₁.nextOrderId [c.fill], b₂) := by
      rw [c.bid_call]
      exact hexec₂ fuel hfuel
    simp only [Crossing.orders, List.map_cons, List.map_nil, replay, hask, hbid]
  · cases side with
    | buy => exact hown₂.trans hopp₁
    | sell => exact hopp₂

/-! ## A stream of crossings -/

/-- Calls made in two parts. -/
theorem replay_append (fuel : Nat) (cs cs' : List Call) (s : List (Event n) × OrderBook n) :
    replay fuel (cs ++ cs') s = (replay fuel cs s).bind (replay fuel cs') := by
  induction cs generalizing s with
  | nil => rfl
  | cons c cs ih =>
    obtain ⟨h, b⟩ := s
    rw [List.cons_append, replay, replay]
    cases b.exec fuel c with
    | none => rfl
    | some rb => exact ih _

/-- With no slot left every order is refused, and nothing changes. -/
theorem replay_refused {b : OrderBook n} (hfree : b.freeList.contents = []) (os : List NewOrder)
    (h : List (Event n)) :
    ∃ (later : List (Event n)) (b' : OrderBook n),
      (∀ fuel, replay fuel (os.map NewOrder.call) (h, b) = some (later ++ h, b')) ∧
      (∀ e ∈ later, e.fills = []) ∧ (∀ side, b'.ladder side = b.ladder side) ∧
      b'.freeList = b.freeList := by
  induction os generalizing b h with
  | nil => exact ⟨[], b, fun _ => rfl, by simp, fun _ => rfl, rfl⟩
  | cons o os ih =>
    have hexec : ∀ fuel, b.exec fuel o.call = some (.added 0 [], b.bump) := by
      intro fuel
      rw [NewOrder.call, OrderBook.exec,
        OrderBook.addOrder_refused OrderType.limit_ne_cancel hfree]
      rfl
    obtain ⟨later, b', hreplay, hfills, hladder, hlist⟩ :=
      ih (b := b.bump) hfree (⟨b, o.call, .added 0 [], b.bump⟩ :: h)
    refine ⟨later ++ [⟨b, o.call, .added 0 [], b.bump⟩], b', fun fuel => ?_, ?_, ?_, hlist⟩
    · rw [List.map_cons, replay, hexec, List.append_assoc]
      exact hreplay fuel
    · intro e he
      rcases List.mem_append.mp he with he | he
      · exact hfills e he
      · rw [List.mem_singleton.mp he]
        rfl
    · intro side
      rw [hladder]
      cases side <;> rfl

/-- A crossing that finds one slot: the seller takes it, and the buyer and all
who come later are refused. -/
theorem replay_last_slot {b : OrderBook n} (c : Crossing) (hempty : ∀ side, b.ladder side = ⟨[]⟩)
    {slot : UInt32} (hfree : b.freeList.contents = [slot]) (os : List NewOrder)
    (h : List (Event n)) :
    ∃ (later : List (Event n)) (b' : OrderBook n),
      (∀ fuel, 2 ≤ fuel → replay fuel ((c.ask :: os).map NewOrder.call) (h, b) =
        some (later ++ h, b')) ∧
      reported later = [] ∧ b'.freeList.contents = [] ∧ b'.ladder .buy = ⟨[]⟩ ∧
      b'.ladder .sell = ⟨[c.level]⟩ := by
  obtain ⟨b₁, hexec, hopp, hown, hfree₁⟩ := exec_of_matching hfree
    (OrderBook.matching_of_empty .sell (hempty .buy) (Int64.ofNat c.ask.price) c.ask.quantity)
  rw [if_neg c.positive] at hfree₁
  rw [hempty, rest_empty _ c.positive] at hown
  let e : Event n := ⟨b, c.ask.call, .added b.nextOrderId [], b₁⟩
  obtain ⟨later, b', hreplay, hfills, hladder, hlist⟩ := replay_refused hfree₁ os (e :: h)
  refine ⟨later ++ [e], b', fun fuel hfuel => ?_, ?_, ?_, (hladder _).trans hopp,
    (hladder _).trans hown⟩
  · have hask : b.exec fuel c.ask.call = some (.added b.nextOrderId [], b₁) := by
      rw [c.ask_call]
      exact hexec fuel (by omega)
    rw [List.map_cons, replay, hask, List.append_assoc]
    exact hreplay fuel
  · refine List.flatMap_eq_nil_iff.mpr fun e' he => ?_
    rcases List.mem_append.mp (List.mem_reverse.mp he) with he | he
    · exact hfills e' he
    · rw [List.mem_singleton.mp he]
      rfl
  · rw [hlist, hfree₁]

/-- Crossings on a book with both ladders empty and some slot free: all but one
of the slots are worth a match, the last one is taken by a seller. -/
theorem replay_crossings (cs : List Crossing) {b : OrderBook n}
    (hempty : ∀ side, b.ladder side = ⟨[]⟩) {k : Nat} (hfree : b.freeList.contents.length = k + 1)
    (h : List (Event n)) :
    ∃ (later : List (Event n)) (b' : OrderBook n),
      (∀ fuel, 2 ≤ fuel → replay fuel ((cs.flatMap Crossing.orders).map NewOrder.call) (h, b) =
        some (later ++ h, b')) ∧
      reported later = (cs.take k).map Crossing.fill ∧
      b'.freeList.contents.length = k + 1 - cs.length ∧ b'.ladder .buy = ⟨[]⟩ ∧
      b'.ladder .sell = ⟨cs[k]?.toList.map Crossing.level⟩ := by
  induction cs generalizing b k h with
  | nil => exact ⟨[], b, fun _ _ => rfl, by simp [reported], hfree, hempty _, hempty _⟩
  | cons c cs ih =>
    cases k with
    | zero =>
      obtain ⟨slot, hslot⟩ := List.length_eq_one_iff.mp hfree
      obtain ⟨later, b', hreplay, hreported, hleft, hbids, hasks⟩ :=
        replay_last_slot c hempty hslot (c.bid :: cs.flatMap Crossing.orders) h
      refine ⟨later, b', hreplay, hreported, ?_, hbids, hasks⟩
      rw [hleft, List.length_nil, List.length_cons]
      omega
    | succ k =>
      obtain ⟨slot₁, rest, hslots⟩ := List.exists_cons_of_length_eq_add_one hfree
      have hrest : rest.length = k + 1 := by
        rw [hslots, List.length_cons] at hfree
        omega
      obtain ⟨slot₂, free, rfl⟩ := List.exists_cons_of_length_eq_add_one hrest
      obtain ⟨e₁, e₂, b₁, hpair, hfills₁, hfills₂, hempty₁, hfree₁⟩ :=
        replay_crossing c hempty hslots h
      have hlength : b₁.freeList.contents.length = k + 1 := by
        rw [hfree₁, List.length_append, List.length_singleton]
        exact hrest
      obtain ⟨later, b', hreplay, hreported, hleft, hbids, hasks⟩ :=
        ih hempty₁ hlength (e₂ :: e₁ :: h)
      refine ⟨later ++ [e₂, e₁], b', fun fuel hfuel => ?_, ?_, ?_, hbids, hasks⟩
      · rw [List.flatMap_cons, List.map_append, replay_append, hpair fuel hfuel, List.append_assoc]
        exact hreplay fuel hfuel
      · rw [List.take_succ_cons, List.map_cons, ← hreported]
        simp [reported, hfills₁, hfills₂]
      · rw [hleft, List.length_cons]
        omega

/-! ## The benchmark -/

/-- The messages of `fix_parse_with_orderbook`. -/
def benchMessages : List (List UInt8) :=
  (List.range 10000).map fun i =>
    makeFixMessage (Int32.ofNat i) 100 (150000 + Int32.ofNat i)
      (if i % 2 ≠ 0 then '1'.toUInt8 else '2'.toUInt8)

/-- The order in message `i`. -/
def benchOrder (i : Fin 10000) : NewOrder where
  seqNum := i
  clOrdId := bytes "ORDER" ++ decimal i
  symbol := bytes "AAPL"
  side := if i.val % 2 ≠ 0 then .buy else .sell
  quantity := 100
  price := 150000 + i
  clOrdId_closed := by
    rw [List.mem_append, not_or]
    exact ⟨by decide, soh_not_mem_decimal _⟩
  symbol_closed := by decide
  price_lt := by omega

/-- Messages `2 j` and `2 j + 1`. -/
def benchCrossing (j : Fin 5000) : Crossing where
  ask := benchOrder ⟨2 * j, by omega⟩
  bid := benchOrder ⟨2 * j + 1, by omega⟩
  ask_side := if_neg (not_not.mpr (Nat.mul_mod_right 2 j))
  bid_side := if_pos (by
    show (2 * j.val + 1) % 2 ≠ 0
    omega)
  same_quantity := rfl
  positive := UInt32.toNat_inj.not.mp (by
    show 100 ≠ 0
    omega)
  crosses := by
    show 150000 + 2 * j.val ≤ 150000 + (2 * j.val + 1)
    omega

theorem text_benchOrder (i : Fin 10000) :
    (benchOrder i).text = makeFixMessage (Int32.ofNat i) 100 (150000 + Int32.ofNat i)
      (if i.val % 2 ≠ 0 then '1'.toUInt8 else '2'.toUInt8) := by
  have hi : (Int32.ofNat i).toInt = i := Int32.toInt_ofNat_of_lt (by omega)
  have hsum : (150000 : Int32) + Int32.ofNat i = Int32.ofNat (150000 + i) :=
    (Int32.ofNat_add 150000 i).symm
  have hprice : ((150000 : Int32) + Int32.ofNat i).toInt = (150000 + i.val : Nat) := by
    rw [hsum]
    exact Int32.toInt_ofNat_of_lt (by omega)
  have hside : sideByte (benchOrder i).side =
      if i.val % 2 ≠ 0 then '1'.toUInt8 else '2'.toUInt8 := by
    show sideByte (if i.val % 2 ≠ 0 then .buy else .sell) = _
    split <;> rfl
  rw [makeFixMessage_eq (by rw [Int32.le_iff_toInt_le, hi]; exact Int.natCast_nonneg _)
    (by decide) (by rw [Int32.le_iff_toInt_le, hprice]; exact Int.natCast_nonneg _), hi, hprice,
    NewOrder.text, hside]
  rfl

theorem range_two_mul (m : Nat) :
    List.range (2 * m) = (List.range m).flatMap fun j => [2 * j, 2 * j + 1] := by
  induction m with
  | zero => rfl
  | succ m ih =>
    rw [List.range_succ, List.flatMap_append, ← ih, Nat.mul_succ, List.range_succ, List.range_succ]
    simp

theorem benchMessages_eq : benchMessages =
    (((List.finRange 5000).map benchCrossing).flatMap Crossing.orders).map NewOrder.text := by
  have hrange : List.range 5000 = (List.finRange 5000).map Fin.val := by simp
  rw [benchMessages, range_two_mul 5000, hrange, List.flatMap_map, List.flatMap_map,
    List.map_flatMap, List.map_flatMap]
  refine List.flatMap_congr fun j _ => ?_
  simp only [Crossing.orders, benchCrossing, List.map_cons, List.map_nil, text_benchOrder]

/-- The crossings of some iterations. -/
def benchCrossings (iterations : Nat) : List Crossing :=
  (List.replicate iterations ((List.finRange 5000).map benchCrossing)).flatten

theorem length_benchCrossings (iterations : Nat) :
    (benchCrossings iterations).length = iterations * 5000 := by
  rw [benchCrossings, List.length_flatten, List.map_replicate, List.sum_replicate,
    List.length_map, List.length_finRange, smul_eq_mul]

theorem texts_benchCrossings (iterations : Nat) :
    ((benchCrossings iterations).flatMap Crossing.orders).map NewOrder.text =
      (List.replicate iterations benchMessages).flatten := by
  unfold benchCrossings
  induction iterations with
  | zero => rfl
  | succ k ih =>
    rw [List.replicate_succ, List.replicate_succ, List.flatten_cons, List.flatten_cons,
      List.flatMap_append, List.map_append, ih, benchMessages_eq]

/-! ## The result -/

/-- **A stream of crossings starves the book.** Feed the messages of any number
of crossings to a fresh book of `N` slots.  The first `N - 2` crossings match,
one slot being lost with each; the seller of the next one takes the last slot
and rests, and every order from then on is refused, so that nothing else is
ever matched. -/
theorem crossings_starve (n : PoolSize) (hlog : 0 < n.log2) (symbolId : UInt32)
    (cs : List Crossing) :
    ∃ s : State n,
      (∀ fuel, 2 ≤ fuel → feed fuel ((cs.flatMap Crossing.orders).map NewOrder.text)
        ⟨OrderBook.new n symbolId, []⟩ = some s) ∧
      s.matched = (cs.take (n.maxOrders - 2)).map Crossing.fill ∧
      s.book.freeList.contents.length = n.maxOrders - 1 - cs.length ∧
      s.book.bids = ⟨[]⟩ ∧ s.book.asks = ⟨cs[n.maxOrders - 2]?.toList.map Crossing.level⟩ := by
  have hslots : (OrderBook.new n symbolId).freeList.contents.length = n.maxOrders - 2 + 1 := by
    have hsize : 2 ^ 1 ≤ n.maxOrders := Nat.pow_le_pow_right (by omega) hlog
    rw [OrderBook.contents_new, List.length_map, List.length_range]
    omega
  obtain ⟨later, b, hreplay, hreported, hleft, hbids, hasks⟩ :=
    replay_crossings cs (ladder_new symbolId) hslots []
  refine ⟨State.ofRun (later ++ [], b), fun fuel hfuel => ?_, ?_, ?_, hbids, hasks⟩
  · have hfeed := feed_replay fuel ((cs.flatMap Crossing.orders).map NewOrder.text) []
      (OrderBook.new n symbolId)
    rw [callIn_texts, hreplay fuel hfuel] at hfeed
    exact hfeed
  · rw [List.append_nil]
    exact hreported
  · show b.freeList.contents.length = _
    rw [OrderBook.contents_new, List.length_map, List.length_range] at hslots
    omega

/-- Iteration 210 of the benchmark is the one in which its book runs dry. -/
theorem crossings_starve_benchmark :
    ∃ s : State .default,
      (∀ fuel, 2 ≤ fuel → feed fuel (List.replicate 210 benchMessages).flatten
        ⟨OrderBook.new .default 1, []⟩ = some s) ∧
      s.matched.length = 1048574 ∧ s.book.freeList.contents.length = 0 ∧
      s.book.asks.levels.length = 1 := by
  obtain ⟨s, hfeed, hmatched, hfree, _, hasks⟩ :=
    crossings_starve .default (by decide) 1 (benchCrossings 210)
  have hlength := length_benchCrossings 210
  have hsize : PoolSize.default.maxOrders = 1048576 := rfl
  rw [texts_benchCrossings] at hfeed
  refine ⟨s, hfeed, ?_, ?_, ?_⟩
  · rw [hmatched, List.length_map, List.length_take]
    omega
  · omega
  · rw [hasks, List.length_map, List.getElem?_eq_getElem (by omega)]
    rfl

end HftEngine.Gateway
