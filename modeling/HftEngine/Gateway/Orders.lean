import HftEngine.Fix.Tags
import HftEngine.Gateway.Pipeline

/-!
# Orders on their way to the book

A `NewOrder` is an order with the texts and numbers of a FIX message around
it; `text` is the message, in the layout of the benchmark.

The pipeline takes such a message for the order it was made from, whatever
well-formed fields stand before it in the buffer (`callIn_append_text`): the
parser does not know where a message begins, and each of the members of a
message is the latest value under its tag.  So

* orders that arrive in a buffer each do to the book what the same orders
  passed to `add_order` directly do (`encoded_orders_reach_book`);
* of the orders that arrive in one buffer, the last alone reaches the book
  (`coalesced_orders_lost`).
-/

namespace HftEngine.Gateway

open HftEngine.Fix HftEngine.Lib

variable {n : PoolSize}

/-- A new order, and what else its message says. -/
structure NewOrder where
  seqNum : Nat
  clOrdId : List UInt8
  symbol : List UInt8
  side : Side
  quantity : UInt32
  price : Nat
  clOrdId_closed : SOH ∉ clOrdId
  symbol_closed : SOH ∉ symbol
  price_lt : price < 2 ^ 63

/-- The value of tag 54. -/
def sideByte : Side → UInt8
  | .buy => '1'.toUInt8
  | .sell => '2'.toUInt8

namespace NewOrder

/-- The fields of the message. -/
def fields (o : NewOrder) : List (String × List UInt8) :=
  orderFields o.seqNum o.clOrdId o.symbol (sideByte o.side) o.quantity.toNat o.price

/-- The message of an order. -/
def text (o : NewOrder) : List UInt8 :=
  encode o.seqNum o.clOrdId o.symbol (sideByte o.side) o.quantity.toNat o.price

/-- The call an order is meant to make. -/
def call (o : NewOrder) : Call := .add o.side (Int64.ofNat o.price) o.quantity .limit

theorem closed_fields (o : NewOrder) : ∀ f ∈ o.fields, SOH ∉ f.2 := by
  have hside : SOH ∉ [sideByte o.side] := by
    cases o.side <;> decide
  have hfixed : SOH ∉ bytes "FIX.4.2" ∧ SOH ∉ bytes "65" ∧ SOH ∉ bytes "D" ∧
      SOH ∉ bytes "SENDER" ∧ SOH ∉ bytes "TARGET" ∧ SOH ∉ bytes "2" ∧ SOH ∉ bytes "123" := by
    decide
  obtain ⟨h₁, h₂, h₃, h₄, h₅, h₆, h₇⟩ := hfixed
  simp only [fields, orderFields, List.forall_mem_cons]
  exact ⟨h₁, h₂, h₃, h₄, h₅, soh_not_mem_decimal _, o.clOrdId_closed, o.symbol_closed, hside,
    soh_not_mem_decimal _, soh_not_mem_priceText _, h₆, h₇, by simp⟩

/-- The message comes apart into its fields. -/
theorem fields_text (o : NewOrder) :
    Lib.fields SOH o.text = o.fields.map fun f => field f.1 f.2 := by
  have htags : NumericTags o.fields := numericTags_orderFields o.seqNum
  refine fields_terminated fun xs hxs => ?_
  obtain ⟨f, hf, rfl⟩ := List.mem_map.mp hxs
  exact soh_not_mem_tagged (htags f.1 (List.mem_map_of_mem hf)) (o.closed_fields f hf)

/-- The fields of an order set every member of a message, whatever they find
there. -/
theorem foldl_fields (o : NewOrder) (msg : FixMessage) :
    o.fields.foldl (fun msg f => applyField (tagOf (bytes f.1)) f.2 msg) msg =
      { msgType := .newOrderSingle
        clOrdId := o.clOrdId
        symbol := o.symbol
        side := sideByte o.side - '0'.toUInt8
        orderQty := o.quantity
        priceTicks := Int64.ofNat o.price
        ordType := 2
        checksum := 12
        valid := msg.valid } := by
  have hqty : readQty (decimal o.quantity.toNat) = o.quantity := by
    rw [readQty_decimal, UInt32.ofNat_toNat]
  simp only [fields, orderFields, List.foldl_cons, List.foldl_nil]
  conv_rhs => rw [← hqty, ← readPrice_priceText]
  rfl

end NewOrder

/-- Well-formed fields in front are applied first. -/
theorem applyFields_message (fs : List TextField) (rest : List (List UInt8)) (msg : FixMessage) :
    ∃ msg', applyFields (fs.map TextField.text ++ rest) msg = applyFields rest msg' := by
  induction fs generalizing msg with
  | nil => exact ⟨msg, rfl⟩
  | cons f fs ih =>
    rw [List.map_cons, List.cons_append, applyFields, TextField.text, splitField_eq f.numeric]
    exact ih _

/-- A message is taken for its order, whatever well-formed fields stand before
it in the buffer. -/
theorem callIn_append_text (fs : List TextField) (o : NewOrder) :
    callIn (message fs ++ o.text) = some o.call := by
  obtain ⟨msg, hmsg⟩ := applyFields_message fs (Lib.fields SOH o.text) {}
  have htags : NumericTags o.fields := numericTags_orderFields o.seqNum
  rw [callIn, parse_eq, grammar, fields_message_append, hmsg, o.fields_text, applyFields_map htags,
    o.foldl_fields]
  show callOf _ = some (.add o.side _ _ _)
  cases o.side with
  | buy => rfl
  | sell => rfl

theorem callIn_texts (os : List NewOrder) :
    (os.map NewOrder.text).filterMap callIn = os.map NewOrder.call := by
  rw [List.filterMap_map, ← List.filterMap_eq_map]
  exact List.filterMap_congr fun o _ => callIn_append_text [] o

/-- **Orders written as FIX messages reach the book.** A buffer for each order,
fed to the pipeline, does what the orders passed to `add_order` one after the
other do: the pipeline gets through exactly when these calls return, with the
same book and the same matches. -/
theorem encoded_orders_reach_book (fuel : Nat) (os : List NewOrder) (symbolId : UInt32) :
    feed fuel (os.map NewOrder.text) ⟨OrderBook.new n symbolId, []⟩ =
      (replay fuel (os.map NewOrder.call) ([], OrderBook.new n symbolId)).map State.ofRun := by
  rw [← callIn_texts]
  exact feed_replay fuel _ [] (OrderBook.new n symbolId)

/-! ## Several orders in one buffer -/

theorem exists_textFields {fs : List (String × List UInt8)} (htags : NumericTags fs)
    (hclosed : ∀ f ∈ fs, SOH ∉ f.2) :
    ∃ gs : List TextField, gs.map TextField.text = fs.map fun f => field f.1 f.2 := by
  induction fs with
  | nil => exact ⟨[], rfl⟩
  | cons f fs ih =>
    obtain ⟨hf, hfs⟩ := List.forall_mem_cons.mp hclosed
    obtain ⟨gs, hgs⟩ := ih (fun tag htag => htags tag (List.mem_cons_of_mem _ htag)) hfs
    refine ⟨⟨bytes f.1, f.2, htags f.1 List.mem_cons_self, hf⟩ :: gs, ?_⟩
    rw [List.map_cons, List.map_cons, hgs]
    rfl

/-- Messages one behind the other are one message. -/
theorem exists_message (os : List NewOrder) :
    ∃ gs : List TextField, os.flatMap NewOrder.text = message gs := by
  induction os with
  | nil => exact ⟨[], rfl⟩
  | cons o os ih =>
    obtain ⟨gs, hgs⟩ := ih
    obtain ⟨hs, hhs⟩ := exists_textFields (numericTags_orderFields o.seqNum) o.closed_fields
    have htext : o.text = message hs := by rw [message, hhs]; rfl
    refine ⟨hs ++ gs, ?_⟩
    rw [List.flatMap_cons, hgs, htext]
    simp only [message, terminated, List.map_append, List.flatMap_append]

/-- **Of the orders in one buffer only the last reaches the book.** -/
theorem coalesced_orders_lost (fuel : Nat) (s : State n) (os : List NewOrder) (o : NewOrder) :
    handle fuel s (os.flatMap NewOrder.text ++ o.text) =
      (s.book.addOrder fuel o.side (Int64.ofNat o.price) o.quantity .limit).map
        fun r => ⟨r.2.2, s.matched ++ r.2.1⟩ := by
  obtain ⟨gs, hgs⟩ := exists_message os
  have hcall := callIn_append_text gs o
  rw [callIn, parse_eq] at hcall
  have hcall : callOf (grammar (message gs ++ o.text)) = some o.call := hcall
  rw [hgs, handle_parsed fuel s (parse_eq _ [0]), hcall]
  show ((s.book.addOrder fuel o.side _ o.quantity .limit).map _).map _ = _
  rw [Option.map_map]
  rfl

end HftEngine.Gateway
