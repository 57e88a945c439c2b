import HftEngine.Lib.Decimal
import HftEngine.Fix.Grammar

/-!
# Encoding and parsing back

`makeFixMessage` is the message the benchmark feeds to the parser
(`bench_fix_pipeline.cpp`); `encode` is a new-order message of that layout
with any texts and numbers in it.  `parse_encode` says that the parser gets
back what was put in.

The message is a list of closed fields, so the grammar gives the fields back
one by one (`applyFields_field`).  Of the three numeric readers, the tag's
works on fixed texts; `readQty_decimal` and `readPrice_decimal` are the other
two, each one instance of the same rule about digits.
-/

namespace HftEngine.Fix

open Lib

/-- A tag and its value. -/
def field (tag : String) (value : List UInt8) : List UInt8 :=
  bytes tag ++ '='.toUInt8 :: value

/-- A price in ticks, with its four decimal places. -/
def priceText (price : Nat) : List UInt8 :=
  decimal (price / 10000) ++ '.'.toUInt8 :: (decimal (price % 10000 / 1000) ++
    decimal (price % 1000 / 100) ++ decimal (price % 100 / 10) ++ decimal (price % 10))

/-- The tags and values of a new order, in the order of `make_fix_message`. -/
def orderFields (seqNum : Nat) (clOrdId symbol : List UInt8) (side : UInt8) (qty price : Nat) :
    List (String × List UInt8) :=
  [("8", bytes "FIX.4.2"), ("9", bytes "65"), ("35", bytes "D"), ("49", bytes "SENDER"),
    ("56", bytes "TARGET"), ("34", decimal seqNum), ("11", clOrdId), ("55", symbol),
    ("54", [side]), ("38", decimal qty), ("44", priceText price), ("40", bytes "2"),
    ("10", bytes "123")]

/-- A new order, each field closed by a separator. -/
def encode (seqNum : Nat) (clOrdId symbol : List UInt8) (side : UInt8) (qty price : Nat) :
    List UInt8 :=
  terminated SOH ((orderFields seqNum clOrdId symbol side qty price).map fun f => field f.1 f.2)

/-- `std::to_string(int)`. -/
def toString32 (x : Int32) : List UInt8 := signedDecimal x.toInt

def makeFixMessage (orderId qty price : Int32) (side : UInt8) : List UInt8 :=
  bytes "8=FIX.4.2\x019=65\x0135=D\x0149=SENDER\x0156=TARGET\x0134=" ++
  toString32 orderId ++
  bytes "\x0111=ORDER" ++
  toString32 orderId ++
  bytes "\x0155=AAPL\x0154=" ++
  [side] ++
  bytes "\x0138=" ++
  toString32 qty ++
  bytes "\x0144=" ++
  toString32 (price / 10000) ++
  bytes "." ++
  toString32 ((price % 10000) / 1000) ++
  toString32 ((price % 1000) / 100) ++
  toString32 ((price % 100) / 10) ++
  toString32 (price % 10) ++
  bytes "\x0140=2\x0110=123\x01"

/-! ## The numeric readers -/

theorem readQty_decimal (n : Nat) : readQty (decimal n) = UInt32.ofNat n := by
  refine foldl_decimal (R := UInt32) _ UInt32.ofNat ?_ n
  intro m k hk
  have hdigit : ∀ k < 10, charToUInt32 (digitByte k) - charToUInt32 '0'.toUInt8 = UInt32.ofNat k := by
    decide
  rw [hdigit k hk, UInt32.ofNat_add, UInt32.ofNat_mul, UInt32.mul_comm]
  rfl

/-- One more digit of a price, before the point and behind it. -/
theorem priceScan_digit {m k : Nat} (hk : k < 10) (places : Nat) (inDecimal : Bool) :
    PriceScan.step ⟨Int64.ofNat m, places, inDecimal⟩ (digitByte k) =
      ⟨Int64.ofNat (10 * m + k), if inDecimal then places + 1 else places, inDecimal⟩ := by
  have hbyte : ∀ k < 10, digitByte k ≠ '.'.toUInt8 ∧ isDigit (digitByte k) = true ∧
      (digitByte k - '0'.toUInt8).toNat = k := by decide
  obtain ⟨hpoint, hdigit, hvalue⟩ := hbyte k hk
  rw [PriceScan.step, if_neg hpoint, if_pos hdigit, hvalue, Int64.ofNat_add, Int64.ofNat_mul,
    Int64.mul_comm]
  rfl

theorem readPrice_priceText (price : Nat) : readPrice (priceText price) = Int64.ofNat price := by
  have hwhole : (decimal (price / 10000)).foldl PriceScan.step {} =
      ⟨Int64.ofNat (price / 10000), 0, false⟩ :=
    foldl_decimal PriceScan.step (fun m => ⟨Int64.ofNat m, 0, false⟩)
      (fun m k hk => priceScan_digit hk 0 false) _
  have hpoint : ∀ s : PriceScan, s.step '.'.toUInt8 = { s with inDecimal := true } :=
    fun s => by rw [PriceScan.step, if_pos rfl]
  have hscan : (priceText price).foldl PriceScan.step {} = ⟨Int64.ofNat price, 4, true⟩ := by
    rw [priceText, List.foldl_append, hwhole, List.foldl_cons, hpoint,
      decimal_of_lt (by omega), decimal_of_lt (by omega), decimal_of_lt (by omega),
      decimal_of_lt (by omega)]
    simp only [List.cons_append, List.nil_append, List.foldl_cons, List.foldl_nil]
    rw [priceScan_digit (by omega), priceScan_digit (by omega), priceScan_digit (by omega),
      priceScan_digit (by omega)]
    congr 2
    omega
  simp only [readPrice, hscan]
  rfl

/-! ## The fields -/

/-- A list of digits as tag of each field. -/
def NumericTags (fs : List (String × List UInt8)) : Prop :=
  ∀ tag ∈ fs.map Prod.fst, ∀ c ∈ bytes tag, isDigit c = true

theorem applyFields_field {tag : String} (htag : ∀ c ∈ bytes tag, isDigit c = true)
    (value : List UInt8) (fs : List (List UInt8)) (msg : FixMessage) :
    applyFields (field tag value :: fs) msg =
      applyFields fs (applyField (tagOf (bytes tag)) value msg) := by
  rw [applyFields, field, splitField_eq htag]

/-- Well-formed fields are applied one after the other. -/
theorem applyFields_map {fs : List (String × List UInt8)} (htags : NumericTags fs)
    (msg : FixMessage) :
    applyFields (fs.map fun f => field f.1 f.2) msg =
      applyFields [] (fs.foldl (fun msg f => applyField (tagOf (bytes f.1)) f.2 msg) msg) := by
  induction fs generalizing msg with
  | nil => rfl
  | cons f fs ih =>
    have hf : ∀ c ∈ bytes f.1, isDigit c = true := htags f.1 List.mem_cons_self
    rw [List.map_cons, List.foldl_cons, applyFields_field hf]
    exact ih (fun tag htag => htags tag (List.mem_cons_of_mem _ htag)) _

theorem soh_not_mem_decimal (n : Nat) : SOH ∉ decimal n := by
  intro hmem
  obtain ⟨k, hk, heq⟩ := decimal_digit hmem
  have hbyte : ∀ k < 10, SOH ≠ digitByte k := by decide
  exact hbyte k hk heq

theorem soh_not_mem_priceText (price : Nat) : SOH ∉ priceText price := by
  have hpoint : SOH ≠ '.'.toUInt8 := by decide
  simp [priceText, soh_not_mem_decimal, hpoint]

/-! ## The whole message -/

/-- Parsing `buf` gives a valid new order with these entries, whatever lies
behind `buf` in memory. -/
def Decodes (buf clOrdId symbol : List UInt8) (side : UInt8) (qty price : Nat) : Prop :=
  ∀ tail, ∃ msg, parse (some (buf ++ tail)) buf.length = some msg ∧ msg.valid = true ∧
    msg.msgType = .newOrderSingle ∧ msg.clOrdId = clOrdId ∧ msg.symbol = symbol ∧
    msg.side.toNat + '0'.toUInt8.toNat = side.toNat ∧ msg.orderQty.toNat = qty ∧
    msg.priceTicks.toInt = price ∧ msg.ordType = 2

section Encode

variable (seqNum : Nat) {clOrdId symbol : List UInt8} {side : UInt8} {qty price : Nat}

theorem numericTags_orderFields :
    NumericTags (orderFields seqNum clOrdId symbol side qty price) := by
  have htags : (orderFields seqNum clOrdId symbol side qty price).map Prod.fst =
      ["8", "9", "35", "49", "56", "34", "11", "55", "54", "38", "44", "40", "10"] := rfl
  have hall : (["8", "9", "35", "49", "56", "34", "11", "55", "54", "38", "44", "40", "10"].all
      fun tag => (bytes tag).all isDigit) = true := by decide
  intro tag htag
  rw [htags] at htag
  exact List.all_eq_true.mp (List.all_eq_true.mp hall tag htag)

/-- What the fields of a new order make of an empty message. -/
theorem foldl_orderFields (clOrdId symbol : List UInt8) (side : UInt8) (qty price : Nat) :
    (orderFields seqNum clOrdId symbol side qty price).foldl
        (fun msg f => applyField (tagOf (bytes f.1)) f.2 msg) {} =
      { msgType := .newOrderSingle
        clOrdId := clOrdId
        symbol := symbol
        side := side - '0'.toUInt8
        orderQty := UInt32.ofNat qty
        priceTicks := Int64.ofNat price
        ordType := 2
        checksum := 12 } := by
  simp only [orderFields, List.foldl_cons, List.foldl_nil]
  rw [← readQty_decimal, ← readPrice_priceText]
  rfl

theorem decodes_encode (hid : SOH ∉ clOrdId) (hsymbol : SOH ∉ symbol)
    (hside : side = '1'.toUInt8 ∨ side = '2'.toUInt8) (hqty : qty < 2 ^ 32)
    (hprice : price < 2 ^ 63) :
    Decodes (encode seqNum clOrdId symbol side qty price) clOrdId symbol side qty price := by
  have htags : NumericTags (orderFields seqNum clOrdId symbol side qty price) :=
    numericTags_orderFields seqNum
  -- no value holds a separator, so the fields come apart where they were joined
  have hvalues : ∀ f ∈ orderFields seqNum clOrdId symbol side qty price, SOH ∉ f.2 := by
    have hsoh : SOH ∉ [side] := by
      rcases hside with rfl | rfl <;> decide
    have hfixed : SOH ∉ bytes "FIX.4.2" ∧ SOH ∉ bytes "65" ∧ SOH ∉ bytes "D" ∧
        SOH ∉ bytes "SENDER" ∧ SOH ∉ bytes "TARGET" ∧ SOH ∉ bytes "2" ∧ SOH ∉ bytes "123" := by
      decide
    obtain ⟨h₁, h₂, h₃, h₄, h₅, h₆, h₇⟩ := hfixed
    simp only [orderFields, List.forall_mem_cons]
    exact ⟨h₁, h₂, h₃, h₄, h₅, soh_not_mem_decimal _, hid, hsymbol, hsoh, soh_not_mem_decimal _,
      soh_not_mem_priceText _, h₆, h₇, by simp⟩
  have hfields : fields SOH (encode seqNum clOrdId symbol side qty price) =
      (orderFields seqNum clOrdId symbol side qty price).map fun f => field f.1 f.2 := by
    refine fields_terminated ?_
    intro xs hxs
    obtain ⟨f, hf, rfl⟩ := List.mem_map.mp hxs
    exact soh_not_mem_tagged (htags f.1 (List.mem_map_of_mem hf)) (hvalues f hf)
  intro tail
  refine ⟨_, parse_eq _ tail, ?_⟩
  rw [grammar, hfields, applyFields_map htags, foldl_orderFields]
  refine ⟨rfl, rfl, rfl, rfl, ?_, ?_, ?_, rfl⟩
  · show (side - '0'.toUInt8).toNat + _ = _
    rcases hside with rfl | rfl <;> rfl
  · exact UInt32.toNat_ofNat_of_lt' hqty
  · exact Int64.toInt_ofNat_of_lt hprice

end Encode

/-! ## The benchmark's message -/

/-- Division and remainder of non-negative `int`s. -/
theorem toInt_div_natCast {a b : Int32} {m k : Nat} (ha : a.toInt = m) (hb : b.toInt = k) :
    (a / b).toInt = (m / k : Nat) ∧ (a % b).toInt = (m % k : Nat) := by
  have hlt := Int32.toInt_lt a
  refine ⟨?_, ?_⟩
  · rw [Int32.toInt_div, ha, hb, ← Int.ofNat_tdiv]
    have hle : m / k ≤ m := Nat.div_le_self m k
    generalize m / k = q at hle ⊢
    exact Int.bmod_eq_of_le (by omega) (by omega)
  · rw [Int32.toInt_mod, ha, hb, ← Int.ofNat_tmod]

theorem makeFixMessage_eq {orderId qty price : Int32} (horder : 0 ≤ orderId) (hqty : 0 ≤ qty)
    (hprice : 0 ≤ price) (side : UInt8) :
    makeFixMessage orderId qty price side =
      encode orderId.toInt.toNat (bytes "ORDER" ++ decimal orderId.toInt.toNat) (bytes "AAPL") side
        qty.toInt.toNat price.toInt.toNat := by
  have hnat : ∀ x : Int32, 0 ≤ x → x.toInt = (x.toInt.toNat : Int) := by
    intro x hx
    have hle : (0 : Int32).toInt ≤ x.toInt := Int32.le_iff_toInt_le.mp hx
    exact (Int.toNat_of_nonneg hle).symm
  -- each number is printed as the natural number it is
  have hprint : ∀ (x : Int32) (m : Nat), x.toInt = m → toString32 x = decimal m := by
    intro x m hx
    rw [toString32, hx, signedDecimal_ofNat]
  have hp := hnat price hprice
  have hdiv := fun (b : Int32) (k : Nat) (hb : b.toInt = k) => toInt_div_natCast hp hb
  have h₃ := (toInt_div_natCast (hdiv 10000 10000 rfl).2 (rfl : (1000 : Int32).toInt = (1000 : Nat))).1
  have h₂ := (toInt_div_natCast (hdiv 1000 1000 rfl).2 (rfl : (100 : Int32).toInt = (100 : Nat))).1
  have h₁ := (toInt_div_natCast (hdiv 100 100 rfl).2 (rfl : (10 : Int32).toInt = (10 : Nat))).1
  unfold makeFixMessage
  rw [hprint _ _ (hnat orderId horder), hprint _ _ (hnat qty hqty),
    hprint _ _ (hdiv 10000 10000 rfl).1, hprint _ _ h₃, hprint _ _ h₂, hprint _ _ h₁,
    hprint _ _ (hdiv 10 10 rfl).2]
  simp only [encode, orderFields, terminated, field, priceText, List.map_cons, List.map_nil,
    List.flatMap_cons, List.flatMap_nil, List.append_assoc, List.cons_append, List.nil_append,
    List.append_nil]
  rfl

/-- **The parser undoes the encoder**: of every new order of the layout, and
of every message of the benchmark for non-negative arguments. -/
theorem parse_encode :
    (∀ seqNum clOrdId symbol side qty price, SOH ∉ clOrdId → SOH ∉ symbol →
      side = '1'.toUInt8 ∨ side = '2'.toUInt8 → qty < 2 ^ 32 → price < 2 ^ 63 →
      Decodes (encode seqNum clOrdId symbol side qty price) clOrdId symbol side qty price) ∧
    (∀ (orderId qty price : Int32) (side : UInt8), 0 ≤ orderId → 0 ≤ qty → 0 ≤ price →
      side = '1'.toUInt8 ∨ side = '2'.toUInt8 →
      Decodes (makeFixMessage orderId qty price side)
        (bytes "ORDER" ++ decimal orderId.toInt.toNat) (bytes "AAPL") side qty.toInt.toNat
        price.toInt.toNat) := by
  refine ⟨?_, ?_⟩
  · intro seqNum clOrdId symbol side qty price hid hsymbol hside hqty hprice
    exact decodes_encode seqNum hid hsymbol hside hqty hprice
  · intro orderId qty price side horder hqty hprice hside
    rw [makeFixMessage_eq horder hqty hprice]
    have hid : SOH ∉ bytes "ORDER" ++ decimal orderId.toInt.toNat := by
      rw [List.mem_append, not_or]
      exact ⟨by decide, soh_not_mem_decimal _⟩
    have hlt := Int32.toInt_lt qty
    have hlt' := Int32.toInt_lt price
    exact decodes_encode _ hid (by decide) hside (by omega) (by omega)

/-- The largest quantity and price, and an order of the benchmark. -/
theorem parse_encode_orders :
    Decodes (encode 7 (bytes "ORDER7") (bytes "AAPL") '1'.toUInt8 (2 ^ 32 - 1) (2 ^ 63 - 1))
        (bytes "ORDER7") (bytes "AAPL") '1'.toUInt8 (2 ^ 32 - 1) (2 ^ 63 - 1) ∧
      Decodes (makeFixMessage 7 100 1505000 '2'.toUInt8) (bytes "ORDER" ++ decimal 7)
        (bytes "AAPL") '2'.toUInt8 100 1505000 :=
  ⟨parse_encode.1 _ _ _ _ _ _ (by decide) (by decide) (.inl rfl) (by decide) (by decide),
    parse_encode.2 7 100 1505000 _ (by decide) (by decide) (by decide) (.inr rfl)⟩

end HftEngine.Fix
