import HftEngine.Lib.Cursor

/-!
# FIX messages (`fix_message.hpp`, `fix_message.cpp`)

`parse` and `verify_checksum` over a memory that is a list of bytes.  The
pointer is `none` for `nullptr`; every read is checked against the memory, so
that an answer `some …` means that no read went past its end.

`parse` walks the buffer with one cursor through three nested loops
(`scanTag`, `scanValue` and the loop over fields); a field is handed to
`applyField`, the `switch` over its tag.  A `string_view` is the list of the
bytes it shows.  `char` is signed, and signed arithmetic wraps.
-/

namespace HftEngine.Fix

open Lib

/-- The field separator. -/
def SOH : UInt8 := 0x01

/-- `enum class MsgType : uint8_t`: a byte, four of which have a name. -/
structure MsgType where
  code : UInt8
deriving Repr, DecidableEq

namespace MsgType

def newOrderSingle : MsgType := ⟨'D'.toUInt8⟩

def orderCancelReq : MsgType := ⟨'F'.toUInt8⟩

def executionReport : MsgType := ⟨'8'.toUInt8⟩

def unknown : MsgType := ⟨0⟩

end MsgType

structure FixMessage where
  msgType : MsgType := .unknown
  clOrdId : List UInt8 := []
  symbol : List UInt8 := []
  side : UInt8 := 0
  orderQty : UInt32 := 0
  priceTicks : Int64 := 0
  ordType : UInt8 := 0
  checksum : UInt8 := 0
  valid : Bool := false
deriving Repr, DecidableEq

def isDigit (c : UInt8) : Bool := '0'.toUInt8 ≤ c ∧ c ≤ '9'.toUInt8

def asciiToDigit (c : UInt8) : UInt8 := if isDigit c then c - '0'.toUInt8 else 255

/-! ## The rules of the tags -/

/-- A `char` as an `unsigned`: sign extension first. -/
def charToUInt32 (c : UInt8) : UInt32 := c.toInt8.toInt32.toUInt32

/-- Tag 38: every byte of the value is taken for a digit. -/
def readQty (value : List UInt8) : UInt32 :=
  value.foldl (fun qty c => qty * 10 + (charToUInt32 c - charToUInt32 '0'.toUInt8)) 0

/-- The variables of the loop over the value of tag 44. -/
structure PriceScan where
  priceInt : Int64 := 0
  decimalPlaces : Nat := 0
  inDecimal : Bool := false
deriving Repr, DecidableEq

def PriceScan.step (s : PriceScan) (c : UInt8) : PriceScan :=
  if c = '.'.toUInt8 then { s with inDecimal := true }
  else if isDigit c then
    { s with
      priceInt := s.priceInt * 10 + Int64.ofNat (c - '0'.toUInt8).toNat
      decimalPlaces := if s.inDecimal then s.decimalPlaces + 1 else s.decimalPlaces }
  else s

/-- The `price_int *= 10` of the loop that fills up to four decimal places,
`k` times. -/
def padDecimals : Nat → Int64 → Int64
  | 0, priceInt => priceInt
  | k + 1, priceInt => padDecimals k (priceInt * 10)

/-- Tag 44. -/
def readPrice (value : List UInt8) : Int64 :=
  let s := value.foldl PriceScan.step {}
  padDecimals (4 - s.decimalPlaces) s.priceInt

/-- The `switch` over the tag. -/
def applyField (tag : UInt32) (value : List UInt8) (msg : FixMessage) : FixMessage :=
  match tag.toNat with
  | 35 =>
    match value with
    | [c] => { msg with msgType := ⟨c⟩ }
    | _ => msg
  | 11 => { msg with clOrdId := value }
  | 55 => { msg with symbol := value }
  | 54 =>
    match value with
    | c :: _ => { msg with side := c - '0'.toUInt8 }
    | [] => msg
  | 38 => { msg with orderQty := readQty value }
  | 44 => { msg with priceTicks := readPrice value }
  | 40 =>
    match value with
    | c :: _ => { msg with ordType := c - '0'.toUInt8 }
    | [] => msg
  | 10 =>
    match value with
    | c₀ :: c₁ :: _ => { msg with checksum := asciiToDigit c₀ * 10 + asciiToDigit c₁ }
    | _ => msg
  | _ => msg

/-- The last line of `parse`. -/
def FixMessage.finish (msg : FixMessage) : FixMessage :=
  { msg with valid := msg.msgType ≠ .unknown }

/-! ## `parse` -/

/-- One more digit of a tag, modulo `2^32`. -/
def tagDigit (tag : UInt32) (c : UInt8) : UInt32 := tag * 10 + (asciiToDigit c).toUInt32

/-- The loop over the digits of a tag. -/
def scanTag (mem : List UInt8) (len pos : Nat) : Option (Scanned pos UInt32) :=
  scanWhile isDigit tagDigit mem len pos 0

/-- The loop to the end of a value. -/
def scanValue (mem : List UInt8) (len pos : Nat) : Option (Scanned pos Unit) :=
  scanWhile (fun c => c ≠ SOH) (fun _ _ => ()) mem len pos ()

/-- The loop over the fields. -/
def parseFields (mem : List UInt8) (len pos : Nat) (msg : FixMessage) : Option FixMessage :=
  if pos < len then do
    let ⟨tagEnd, tag, _⟩ ← scanTag mem len pos
    if tagEnd ≥ len then return msg
    let c ← mem[tagEnd]?
    if c ≠ '='.toUInt8 then return msg
    let ⟨valEnd, _, _⟩ ← scanValue mem len (tagEnd + 1)
    let value ← slice mem (tagEnd + 1) valEnd
    let msg := applyField tag value msg
    if valEnd ≥ len then return msg.finish
    parseFields mem len (valEnd + 1) msg
  else return msg.finish
termination_by len - pos

/-- The same loop with another `switch`, which may fail. -/
def parseFieldsWith (apply : UInt32 → List UInt8 → FixMessage → Option FixMessage)
    (mem : List UInt8) (len pos : Nat) (msg : FixMessage) : Option FixMessage :=
  if pos < len then do
    let ⟨tagEnd, tag, _⟩ ← scanTag mem len pos
    if tagEnd ≥ len then return msg
    let c ← mem[tagEnd]?
    if c ≠ '='.toUInt8 then return msg
    let ⟨valEnd, _, _⟩ ← scanValue mem len (tagEnd + 1)
    let value ← slice mem (tagEnd + 1) valEnd
    let msg ← apply tag value msg
    if valEnd ≥ len then return msg.finish
    parseFieldsWith apply mem len (valEnd + 1) msg
  else return msg.finish
termination_by len - pos

def parse (buf : Option (List UInt8)) (len : Nat) : Option FixMessage :=
  match buf with
  | none => some {}
  | some mem => if len = 0 then some {} else parseFields mem len 0 {}

/-! ## `verify_checksum` -/

/-- The loop back to the last separator; it stops at 0 without a look. -/
def checksumPos (mem : List UInt8) : Nat → Option Nat
  | 0 => some 0
  | pos + 1 => do
    let c ← mem[pos + 1]?
    if c ≠ SOH then checksumPos mem pos else return pos + 1

/-- The variable of the loop that sums up bytes, after `i` iterations. -/
def sumBytes (mem : List UInt8) : Nat → Option UInt8
  | 0 => some 0
  | i + 1 => do
    let sum ← sumBytes mem i
    let c ← mem[i]?
    return sum + c

/-- The value of the three bytes of a stored checksum, in `int`. -/
def storedChecksum (c₀ c₁ c₂ : UInt8) : UInt8 :=
  UInt8.ofNat (((asciiToDigit c₀).toNat * 100 + (asciiToDigit c₁).toNat * 10 +
    (asciiToDigit c₂).toNat) % 256)

def verifyChecksum (buf : Option (List UInt8)) (len : Nat) : Option Bool :=
  match buf with
  | none => some false
  | some mem =>
    if len < 10 then some false
    else do
      let checksumPos ← checksumPos mem (len - 1)
      let sum ← sumBytes mem checksumPos
      if checksumPos < 4 then return false
      let c₀ ← mem[checksumPos - 3]?
      let c₁ ← mem[checksumPos - 2]?
      let c₂ ← mem[checksumPos - 1]?
      return sum == storedChecksum c₀ c₁ c₂

end HftEngine.Fix
