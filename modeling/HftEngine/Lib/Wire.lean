import Mathlib.Data.Nat.Bitwise

/-!
# Numbers in a byte string

A program that looks into a packet reads words in the byte order of its
machine, and turns them around where the packet has the other one.  `load8`
and `load16` are such reads, checked against the end of the packet; `byteAt`
and `networkWord` say what the bytes themselves stand for, the most
significant first.  A word read and turned around is the number on the wire
(`ntohs_eq_iff`), on either machine.
-/

namespace HftEngine.Lib

/-- The byte order of a machine. -/
inductive Endian where
  | little
  | big
deriving Repr, DecidableEq

namespace Endian

/-- Two bytes of memory as a word. -/
def word : Endian → UInt8 → UInt8 → UInt16
  | .little, b₀, b₁ => UInt16.ofNat (b₀.toNat + 256 * b₁.toNat)
  | .big, b₀, b₁ => UInt16.ofNat (256 * b₀.toNat + b₁.toNat)

/-- From network byte order to that of the machine. -/
def ntohs : Endian → UInt16 → UInt16
  | .little, x => UInt16.ofNat (x.toNat / 256 + 256 * (x.toNat % 256))
  | .big, x => x

theorem toNat_word_big (b₀ b₁ : UInt8) :
    (Endian.big.word b₀ b₁).toNat = 256 * b₀.toNat + b₁.toNat := by
  have h₀ := b₀.toNat_lt
  have h₁ := b₁.toNat_lt
  exact UInt16.toNat_ofNat_of_lt' (by show _ < 65536; omega)

theorem toNat_word_little (b₀ b₁ : UInt8) :
    (Endian.little.word b₀ b₁).toNat = b₀.toNat + 256 * b₁.toNat := by
  have h₀ := b₀.toNat_lt
  have h₁ := b₁.toNat_lt
  exact UInt16.toNat_ofNat_of_lt' (by show _ < 65536; omega)

/-- A word turned around is the number on the wire. -/
theorem toNat_ntohs_word (e : Endian) (b₀ b₁ : UInt8) :
    (e.ntohs (e.word b₀ b₁)).toNat = 256 * b₀.toNat + b₁.toNat := by
  cases e with
  | big => exact toNat_word_big b₀ b₁
  | little =>
    have h₀ := b₀.toNat_lt
    have h₁ := b₁.toNat_lt
    have hturn : (b₀.toNat + 256 * b₁.toNat) / 256 + 256 * ((b₀.toNat + 256 * b₁.toNat) % 256) =
        256 * b₀.toNat + b₁.toNat := by omega
    rw [ntohs, toNat_word_little, hturn]
    exact UInt16.toNat_ofNat_of_lt' (by show _ < 65536; omega)

end Endian

/-! ## Reads -/

def load8 (packet : List UInt8) (i : Nat) : Option UInt8 := packet[i]?

def load16 (e : Endian) (packet : List UInt8) (i : Nat) : Option UInt16 := do
  let b₀ ← packet[i]?
  let b₁ ← packet[i + 1]?
  return e.word b₀ b₁

/-- The byte at a place, 0 behind the end. -/
def byteAt (packet : List UInt8) (i : Nat) : UInt8 := packet[i]?.getD 0

/-- The number in two bytes, the most significant first. -/
def networkWord (packet : List UInt8) (i : Nat) : Nat :=
  256 * (byteAt packet i).toNat + (byteAt packet (i + 1)).toNat

section Reads

variable {packet : List UInt8} {i : Nat}

theorem load8_eq (h : i < packet.length) : load8 packet i = some (byteAt packet i) := by
  rw [load8, byteAt, List.getElem?_eq_getElem h]
  rfl

theorem load16_eq (e : Endian) (h : i + 2 ≤ packet.length) :
    load16 e packet i = some (e.word (byteAt packet i) (byteAt packet (i + 1))) := by
  rw [load16, byteAt, byteAt, List.getElem?_eq_getElem (by omega),
    List.getElem?_eq_getElem (by omega)]
  rfl

/-- A word read and turned around, compared with a constant. -/
theorem ntohs_eq_iff (e : Endian) (packet : List UInt8) (i : Nat) (x : UInt16) :
    e.ntohs (e.word (byteAt packet i) (byteAt packet (i + 1))) = x ↔
      networkWord packet i = x.toNat := by
  rw [← UInt16.toNat_inj, e.toNat_ntohs_word]
  rfl

end Reads

/-- The lower half of a byte. -/
theorem toNat_lowNibble (b : UInt8) : (b &&& 0x0f).toNat = b.toNat % 16 := by
  rw [UInt8.toNat_and]
  exact Nat.and_two_pow_sub_one_eq_mod b.toNat 4

end HftEngine.Lib
