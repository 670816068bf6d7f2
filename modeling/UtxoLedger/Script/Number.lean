/-
UtxoLedger.Script.Number — integers as script data.

A number is written in big-endian two's complement with as few bytes as its
value and its sign bit need; zero is the empty byte string. There is no bound
on the size, so arithmetic never wraps. Every byte string reads as a number,
also one with redundant sign bytes in front; only `encode` writes the shortest
form.
-/
import UtxoLedger.Bytes.Basic

namespace UtxoLedger.Number

/-- Two to the power of `bits`. -/
def pow2 (bits : Nat) : Nat := 1 <<< bits

/-- The number that a byte string writes. -/
def decode : Bytes → Int
  | [] => 0
  | b :: bs =>
    let n := BigEndian.decode (b :: bs)
    if 128 ≤ b.toNat then (n : Int) - (pow2 (8 * (bs.length + 1)) : Int) else (n : Int)

/-- How many bytes the shortest form of a non-zero number takes: the bits of the
value, or of its complement for a negative one, and the sign bit. -/
def width (z : Int) : Nat :=
  let magnitude := if 0 ≤ z then z.toNat else (-z - 1).toNat
  let bits := if magnitude = 0 then 0 else magnitude.log2 + 1
  bits / 8 + 1

/-- The shortest form of a number. -/
def encode (z : Int) : Bytes :=
  if z = 0 then []
  else
    let w := width z
    BigEndian.encode w (if 0 ≤ z then z.toNat else (z + (pow2 (8 * w) : Int)).toNat)

/-- The number as a natural below 2^64, if it is one. -/
def toUInt64? (z : Int) : Option UInt64 :=
  if 0 ≤ z ∧ z < 18446744073709551616 then some (UInt64.ofNat z.toNat) else none

/-- The number as a natural below 2^64: a count, a length or a position. -/
def toCount? (z : Int) : Option Nat := UInt64.toNat <$> toUInt64? z

/-- The largest amount by which a number can be shifted. -/
def maxShift : Nat := 65536

/-- Whether a byte string counts as true: it has a byte that is not zero. -/
def isTrue (bs : Bytes) : Bool := bs.any (· != 0)

/-- The number of a truth value. -/
def ofBool (b : Bool) : Int := if b then 1 else 0

end UtxoLedger.Number
