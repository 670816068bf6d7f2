/-
UtxoLedger.Text.Hex — byte strings in lowercase hexadecimal.

The form is strict: two digits for each byte, `0` to `9` and `a` to `f` only.
Uppercase letters and an odd number of digits are refused, so every byte string
has one spelling. `decode?` walks the text with the bytes read so far in
reverse, which keeps it a loop for texts of any length.
-/
import UtxoLedger.Bytes.Basic

namespace UtxoLedger.Hex

/-- The digit of a number below sixteen. -/
def digit (d : Nat) : Char := Char.ofNat (if d < 10 then 48 + d else 87 + d)

/-- The number of a lowercase digit. -/
def digitValue? (c : Char) : Option Nat :=
  let n := c.toNat
  if 48 ≤ n ∧ n ≤ 57 then some (n - 48)
  else if 97 ≤ n ∧ n ≤ 102 then some (n - 87)
  else none

/-- The digits of a byte string. -/
def digits (bs : Bytes) : List Char :=
  bs.flatMap fun b => [digit (b.toNat / 16), digit (b.toNat % 16)]

def encode (bs : Bytes) : String := String.ofList (digits bs)

/-- Reads the remaining digits behind the bytes `done`, which are held in reverse. -/
def decodeFrom (done : Bytes) : List Char → Option Bytes
  | [] => some done.reverse
  | [_] => none
  | hi :: lo :: rest =>
    match digitValue? hi, digitValue? lo with
    | some h, some l => decodeFrom (UInt8.ofNat (16 * h + l) :: done) rest
    | _, _ => none

/-- The bytes that a strict hexadecimal text spells. -/
def decode? (text : String) : Option Bytes := decodeFrom [] text.toList

/-- Whether a text is strict hexadecimal. -/
def isValid (text : String) : Bool := (decode? text).isSome

end UtxoLedger.Hex
