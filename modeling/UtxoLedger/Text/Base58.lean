/-
UtxoLedger.Text.Base58 — byte strings in base 58.

The bytes are read as one big-endian number and written with 58 digits that
look unlike each other. Leading zero bytes do not count in a number, so each is
written as one leading `1`, the digit zero. There is no checksum and no
separator in this form.
-/
import UtxoLedger.Bytes.Basic

namespace UtxoLedger.Base58

/-- The digits, in the order of their values. -/
def alphabet : List Char := "123456789ABCDEFGHJKLMNPQRSTUVWXYZabcdefghijkmnopqrstuvwxyz".toList

def digit (value : Nat) : Char := alphabet.getD value '1'

def digitValue? (c : Char) : Option Nat := alphabet.idxOf? c

/-- The digits of `n` in front of `after`; none for zero. -/
def digitsOnto (n : Nat) (after : List Char) : List Char :=
  if n = 0 then after else digitsOnto (n / 58) (digit (n % 58) :: after)
termination_by n
decreasing_by omega

/-- The number that a row of digits writes, with `n` the value so far. -/
def valueFrom (n : Nat) : List Char → Option Nat
  | [] => some n
  | c :: rest =>
    match digitValue? c with
    | some v => valueFrom (n * 58 + v) rest
    | none => none

def encodeChars (bs : Bytes) : List Char :=
  (bs.takeWhile (· == 0)).map (fun _ => '1') ++ digitsOnto (BigEndian.decode bs) []

def decodeChars? (cs : List Char) : Option Bytes :=
  match valueFrom 0 cs with
  | some n =>
    some ((cs.takeWhile (· == '1')).map (fun _ => 0) ++ BigEndian.encode (BigEndian.byteCount n) n)
  | none => none

def encode (bs : Bytes) : String := String.ofList (encodeChars bs)

def decode? (text : String) : Option Bytes := decodeChars? text.toList

end UtxoLedger.Base58
