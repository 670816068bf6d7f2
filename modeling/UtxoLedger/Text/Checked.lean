/-
UtxoLedger.Text.Checked — labelled byte strings that carry a checksum.

The text is a label, eight hexadecimal digits and the payload in base 58. The
digits are the first four bytes of the payload's hash, so a misread payload is
noticed before anyone asks whether it has the right length. The label tells the
kinds of value apart.

The checksum takes up eight bytes of the text's UTF-8 form: a text in which the
eighth byte is not the end of a character has no such part at all
(`splitUtf8?`), while eight bytes of other characters are bad hexadecimal.
-/
import UtxoLedger.Hash.Digest
import UtxoLedger.Text.Base58
import UtxoLedger.Text.Label

namespace UtxoLedger.Checked

/-- The first bytes of the payload's hash. -/
def checksum (payload : Bytes) : Bytes := (Digest.of payload).toList.take 4

def encode (label : String) (payload : Bytes) : String :=
  label ++ Hex.encode (checksum payload) ++ Base58.encode payload

/-- Splits behind the character that ends at byte `size` of the UTF-8 form. -/
def splitUtf8? : (size : Nat) → List Char → Option (List Char × List Char)
  | 0, cs => some ([], cs)
  | _ + 1, [] => none
  | size + 1, c :: cs =>
    if c.utf8Size ≤ size + 1 then
      match splitUtf8? (size + 1 - c.utf8Size) cs with
      | some (front, rest) => some (c :: front, rest)
      | none => none
    else none

/-- Reads a text with the given label and a payload of `n` bytes. Of several
faults the first in reading order is reported, and the payload's length last. -/
def decode (n : Nat) (label text : String) : Except Error (Fixed n) :=
  match Label.behind? label.toList text.toList with
  | none => .error .invalidFormat
  | some rest =>
    match splitUtf8? 8 rest with
    | none => .error .invalidFormat
    | some (digits, spelling) =>
      match Hex.decodeFrom [] digits, Base58.decodeChars? spelling with
      | none, _ => .error .invalidHex
      | some _, none => .error .invalidBase58
      | some check, some payload =>
        if checksum payload = check then Fixed.ofList n payload else .error .invalidChecksum

end UtxoLedger.Checked
