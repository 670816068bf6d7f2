/-
UtxoLedger.Script.Text — scripts as text for people.

A script is written as one token for each chunk, separated by single spaces: the
name of an opcode, `0x` and the digits of pushed data, or `OP_UNKNOWN_0x` and
the digits of a byte that is no opcode. Reading takes any white space between
tokens and one more spelling, `0x` without digits for the empty byte string.
Each token is read by itself, and the first bad one is reported.
-/
import UtxoLedger.Script.Basic
import UtxoLedger.Text.Blank
import UtxoLedger.Text.Label

namespace UtxoLedger

namespace Chunk

/-- The chunk of the digits of exactly one undefined byte. -/
def ofUnknownDigits? (digits : List Char) : Option Chunk :=
  match Hex.decodeFrom [] digits with
  | some [byte] => if h : Opcode.ofByte? byte = none then some (.unknown byte h) else none
  | _ => none

/-- Reads one token. -/
def ofToken (token : List Char) : Except Error Chunk :=
  match Label.behind? "0x".toList token with
  | some digits =>
    match Hex.decodeFrom [] digits with
    | some data => ofData data
    | none => .error .invalidHex
  | none =>
    let invalid : Error := .invalidOpcode (String.ofList token)
    match Label.behind? unknownLabel.toList token with
    | some digits =>
      match ofUnknownDigits? digits with
      | some chunk => .ok chunk
      | none => .error invalid
    | none =>
      match Opcode.ofName? (String.ofList token) with
      | some code => ofOpcode code
      | none => .error invalid

end Chunk

namespace Script

def text (script : Script) : String := String.intercalate " " (script.chunks.map Chunk.text)

def ofText (text : String) : Except Error Script :=
  Script.mk <$> (Blank.words text.toList).mapM Chunk.ofToken

end Script

end UtxoLedger
