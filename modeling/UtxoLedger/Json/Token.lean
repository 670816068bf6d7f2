/-
UtxoLedger.Json.Token — JSON text as a row of tokens.

A token is a mark, a bare word (a number or one of `true`, `false`, `null`) or a
string. `Token.scan` runs a small automaton over the characters and `Token.write`
gives the characters of a token.

A string is kept as it was spelled: characters, and 16-bit units from `\u`
escapes. `textOf?` reads it as text. Units that are one half of a surrogate pair
have no text by themselves; where a string's text does not matter, such a string
is still a string.
-/
import UtxoLedger.Text.Hex

namespace UtxoLedger.Json

/-! ## Strings -/

/-- A part of a string: a character, or a 16-bit unit that was escaped. -/
inductive Piece where
  | char (c : Char)
  | unit (value : Nat)
  deriving DecidableEq

def isHighHalf (unit : Nat) : Bool := decide (0xd800 ≤ unit) && decide (unit < 0xdc00)

def isLowHalf (unit : Nat) : Bool := decide (0xdc00 ≤ unit) && decide (unit < 0xe000)

/-- The text that the parts of a string spell; two halves of a pair that stand
side by side are one character, and a half that stands alone is none. -/
def textOf? : List Piece → Option (List Char)
  | [] => some []
  | .char c :: rest => (textOf? rest).map (c :: ·)
  | .unit high :: .unit low :: rest =>
    if isHighHalf high then
      if isLowHalf low then
        (textOf? rest).map (Char.ofNat (0x10000 + (high - 0xd800) * 0x400 + (low - 0xdc00)) :: ·)
      else none
    else if isLowHalf high then none
    else (textOf? (.unit low :: rest)).map (Char.ofNat high :: ·)
  | .unit value :: rest =>
    if isHighHalf value || isLowHalf value then none
    else (textOf? rest).map (Char.ofNat value :: ·)

/-- The letter that stands for a character behind a backslash. -/
def escapeLetter? (c : Char) : Option Char :=
  if c = '"' then some '"'
  else if c = '\\' then some '\\'
  else if c = '\x08' then some 'b'
  else if c = '\x0c' then some 'f'
  else if c = '\n' then some 'n'
  else if c = '\r' then some 'r'
  else if c = '\t' then some 't'
  else none

/-- The character that a letter behind a backslash stands for. The slash may be
escaped and need not be. -/
def unescape? (letter : Char) : Option Char :=
  if letter = '"' then some '"'
  else if letter = '\\' then some '\\'
  else if letter = '/' then some '/'
  else if letter = 'b' then some '\x08'
  else if letter = 'f' then some '\x0c'
  else if letter = 'n' then some '\n'
  else if letter = 'r' then some '\r'
  else if letter = 't' then some '\t'
  else none

/-- The four digits of an escaped unit. -/
def unitDigits (value : Nat) : List Char :=
  [Hex.digit (value / 4096 % 16), Hex.digit (value / 256 % 16), Hex.digit (value / 16 % 16),
   Hex.digit (value % 16)]

def Piece.write : Piece → List Char
  | .unit value => '\\' :: 'u' :: unitDigits value
  | .char c =>
    match escapeLetter? c with
    | some letter => ['\\', letter]
    | none => if c.toNat < 0x20 then '\\' :: 'u' :: unitDigits c.toNat else [c]

/-! ## Tokens -/

inductive Mark where
  | openArray
  | closeArray
  | openObject
  | closeObject
  | comma
  | colon
  deriving DecidableEq

def Mark.toChar : Mark → Char
  | .openArray => '['
  | .closeArray => ']'
  | .openObject => '\x7b'
  | .closeObject => '\x7d'
  | .comma => ','
  | .colon => ':'

def Mark.ofChar? (c : Char) : Option Mark :=
  [Mark.openArray, .closeArray, .openObject, .closeObject, .comma, .colon].find? (·.toChar == c)

inductive Token where
  | mark (m : Mark)
  | word (chars : List Char)
  | string (pieces : List Piece)
  deriving DecidableEq

def Token.write : Token → List Char
  | .mark m => [m.toChar]
  | .word chars => chars
  | .string pieces => '"' :: (pieces.flatMap Piece.write ++ ['"'])

/-! ## Scanning -/

/-- White space between tokens. -/
def isSpace (c : Char) : Bool := c == ' ' || c == '\n' || c == '\t' || c == '\r'

/-- The value of a hexadecimal digit in either case. -/
def unitDigit? (c : Char) : Option Nat :=
  if 65 ≤ c.toNat ∧ c.toNat ≤ 70 then some (c.toNat - 55) else Hex.digitValue? c

/-- Where the scanner stands. What it has read of a word or string is held in
reverse. -/
inductive Place where
  | between
  | word (read : List Char)
  | string (read : List Piece)
  /-- Behind a backslash. -/
  | escape (read : List Piece)
  /-- Behind `digits` digits of an escaped unit. -/
  | unit (read : List Piece) (digits value : Nat)

/-- The scanner: the tokens so far, in reverse, and where it stands. -/
structure Scanner where
  tokens : List Token
  place : Place

namespace Scanner

/-- A character between tokens. -/
def startToken (tokens : List Token) (c : Char) : Scanner :=
  if isSpace c then ⟨tokens, .between⟩
  else if c = '"' then ⟨tokens, .string []⟩
  else
    match Mark.ofChar? c with
    | some m => ⟨.mark m :: tokens, .between⟩
    | none => ⟨tokens, .word [c]⟩

/-- Whether a character ends a word. -/
def endsWord (c : Char) : Bool := isSpace c || c == '"' || (Mark.ofChar? c).isSome

def step (s : Scanner) (c : Char) : Option Scanner :=
  match s.place with
  | .between => some (startToken s.tokens c)
  | .word read =>
    if endsWord c then some (startToken (.word read.reverse :: s.tokens) c)
    else some ⟨s.tokens, .word (c :: read)⟩
  | .string read =>
    if c = '"' then some ⟨.string read.reverse :: s.tokens, .between⟩
    else if c = '\\' then some ⟨s.tokens, .escape read⟩
    else if c.toNat < 0x20 then none
    else some ⟨s.tokens, .string (.char c :: read)⟩
  | .escape read =>
    if c = 'u' then some ⟨s.tokens, .unit read 0 0⟩
    else (unescape? c).map fun plain => ⟨s.tokens, .string (.char plain :: read)⟩
  | .unit read digits value =>
    (unitDigit? c).map fun d =>
      let value := 16 * value + d
      if digits = 3 then ⟨s.tokens, .string (.unit value :: read)⟩
      else ⟨s.tokens, .unit read (digits + 1) value⟩

/-- The tokens, unless the text ended inside a string. -/
def finish (s : Scanner) : Option (List Token) :=
  match s.place with
  | .between => some s.tokens.reverse
  | .word read => some (.word read.reverse :: s.tokens).reverse
  | _ => none

end Scanner

/-- The tokens of a text. -/
def scan? (cs : List Char) : Option (List Token) :=
  match cs.foldlM Scanner.step ⟨[], .between⟩ with
  | some s => s.finish
  | none => none

end UtxoLedger.Json
