/-
UtxoLedger.Json.Basic — JSON values, read from text and written as text.

A value is read strictly by the JSON grammar: no trailing commas, no leading
zeros, nothing behind the value but white space. Numbers and strings keep their
spelling, so that a value which nobody looks at need only be well formed; what
is looked at is read by `natOf?` and `textOf?`.

`parse?` folds one step of a pushdown automaton over the tokens: a frame for
each open array or object, and what may come next. It needs no recursion of its
own, so the depth of a value is not limited. `write` is compact, without white
space.
-/
import UtxoLedger.Json.Token

namespace UtxoLedger

/-- A JSON value. -/
inductive Json where
  | null
  | bool (value : Bool)
  | number (spelling : List Char)
  | string (pieces : List Json.Piece)
  | array (items : List Json)
  | object (fields : List (List Json.Piece × Json))

namespace Json

/-! ## Numbers -/

def isDigit (c : Char) : Bool := decide (48 ≤ c.toNat) && decide (c.toNat ≤ 57)

/-- What stands behind the digits in front, of which there must be one. -/
def afterDigits? : List Char → Option (List Char)
  | [] => none
  | c :: rest => if isDigit c then some (rest.dropWhile isDigit) else none

/-- What stands behind an integer part, which has no leading zero. -/
def afterInteger? : List Char → Option (List Char)
  | '0' :: rest => some rest
  | cs => afterDigits? cs

/-- What stands behind a fraction, if there is one. -/
def afterFraction? : List Char → Option (List Char)
  | '.' :: rest => afterDigits? rest
  | cs => some cs

/-- What stands behind an exponent, if there is one. -/
def afterExponent? : List Char → Option (List Char)
  | c :: rest =>
    if c = 'e' ∨ c = 'E' then
      match rest with
      | sign :: digits => if sign = '+' ∨ sign = '-' then afterDigits? digits else afterDigits? rest
      | [] => none
    else some (c :: rest)
  | [] => some []

/-- Whether a word is a number. -/
def isNumber (word : List Char) : Bool :=
  let unsigned := match word with
    | '-' :: rest => rest
    | cs => cs
  ((afterInteger? unsigned >>= afterFraction?) >>= afterExponent?) == some []

/-- The value of a row of digits. -/
def natOfDigits (digits : List Char) : Nat := digits.foldl (fun n c => n * 10 + (c.toNat - 48)) 0

/-- The number as a natural, if it is written as one: without a sign, a fraction
or an exponent. -/
def natOf? : Json → Option Nat
  | .number spelling => if spelling.all isDigit then some (natOfDigits spelling) else none
  | _ => none

/-! ## Reading -/

/-- An array or object that is still open, with what it holds so far in reverse. -/
inductive Frame where
  | array (items : List Json)
  | object (fields : List (List Piece × Json))
  /-- An object with a name that waits for its value. -/
  | field (fields : List (List Piece × Json)) (name : List Piece)

/-- What may come next. -/
inductive Expect where
  | value
  /-- A value, or the end of the array just opened. -/
  | firstItem
  /-- A name, or the end of the object just opened. -/
  | firstName
  | name
  | colon
  /-- A comma, or the end of the innermost frame. -/
  | more
  /-- Nothing: the text's value is complete. -/
  | nothing (value : Json)

structure Parser where
  frames : List Frame
  expect : Expect

namespace Parser

/-- A value is complete: it goes into the innermost frame. -/
def close (value : Json) : List Frame → Option Parser
  | [] => some ⟨[], .nothing value⟩
  | .array items :: outer => some ⟨.array (value :: items) :: outer, .more⟩
  | .field fields name :: outer => some ⟨.object ((name, value) :: fields) :: outer, .more⟩
  | .object _ :: _ => none

/-- The value of a bare word. -/
def wordValue? (word : List Char) : Option Json :=
  if word = "null".toList then some .null
  else if word = "true".toList then some (.bool true)
  else if word = "false".toList then some (.bool false)
  else if isNumber word then some (.number word)
  else none

/-- A token where a value is due. -/
def startValue (frames : List Frame) : Token → Option Parser
  | .mark .openArray => some ⟨.array [] :: frames, .firstItem⟩
  | .mark .openObject => some ⟨.object [] :: frames, .firstName⟩
  | .mark _ => none
  | .word word => (wordValue? word).bind fun value => close value frames
  | .string pieces => close (.string pieces) frames

/-- A token where a name is due. -/
def startField (frames : List Frame) : Token → Option Parser
  | .string name =>
    match frames with
    | .object fields :: outer => some ⟨.field fields name :: outer, .colon⟩
    | _ => none
  | _ => none

/-- A token behind a complete item or field. -/
def goOn (frames : List Frame) : Token → Option Parser
  | .mark .comma =>
    match frames with
    | .array _ :: _ => some ⟨frames, .value⟩
    | .object _ :: _ => some ⟨frames, .name⟩
    | _ => none
  | .mark .closeArray =>
    match frames with
    | .array items :: outer => close (.array items.reverse) outer
    | _ => none
  | .mark .closeObject =>
    match frames with
    | .object fields :: outer => close (.object fields.reverse) outer
    | _ => none
  | _ => none

def step (p : Parser) (token : Token) : Option Parser :=
  match p.expect with
  | .value => startValue p.frames token
  | .firstItem =>
    if token = .mark .closeArray then goOn p.frames token else startValue p.frames token
  | .firstName =>
    if token = .mark .closeObject then goOn p.frames token else startField p.frames token
  | .name => startField p.frames token
  | .colon => if token = .mark .colon then some ⟨p.frames, .value⟩ else none
  | .more => goOn p.frames token
  | .nothing _ => none

end Parser

/-- The value that a row of tokens spells. -/
def ofTokens? (tokens : List Token) : Option Json :=
  match tokens.foldlM Parser.step ⟨[], .value⟩ with
  | some ⟨_, .nothing value⟩ => some value
  | _ => none

/-- Reads a text that holds one value. -/
def parse? (text : String) : Option Json := (scan? text.toList).bind ofTokens?

/-! ## Writing -/

mutual

/-- The tokens of a value. -/
def tokens : Json → List Token
  | .null => [.word "null".toList]
  | .bool true => [.word "true".toList]
  | .bool false => [.word "false".toList]
  | .number spelling => [.word spelling]
  | .string pieces => [.string pieces]
  | .array items => .mark .openArray :: (itemTokens items ++ [.mark .closeArray])
  | .object fields => .mark .openObject :: (fieldTokens fields ++ [.mark .closeObject])

def itemTokens : List Json → List Token
  | [] => []
  | [item] => tokens item
  | item :: rest => tokens item ++ .mark .comma :: itemTokens rest

def fieldTokens : List (List Piece × Json) → List Token
  | [] => []
  | [field] => fieldToken field
  | field :: rest => fieldToken field ++ .mark .comma :: fieldTokens rest

def fieldToken : List Piece × Json → List Token
  | (name, value) => .string name :: .mark .colon :: tokens value

end

def write (value : Json) : String := String.ofList (value.tokens.flatMap Token.write)

end Json

end UtxoLedger
