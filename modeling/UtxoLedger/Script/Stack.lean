/-
UtxoLedger.Script.Stack — what the opcodes do to the stack.

A stack is a list with its top in front. Every operation here is a function of
the stack alone; those that need the transaction are in `UtxoLedger.Script.Machine`.

An operation that lacks operands leaves the stack as it was. One that finds its
operands and refuses them has consumed them, which the stack beside the error
shows (`Popped.fail`). The families of `Opcode` are given as functions first
(`Shuffle.apply`, `Unary.apply`, `Binary.apply`, `Bitwise.apply`), and the
operations take their operands off the stack for them.
-/
import UtxoLedger.Hash.Digest
import UtxoLedger.Script.Error
import UtxoLedger.Script.Number
import UtxoLedger.Script.Opcode

namespace UtxoLedger

/-- The items of a stack, the top first. -/
abbrev Stack := List Bytes

/-- The stack that an operation leaves behind, and what went wrong if it failed. -/
inductive Popped where
  | ok (stack : Stack)
  | fail (error : ScriptError) (stack : Stack)
  deriving DecidableEq

/-! ## Families -/

/-- The rearranged stack, if it is deep enough. -/
def Shuffle.apply : Shuffle → Stack → Option Stack
  | .drop2, _ :: _ :: s => some s
  | .dup2, b :: a :: s => some (b :: a :: b :: a :: s)
  | .dup3, c :: b :: a :: s => some (c :: b :: a :: c :: b :: a :: s)
  | .over2, d :: c :: b :: a :: s => some (b :: a :: d :: c :: b :: a :: s)
  | .rot2, f :: e :: d :: c :: b :: a :: s => some (b :: a :: f :: e :: d :: c :: s)
  | .swap2, d :: c :: b :: a :: s => some (b :: a :: d :: c :: s)
  | .drop, _ :: s => some s
  | .dup, a :: s => some (a :: a :: s)
  | .nip, b :: _ :: s => some (b :: s)
  | .over, b :: a :: s => some (a :: b :: a :: s)
  | .rot, c :: b :: a :: s => some (a :: c :: b :: s)
  | .swap, b :: a :: s => some (a :: b :: s)
  | .tuck, b :: a :: s => some (b :: a :: b :: s)
  | _, _ => none

def Bitwise.apply : Bitwise → UInt8 → UInt8 → UInt8
  | .and, a, b => a &&& b
  | .or, a, b => a ||| b
  | .xor, a, b => a ^^^ b

/-- Halving rounds toward zero. -/
def Unary.apply : Unary → Int → Int
  | .add1, a => a + 1
  | .sub1, a => a - 1
  | .mul2, a => a * 2
  | .div2, a => Int.tdiv a 2
  | .negate, a => -a
  | .abs, a => if a < 0 then -a else a
  | .not, a => Number.ofBool (a == 0)
  | .notZero, a => Number.ofBool (a != 0)

/-- An amount by which a number can be shifted. -/
def shiftAmount (b : Int) : Except ScriptError Nat :=
  if 0 ≤ b ∧ b ≤ Number.maxShift then .ok b.toNat else .error .invalidShift

/-- Division and remainder round toward zero, shifts to the right round down. -/
def Binary.apply : Binary → Int → Int → Except ScriptError Int
  | .add, a, b => .ok (a + b)
  | .sub, a, b => .ok (a - b)
  | .mul, a, b => .ok (a * b)
  | .div, a, b => if b = 0 then .error .divisionByZero else .ok (Int.tdiv a b)
  | .mod, a, b => if b = 0 then .error .divisionByZero else .ok (Int.tmod a b)
  | .shiftLeft, a, b => (shiftAmount b).map fun n => a * (Number.pow2 n : Int)
  | .shiftRight, a, b => (shiftAmount b).map fun n => Int.fdiv a (Number.pow2 n : Int)
  | .boolAnd, a, b => .ok (Number.ofBool (a != 0 && b != 0))
  | .boolOr, a, b => .ok (Number.ofBool (a != 0 || b != 0))
  | .equal, a, b => .ok (Number.ofBool (a == b))
  | .notEqual, a, b => .ok (Number.ofBool (a != b))
  | .less, a, b => .ok (Number.ofBool (decide (a < b)))
  | .greater, a, b => .ok (Number.ofBool (decide (b < a)))
  | .lessEq, a, b => .ok (Number.ofBool (decide (a ≤ b)))
  | .greaterEq, a, b => .ok (Number.ofBool (decide (b ≤ a)))
  | .min, a, b => .ok (if a ≤ b then a else b)
  | .max, a, b => .ok (if a ≤ b then b else a)

namespace Stack

/-- The stack item of a truth value. -/
def ofBool (b : Bool) : Bytes := if b then [1] else []

/-- The stack item of a count. -/
def ofCount (n : Nat) : Bytes := Number.encode (n : Int)

/-- What an operation leaves that lacks operands. -/
def missing (s : Stack) : Popped := .fail .invalidStackOperation s

/-! ## Stack -/

def shuffle (kind : Shuffle) (s : Stack) : Popped :=
  match kind.apply s with
  | some s' => .ok s'
  | none => missing s

def dupIfTrue : Stack → Popped
  | a :: s => if Number.isTrue a then .ok (a :: a :: s) else .ok (a :: s)
  | [] => missing []

def depth (s : Stack) : Popped := .ok (ofCount s.length :: s)

/-- Copies the item as many places down as the top says. -/
def pick : Stack → Popped
  | n :: s =>
    match Number.toCount? (Number.decode n) with
    | some i =>
      match s[i]? with
      | some a => .ok (a :: s)
      | none => missing s
    | none => missing s
  | [] => missing []

/-- Moves the item as many places down as the top says. -/
def roll : Stack → Popped
  | n :: s =>
    match Number.toCount? (Number.decode n) with
    | some i =>
      match s[i]? with
      | some a => .ok (a :: s.eraseIdx i)
      | none => missing s
    | none => missing s
  | [] => missing []

/-- Takes the top away, which must be true. -/
def verify : Stack → Popped
  | a :: s => if Number.isTrue a then .ok s else .fail .verifyFailed s
  | [] => missing []

/-! ## Splice -/

def cat : Stack → Popped
  | b :: a :: s => .ok ((a ++ b) :: s)
  | s => missing s

/-- From below: data, the position of the first byte, the number of bytes. -/
def substr : Stack → Popped
  | length :: start :: data :: s =>
    match Number.toCount? (Number.decode start), Number.toCount? (Number.decode length) with
    | some i, some n =>
      if i + n ≤ data.length then .ok ((data.drop i).take n :: s) else missing s
    | _, _ => missing s
  | s => missing s

/-- The first bytes of the data below, as many as the top says. -/
def left : Stack → Popped
  | length :: data :: s =>
    match Number.toCount? (Number.decode length) with
    | some n => if n ≤ data.length then .ok (data.take n :: s) else missing s
    | none => missing s
  | s => missing s

/-- The last bytes of the data below, as many as the top says. -/
def right : Stack → Popped
  | length :: data :: s =>
    match Number.toCount? (Number.decode length) with
    | some n => if n ≤ data.length then .ok (data.drop (data.length - n) :: s) else missing s
    | none => missing s
  | s => missing s

def size : Stack → Popped
  | a :: s => .ok (ofCount a.length :: a :: s)
  | [] => missing []

/-! ## Bits and bytes -/

def invert : Stack → Popped
  | a :: s => .ok (a.map (~~~ ·) :: s)
  | [] => missing []

def bitwise (kind : Bitwise) : Stack → Popped
  | b :: a :: s => if a.length = b.length then .ok (List.zipWith kind.apply a b :: s) else missing s
  | s => missing s

def equal : Stack → Popped
  | b :: a :: s => .ok (ofBool (a == b) :: s)
  | s => missing s

def equalVerify : Stack → Popped
  | b :: a :: s => if a == b then .ok s else .fail .verifyFailed s
  | s => missing s

/-! ## Numbers -/

def unary (kind : Unary) : Stack → Popped
  | a :: s => .ok (Number.encode (kind.apply (Number.decode a)) :: s)
  | [] => missing []

/-- The second operand is on top. -/
def binary (kind : Binary) : Stack → Popped
  | b :: a :: s =>
    match kind.apply (Number.decode a) (Number.decode b) with
    | .ok z => .ok (Number.encode z :: s)
    | .error error => .fail error s
  | s => missing s

def numEqualVerify : Stack → Popped
  | b :: a :: s => if Number.decode a = Number.decode b then .ok s else .fail .verifyFailed s
  | s => missing s

/-- From below: a number, the least that is within, the least that is above. -/
def within : Stack → Popped
  | above :: least :: a :: s =>
    let x := Number.decode a
    .ok (ofBool (decide (Number.decode least ≤ x) && decide (x < Number.decode above)) :: s)
  | s => missing s

/-! ## Hashes -/

def blake3 : Stack → Popped
  | a :: s => .ok ((Digest.of a).toList :: s)
  | [] => missing []

def doubleBlake3 : Stack → Popped
  | a :: s => .ok ((Digest.double a).toList :: s)
  | [] => missing []

end Stack

end UtxoLedger
