/-
UtxoLedger.Script.Chunk — the elements of a script.

A chunk is a defined opcode, a byte without a meaning, or pushed data. The three
opcodes that announce data are not among the first kind: which of them stands in
front of pushed data follows from the data's length (`LengthWidth.narrowest`), so
the narrowest length field is used by construction and a push cannot disagree
with its opcode. The proofs in the constructors say what each constructor is
for: an opcode that announces no data, a byte that is no opcode, data that is not
empty and short enough for the widest length field.

`read` accepts exactly the bytes that `encode` writes; a length that a narrower
field could have carried is refused.
-/
import UtxoLedger.Codec.VarInt
import UtxoLedger.Script.Opcode

namespace UtxoLedger

/-! ## Length fields -/

namespace LengthWidth

/-- How many bytes the length field has. -/
def bytes : LengthWidth → Nat
  | .one => 1
  | .two => 2
  | .four => 4

/-- The least length that no narrower field can carry. -/
def least : LengthWidth → Nat
  | .one => 1
  | .two => 0x100
  | .four => 0x10000

/-- The narrowest field that can carry a length. -/
def narrowest (length : Nat) : LengthWidth :=
  if length ≤ 0xff then .one else if length ≤ 0xffff then .two else .four

/-- A length that a field can carry and no narrower one can is neither zero nor beyond the
widest field. -/
theorem in_range {width : LengthWidth} {length : Nat} (hleast : width.least ≤ length)
    (hfits : length < 1 <<< (8 * width.bytes)) : 0 < length ∧ length < 4294967296 := by
  cases width with
  | one =>
    have hlt : length < 0x100 := hfits
    exact ⟨hleast, by omega⟩
  | two =>
    have hlt : length < 0x10000 := hfits
    have hle : 0x100 ≤ length := hleast
    exact ⟨by omega, by omega⟩
  | four =>
    have hle : 0x10000 ≤ length := hleast
    exact ⟨by omega, hfits⟩

end LengthWidth

/-- Data that a length field can announce: not empty, and shorter than 2^32
bytes. The empty byte string is pushed by an opcode of its own. -/
def Pushable (data : Bytes) : Prop := 0 < data.length ∧ data.length < 4294967296

instance (data : Bytes) : Decidable (Pushable data) := by unfold Pushable; infer_instance

/-- A fixed length in range makes its data pushable. -/
theorem Fixed.pushable {n : Nat} (a : Fixed n) (h : 0 < n ∧ n < 4294967296) :
    Pushable a.toList := by
  rw [Pushable, a.length_toList]
  exact h

/-! ## Chunks -/

/-- One element of a script. -/
inductive Chunk where
  | op (code : Opcode) (noData : code.lengthWidth? = none)
  | unknown (byte : UInt8) (undefined : Opcode.ofByte? byte = none)
  | push (data : Bytes) (pushable : Pushable data)
  deriving DecidableEq

namespace Chunk

/-- The opcode of the chunk, if its byte is defined. -/
def opcode? : Chunk → Option Opcode
  | .op code _ => some code
  | .unknown _ _ => none
  | .push data _ => some (.pushData (.narrowest data.length))

/-- The first byte of the chunk. -/
def byte : Chunk → UInt8
  | .op code _ => code.toByte
  | .unknown byte _ => byte
  | .push data _ => (Opcode.pushData (.narrowest data.length)).toByte

/-- The pushed data. -/
def data? : Chunk → Option Bytes
  | .push data _ => some data
  | _ => none

/-! ## Making chunks -/

/-- A defined opcode by itself. -/
def ofOpcode (code : Opcode) : Except Error Chunk :=
  match h : code.lengthWidth? with
  | some width => .error (.malformedScript (.lengthNeedsData width))
  | none => .ok (.op code h)

/-- A byte by itself, defined or not. -/
def ofByte (byte : UInt8) : Except Error Chunk :=
  match h : Opcode.ofByte? byte with
  | some code => ofOpcode code
  | none => .ok (.unknown byte h)

/-- Pushes data of any length in range, the empty byte string included. -/
def ofData (data : Bytes) : Except Error Chunk :=
  if h : Pushable data then .ok (.push data h)
  else if data.isEmpty then .ok (.op .zero rfl)
  else .error (.malformedScript (.pushTooLong data.length))

/-- Pushes a number from 0 to 16 by one opcode. -/
def smallNat (n : Nat) (h : n ≤ 16) : Chunk :=
  if h0 : n = 0 then .op .zero rfl else .op (.small ⟨n - 1, by omega⟩) rfl

/-- Pushes -1 to 16 by one opcode. -/
def ofSmallInt? (z : Int) : Option Chunk :=
  if z = -1 then some (.op .negativeOne rfl)
  else if h : 0 ≤ z ∧ z ≤ 16 then some (smallNat z.toNat (by omega))
  else none

/-- The number from 0 to 16 that the chunk pushes by one opcode. -/
def smallNat? : Chunk → Option Nat
  | .op .zero _ => some 0
  | .op (.small index) _ => some (index.val + 1)
  | _ => none

/-! ## Bytes -/

def encode : Chunk → Bytes
  | .op code _ => [code.toByte]
  | .unknown byte _ => [byte]
  | .push data _ =>
    let width := LengthWidth.narrowest data.length
    (Opcode.pushData width).toByte :: (LittleEndian.encode width.bytes data.length ++ data)

/-- Reads what follows an opcode that announces data. The data that arrive are as long as
the field says, and that is all that makes them pushable: no length is refused but one that
a narrower field could have carried. -/
def readPush (width : LengthWidth) : Reader Chunk := do
  let truncated : Error := .malformedScript .pushTruncated
  let field ← Reader.orFail (Reader.fixed width.bytes) truncated
  let length := LittleEndian.decode field.toList
  if hshort : length < width.least then throw (.malformedScript (.pushNotMinimal length width))
  else
    let data ← Reader.orFail (Reader.fixed length) truncated
    have hrange := LengthWidth.in_range (Nat.not_lt.mp hshort) field.decode_lt
    pure (.push data.toList (data.pushable hrange))

def read : Reader Chunk := do
  let byte ← Reader.uint8
  match h : Opcode.ofByte? byte with
  | none => pure (.unknown byte h)
  | some code =>
    match h : code.lengthWidth? with
    | some width => readPush width
    | none => pure (.op code h)

instance : Codec Chunk := ⟨encode, read⟩

theorem takes_readPush (width : LengthWidth) : Reader.Takes 0 (readPush width) := by
  refine (Reader.takes_bind (k := 0) (Reader.takes_orFail _ (Reader.takes_fixed _))
    fun field => ?_).mono (Nat.zero_le _)
  dsimp only
  split
  · exact Reader.takes_throw 0 _
  · exact (Reader.takes_bind (k := 0) (Reader.takes_orFail _ (Reader.takes_fixed _))
      fun data => Reader.takes_pure _).mono (Nat.zero_le _)

/-- A chunk is at least its first byte. -/
theorem takes_read : Reader.Takes 1 read := by
  refine Reader.takes_bind (k := 0) Reader.takes_uint8 fun byte => ?_
  split
  · exact Reader.takes_pure _
  · split
    · exact takes_readPush _
    · exact Reader.takes_pure _

/-! ## Text -/

/-- What stands in front of the digits of a byte that is no opcode. -/
def unknownLabel : String := "OP_UNKNOWN_0x"

/-- The chunk's token in script text. -/
def text : Chunk → String
  | .op code _ => code.name
  | .unknown byte _ => unknownLabel ++ Hex.encode [byte]
  | .push data _ => "0x" ++ Hex.encode data

end Chunk

end UtxoLedger
