/-
UtxoLedger.Script.Opcode — the instruction set of the script machine.

An opcode has a meaning, a byte and a name. The meaning is the constructor:
opcodes that differ only in the function they apply share one (`unary`,
`binary`, `bitwise`, `shuffle`), so that the machine states once how such a
family takes its operands and what it does when they are missing. Bytes and
names are assigned by `toByte` and `name`; the two look-ups search `all`, which
lists the set in byte order.

  `toByte_injective`   no two opcodes share a byte
  `ofByte?_toByte`     the byte of an opcode finds that opcode again
  `ofName?_name`       and so does its name
-/

namespace UtxoLedger

/-! ## Families -/

/-- The width of the length field in front of pushed data, in bytes. -/
inductive LengthWidth where
  | one
  | two
  | four
  deriving DecidableEq, Repr

/-- The opcodes that open, turn and close a conditional group. They act also
where the surrounding group is skipped. -/
inductive Branch where
  | ifTrue
  | ifFalse
  | otherwise
  | endIf
  deriving DecidableEq, Repr

/-- Rearrangements of a fixed number of top items. -/
inductive Shuffle where
  | drop2
  | dup2
  | dup3
  | over2
  | rot2
  | swap2
  | drop
  | dup
  | nip
  | over
  | rot
  | swap
  | tuck
  deriving DecidableEq, Repr

/-- Functions of two byte strings of one length. -/
inductive Bitwise where
  | and
  | or
  | xor
  deriving DecidableEq, Repr

/-- Functions of one number. -/
inductive Unary where
  | add1
  | sub1
  | mul2
  | div2
  | negate
  | abs
  | not
  | notZero
  deriving DecidableEq, Repr

/-- Functions of two numbers. -/
inductive Binary where
  | add
  | sub
  | mul
  | div
  | mod
  | shiftLeft
  | shiftRight
  | boolAnd
  | boolOr
  | equal
  | notEqual
  | less
  | greater
  | lessEq
  | greaterEq
  | min
  | max
  deriving DecidableEq, Repr

/-- An opcode with a defined meaning. The other bytes can stand in a script and
fail when they are executed. -/
inductive Opcode where
  /-- Pushes the empty byte string. -/
  | zero
  /-- Pushes the data that follows a length of the given width. -/
  | pushData (width : LengthWidth)
  | negativeOne
  /-- Pushes `index + 1`, a number from 1 to 16. -/
  | small (index : Fin 16)
  | branch (kind : Branch)
  | verify
  | ret
  | toAlt
  | fromAlt
  | shuffle (kind : Shuffle)
  | dupIfTrue
  | depth
  | pick
  | roll
  | cat
  | substr
  | left
  | right
  | size
  | invert
  | bitwise (kind : Bitwise)
  | equal
  | equalVerify
  | unary (kind : Unary)
  | binary (kind : Binary)
  | numEqualVerify
  | within
  | blake3
  | doubleBlake3
  | checkSig
  | checkSigVerify
  | checkMultiSig
  | checkMultiSigVerify
  | checkLockAbs
  | checkLockRel
  deriving DecidableEq, Repr

namespace Opcode

/-! ## Bytes and names -/

/-- The byte that stands for the opcode in a script. -/
def toByte : Opcode → UInt8
  | .zero => 0x00
  | .pushData .one => 0x4c
  | .pushData .two => 0x4d
  | .pushData .four => 0x4e
  | .negativeOne => 0x4f
  | .small index => 0x51 + UInt8.ofNat index.val
  | .branch .ifTrue => 0x63
  | .branch .ifFalse => 0x64
  | .branch .otherwise => 0x67
  | .branch .endIf => 0x68
  | .verify => 0x69
  | .ret => 0x6a
  | .toAlt => 0x6b
  | .fromAlt => 0x6c
  | .shuffle .drop2 => 0x6d
  | .shuffle .dup2 => 0x6e
  | .shuffle .dup3 => 0x6f
  | .shuffle .over2 => 0x70
  | .shuffle .rot2 => 0x71
  | .shuffle .swap2 => 0x72
  | .dupIfTrue => 0x73
  | .depth => 0x74
  | .shuffle .drop => 0x75
  | .shuffle .dup => 0x76
  | .shuffle .nip => 0x77
  | .shuffle .over => 0x78
  | .pick => 0x79
  | .roll => 0x7a
  | .shuffle .rot => 0x7b
  | .shuffle .swap => 0x7c
  | .shuffle .tuck => 0x7d
  | .cat => 0x7e
  | .substr => 0x7f
  | .left => 0x80
  | .right => 0x81
  | .size => 0x82
  | .invert => 0x83
  | .bitwise .and => 0x84
  | .bitwise .or => 0x85
  | .bitwise .xor => 0x86
  | .equal => 0x87
  | .equalVerify => 0x88
  | .unary .add1 => 0x8b
  | .unary .sub1 => 0x8c
  | .unary .mul2 => 0x8d
  | .unary .div2 => 0x8e
  | .unary .negate => 0x8f
  | .unary .abs => 0x90
  | .unary .not => 0x91
  | .unary .notZero => 0x92
  | .binary .add => 0x93
  | .binary .sub => 0x94
  | .binary .mul => 0x95
  | .binary .div => 0x96
  | .binary .mod => 0x97
  | .binary .shiftLeft => 0x98
  | .binary .shiftRight => 0x99
  | .binary .boolAnd => 0x9a
  | .binary .boolOr => 0x9b
  | .binary .equal => 0x9c
  | .numEqualVerify => 0x9d
  | .binary .notEqual => 0x9e
  | .binary .less => 0x9f
  | .binary .greater => 0xa0
  | .binary .lessEq => 0xa1
  | .binary .greaterEq => 0xa2
  | .binary .min => 0xa3
  | .binary .max => 0xa4
  | .within => 0xa5
  | .blake3 => 0xa6
  | .doubleBlake3 => 0xa7
  | .checkSig => 0xac
  | .checkSigVerify => 0xad
  | .checkMultiSig => 0xae
  | .checkMultiSigVerify => 0xaf
  | .checkLockAbs => 0xb1
  | .checkLockRel => 0xb2

/-- The name that stands for the opcode in script text. -/
def name : Opcode → String
  | .zero => "OP_0"
  | .pushData .one => "OP_PUSHDATA1"
  | .pushData .two => "OP_PUSHDATA2"
  | .pushData .four => "OP_PUSHDATA4"
  | .negativeOne => "OP_1NEGATE"
  | .small index => "OP_" ++ toString (index.val + 1)
  | .branch .ifTrue => "OP_IF"
  | .branch .ifFalse => "OP_NOTIF"
  | .branch .otherwise => "OP_ELSE"
  | .branch .endIf => "OP_ENDIF"
  | .verify => "OP_VERIFY"
  | .ret => "OP_RETURN"
  | .toAlt => "OP_TOALTSTACK"
  | .fromAlt => "OP_FROMALTSTACK"
  | .shuffle .drop2 => "OP_2DROP"
  | .shuffle .dup2 => "OP_2DUP"
  | .shuffle .dup3 => "OP_3DUP"
  | .shuffle .over2 => "OP_2OVER"
  | .shuffle .rot2 => "OP_2ROT"
  | .shuffle .swap2 => "OP_2SWAP"
  | .dupIfTrue => "OP_IFDUP"
  | .depth => "OP_DEPTH"
  | .shuffle .drop => "OP_DROP"
  | .shuffle .dup => "OP_DUP"
  | .shuffle .nip => "OP_NIP"
  | .shuffle .over => "OP_OVER"
  | .pick => "OP_PICK"
  | .roll => "OP_ROLL"
  | .shuffle .rot => "OP_ROT"
  | .shuffle .swap => "OP_SWAP"
  | .shuffle .tuck => "OP_TUCK"
  | .cat => "OP_CAT"
  | .substr => "OP_SUBSTR"
  | .left => "OP_LEFT"
  | .right => "OP_RIGHT"
  | .size => "OP_SIZE"
  | .invert => "OP_INVERT"
  | .bitwise .and => "OP_AND"
  | .bitwise .or => "OP_OR"
  | .bitwise .xor => "OP_XOR"
  | .equal => "OP_EQUAL"
  | .equalVerify => "OP_EQUALVERIFY"
  | .unary .add1 => "OP_1ADD"
  | .unary .sub1 => "OP_1SUB"
  | .unary .mul2 => "OP_2MUL"
  | .unary .div2 => "OP_2DIV"
  | .unary .negate => "OP_NEGATE"
  | .unary .abs => "OP_ABS"
  | .unary .not => "OP_NOT"
  | .unary .notZero => "OP_0NOTEQUAL"
  | .binary .add => "OP_ADD"
  | .binary .sub => "OP_SUB"
  | .binary .mul => "OP_MUL"
  | .binary .div => "OP_DIV"
  | .binary .mod => "OP_MOD"
  | .binary .shiftLeft => "OP_LSHIFT"
  | .binary .shiftRight => "OP_RSHIFT"
  | .binary .boolAnd => "OP_BOOLAND"
  | .binary .boolOr => "OP_BOOLOR"
  | .binary .equal => "OP_NUMEQUAL"
  | .numEqualVerify => "OP_NUMEQUALVERIFY"
  | .binary .notEqual => "OP_NUMNOTEQUAL"
  | .binary .less => "OP_LESSTHAN"
  | .binary .greater => "OP_GREATERTHAN"
  | .binary .lessEq => "OP_LESSTHANOREQUAL"
  | .binary .greaterEq => "OP_GREATERTHANOREQUAL"
  | .binary .min => "OP_MIN"
  | .binary .max => "OP_MAX"
  | .within => "OP_WITHIN"
  | .blake3 => "OP_BLAKE3"
  | .doubleBlake3 => "OP_DOUBLEBLAKE3"
  | .checkSig => "OP_CHECKSIG"
  | .checkSigVerify => "OP_CHECKSIGVERIFY"
  | .checkMultiSig => "OP_CHECKMULTISIG"
  | .checkMultiSigVerify => "OP_CHECKMULTISIGVERIFY"
  | .checkLockAbs => "OP_CHECKLOCKABSVERIFY"
  | .checkLockRel => "OP_CHECKLOCKRELVERIFY"

/-- Every opcode, in the order of their bytes. -/
def all : List Opcode :=
  [.zero, .pushData .one, .pushData .two, .pushData .four, .negativeOne,
   .small 0, .small 1, .small 2, .small 3, .small 4, .small 5, .small 6, .small 7,
   .small 8, .small 9, .small 10, .small 11, .small 12, .small 13, .small 14, .small 15,
   .branch .ifTrue, .branch .ifFalse, .branch .otherwise, .branch .endIf,
   .verify, .ret, .toAlt, .fromAlt,
   .shuffle .drop2, .shuffle .dup2, .shuffle .dup3, .shuffle .over2, .shuffle .rot2,
   .shuffle .swap2, .dupIfTrue, .depth, .shuffle .drop, .shuffle .dup, .shuffle .nip,
   .shuffle .over, .pick, .roll, .shuffle .rot, .shuffle .swap, .shuffle .tuck,
   .cat, .substr, .left, .right, .size,
   .invert, .bitwise .and, .bitwise .or, .bitwise .xor, .equal, .equalVerify,
   .unary .add1, .unary .sub1, .unary .mul2, .unary .div2, .unary .negate, .unary .abs,
   .unary .not, .unary .notZero,
   .binary .add, .binary .sub, .binary .mul, .binary .div, .binary .mod,
   .binary .shiftLeft, .binary .shiftRight, .binary .boolAnd, .binary .boolOr,
   .binary .equal, .numEqualVerify, .binary .notEqual, .binary .less, .binary .greater,
   .binary .lessEq, .binary .greaterEq, .binary .min, .binary .max, .within,
   .blake3, .doubleBlake3, .checkSig, .checkSigVerify, .checkMultiSig, .checkMultiSigVerify,
   .checkLockAbs, .checkLockRel]

/-- The opcode that a byte stands for, if it is defined. -/
def ofByte? (byte : UInt8) : Option Opcode := all.find? (·.toByte == byte)

/-- The opcode of a name, in the exact spelling of `name`. -/
def ofName? (text : String) : Option Opcode := all.find? (·.name == text)

/-! ## Small integers and pushes -/

/-- The opcode that pushes `n`, for `n` from 1 to 16. -/
def ofSmallInt? (n : Nat) : Option Opcode :=
  if h : 1 ≤ n ∧ n ≤ 16 then some (.small ⟨n - 1, by omega⟩) else none

/-- The number from 1 to 16 that the opcode pushes, if it is such an opcode. -/
def smallInt? : Opcode → Option Nat
  | .small index => some (index.val + 1)
  | _ => none

/-- The width of the length that the opcode announces, if it announces data. -/
def lengthWidth? : Opcode → Option LengthWidth
  | .pushData width => some width
  | _ => none

/-- Opcodes that only put a constant or literal data on the stack. -/
def isPush : Opcode → Bool
  | .zero | .pushData _ | .negativeOne | .small _ => true
  | _ => false

/-! ## The look-ups find what was written -/

/-- No opcode is missing from the list. -/
theorem mem_all (op : Opcode) : op ∈ all := by
  cases op with
  | small index => revert index; decide
  | pushData kind | branch kind | shuffle kind | bitwise kind | unary kind | binary kind =>
    cases kind <;> decide
  | _ => decide

private theorem nodup_map_toByte : (all.map toByte).Nodup := by
  have hcode : (all.map fun op => op.toByte.toNat).Nodup := by decide +kernel
  rw [List.Nodup, List.pairwise_map] at hcode ⊢
  exact hcode.imp fun h heq => h (congrArg UInt8.toNat heq)

/-- A number for each name: enough to see that they differ. -/
private def nameCode (op : Opcode) : Nat := op.name.toList.foldl (fun n c => n * 256 + c.toNat) 0

private theorem nodup_map_name : (all.map name).Nodup := by
  have hcode : (all.map nameCode).Nodup := by decide +kernel
  rw [List.Nodup, List.pairwise_map] at hcode ⊢
  exact hcode.imp fun h heq => h (by rw [nameCode, nameCode, heq])

private theorem find?_of_nodup_keys {κ : Type} [BEq κ] [LawfulBEq κ] (key : Opcode → κ) :
    ∀ (ops : List Opcode), (ops.map key).Nodup → ∀ op ∈ ops,
      ops.find? (key · == key op) = some op
  | [], _, _, hmem => absurd hmem List.not_mem_nil
  | head :: tail, hnodup, op, hmem => by
    rw [List.map_cons, List.nodup_cons] at hnodup
    by_cases heq : key head = key op
    · rcases List.mem_cons.mp hmem with rfl | htail
      · rw [List.find?_cons_of_pos (by rw [beq_iff_eq])]
      · exact absurd (heq ▸ List.mem_map_of_mem htail) hnodup.1
    · have htail : op ∈ tail := by
        rcases List.mem_cons.mp hmem with rfl | htail
        · exact absurd rfl heq
        · exact htail
      rw [List.find?_cons_of_neg (by rw [beq_iff_eq]; exact heq)]
      exact find?_of_nodup_keys key tail hnodup.2 op htail

/-- No two opcodes share a byte. -/
theorem ofByte?_toByte (op : Opcode) : ofByte? op.toByte = some op :=
  find?_of_nodup_keys toByte all nodup_map_toByte op (mem_all op)

theorem ofName?_name (op : Opcode) : ofName? op.name = some op :=
  find?_of_nodup_keys name all nodup_map_name op (mem_all op)

theorem toByte_injective {a b : Opcode} (h : a.toByte = b.toByte) : a = b := by
  have ha := ofByte?_toByte a
  rw [h, ofByte?_toByte b] at ha
  exact (Option.some.inj ha).symm

/-- The opcode that is found has the byte that was looked for. -/
theorem toByte_of_ofByte? {byte : UInt8} {op : Opcode} (h : ofByte? byte = some op) :
    op.toByte = byte := by
  have hpos := List.find?_some h
  exact eq_of_beq hpos

end Opcode

end UtxoLedger
