/-
UtxoLedger.Tx.Basic — transactions and the references between them.

A transaction spends outputs of earlier ones and creates new outputs. An
`Outpoint` names one output by the id of its transaction and its position. The
one input of a coinbase transaction, which creates value and spends nothing,
names the outpoint with the all-zero id and the last index.

The byte form of each type is the concatenation of its fields; a script stands
behind its length and a list behind its count. The id of a transaction is the
double hash of its bytes.
-/
import UtxoLedger.Script.Basic
import UtxoLedger.Hash.Digest
import UtxoLedger.Value

namespace UtxoLedger

/-! ## Outpoints -/

structure Outpoint where
  txId : Digest
  index : UInt32
  deriving DecidableEq

namespace Outpoint

def encode (o : Outpoint) : Bytes := o.txId.toList ++ encodeUInt32 o.index

def read : Reader Outpoint := do
  let txId ← Reader.fixed 32
  let index ← Reader.uint32
  pure ⟨txId, index⟩

instance : Codec Outpoint := ⟨encode, read⟩

/-- The outpoint of a coinbase input. -/
def coinbase : Outpoint := ⟨.zero, 0xffffffff⟩

def text (o : Outpoint) : String := o.txId.toHex ++ ":" ++ toString o.index.toNat

/-- Outpoints are ordered by id, then by index. -/
def order : Outpoint → Outpoint → Ordering :=
  compareLex (compareOn Outpoint.txId) (compareOn Outpoint.index)

instance : Std.TransCmp order := inferInstanceAs (Std.TransCmp (compareLex _ _))

instance : Std.LawfulEqCmp order where
  eq_of_compare {a b} h := by
    obtain ⟨hid, hindex⟩ := Ordering.then_eq_eq.mp h
    have hid : a.txId = b.txId := Std.LawfulEqOrd.eq_of_compare hid
    have hindex : a.index = b.index := Std.LawfulEqOrd.eq_of_compare hindex
    cases a
    cases b
    simp only [mk.injEq]
    exact ⟨hid, hindex⟩

end Outpoint

/-! ## Inputs and outputs -/

structure TxInput where
  /-- The output that is spent. -/
  outpoint : Outpoint
  /-- What satisfies the script of the spent output. -/
  script : Script
  /-- How many blocks the spent output must have been confirmed before. -/
  lockRel : UInt32
  deriving DecidableEq

namespace TxInput

def encode (input : TxInput) : Bytes :=
  input.outpoint.encode ++ (input.script.encodeField ++ encodeUInt32 input.lockRel)

def read : Reader TxInput := do
  let outpoint ← Outpoint.read
  let script ← Script.readField
  let lockRel ← Reader.uint32
  pure ⟨outpoint, script, lockRel⟩

instance : Codec TxInput := ⟨encode, read⟩

def coinbase (script : Script) : TxInput := ⟨.coinbase, script, 0⟩

def isCoinbase (input : TxInput) : Bool := input.outpoint == .coinbase

end TxInput

structure TxOutput where
  value : UInt64
  /-- The condition for spending the output. -/
  script : Script
  deriving DecidableEq

namespace TxOutput

def encode (output : TxOutput) : Bytes := encodeUInt64 output.value ++ output.script.encodeField

def read : Reader TxOutput := do
  let value ← Reader.uint64
  let script ← Script.readField
  pure ⟨value, script⟩

instance : Codec TxOutput := ⟨encode, read⟩

end TxOutput

/-! ## Transactions -/

structure Tx where
  version : UInt8
  inputs : List TxInput
  outputs : List TxOutput
  /-- The first block that may confirm the transaction. -/
  lockAbs : UInt64
  deriving DecidableEq

namespace Tx

/-- The version of the transactions that this library makes. -/
def currentVersion : UInt8 := 0

def encode (tx : Tx) : Bytes :=
  tx.version :: (VarList.encode tx.inputs ++ (VarList.encode tx.outputs ++ encodeUInt64 tx.lockAbs))

def read : Reader Tx := do
  let version ← Reader.uint8
  let inputs ← VarList.read
  let outputs ← VarList.read
  let lockAbs ← Reader.uint64
  pure ⟨version, inputs, outputs, lockAbs⟩

instance : Codec Tx := ⟨encode, read⟩

def id (tx : Tx) : Digest := .double tx.encode

/-- The transaction that creates a block's reward. -/
def coinbase (script : Script) (output : TxOutput) (blockNum : UInt64) : Tx :=
  ⟨currentVersion, [.coinbase script], [output], blockNum⟩

def isCoinbase (tx : Tx) : Bool :=
  match tx.inputs with
  | [input] => input.isCoinbase
  | _ => false

def outpoints (tx : Tx) : List Outpoint := tx.inputs.map TxInput.outpoint

/-- The sum of the output values, if it fits in 64 bits. -/
def totalOutput? (tx : Tx) : Option UInt64 := Value.sum? (tx.outputs.map TxOutput.value)

end Tx

end UtxoLedger
