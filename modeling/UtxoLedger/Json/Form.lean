/-
UtxoLedger.Json.Form — the JSON forms of the ledger's values.

Fixed byte strings are strings of hexadecimal digits, scripts are their text,
keys and key hashes their labelled text, numbers are numbers. A value with
several fields is written as an object with the fields in the order of
`fieldNames`; it is read from such an object in any order, with further fields
passed over, or from an array of exactly the fields. A field that is missing or
given twice is refused.
-/
import UtxoLedger.Block.Basic
import UtxoLedger.Json.Basic
import UtxoLedger.Key
import UtxoLedger.Script.Text

namespace UtxoLedger

namespace Json

/-! ## Building blocks -/

def ofText (text : String) : Json := .string (text.toList.map .char)

def ofNat (n : Nat) : Json := .number (Nat.toDigits 10 n)

/-- The text of a string value. -/
def text? : Json → Option String
  | .string pieces => (textOf? pieces).map String.ofList
  | _ => none

/-- The one value under a name. -/
def field? (fields : List (List Piece × Json)) (name : String) : Option Json :=
  match fields.filter fun field => textOf? field.1 == some name.toList with
  | [field] => some field.2
  | _ => none

/-- The values of the named fields, in the order of the names. -/
def record? (names : List String) : Json → Option (List Json)
  | .array items => if items.length = names.length then some items else none
  | .object fields =>
    if fields.all fun field => (textOf? field.1).isSome then names.mapM (field? fields) else none
  | _ => none

/-- An object with the given names and values. -/
def ofRecord (names : List String) (values : List Json) : Json :=
  .object (List.zipWith (fun name value => (name.toList.map .char, value)) names values)

end Json

/-- A type with a JSON form. -/
class JsonForm (α : Type) where
  toJson : α → Json
  ofJson? : Json → Option α

namespace JsonForm

/-- Writes a value as compact JSON text. -/
def write {α : Type} [JsonForm α] (value : α) : String := (toJson value).write

/-- Reads a value from JSON text. -/
def read? (α : Type) [JsonForm α] (text : String) : Option α := (Json.parse? text).bind ofJson?

/-- The form of a value that is written as one text. -/
@[reducible] def ofTextForm {α : Type} (toText : α → String)
    (ofText : String → Except Error α) : JsonForm α where
  toJson value := Json.ofText (toText value)
  ofJson? json := json.text?.bind fun text => (ofText text).toOption

/-- The form of a number below `bound`. -/
@[reducible] def ofNatForm {α : Type} (bound : Nat) (toNat : α → Nat) (ofNat : Nat → α) :
    JsonForm α where
  toJson value := Json.ofNat (toNat value)
  ofJson? json := json.natOf?.bind fun n => if n < bound then some (ofNat n) else none

/-! ## Values without fields -/

instance : JsonForm UInt8 := ofNatForm 256 UInt8.toNat UInt8.ofNat

instance : JsonForm UInt32 := ofNatForm 4294967296 UInt32.toNat UInt32.ofNat

instance : JsonForm UInt64 := ofNatForm 18446744073709551616 UInt64.toNat UInt64.ofNat

instance {n : Nat} : JsonForm (Fixed n) := ofTextForm Fixed.toHex (Fixed.ofHex n)

instance : JsonForm PublicKey := ofTextForm PublicKey.toText PublicKey.ofText

instance : JsonForm KeyHash := ofTextForm KeyHash.toText KeyHash.ofText

instance : JsonForm Script := ofTextForm Script.text Script.ofText

instance {α : Type} [JsonForm α] : JsonForm (List α) where
  toJson items := .array (items.map toJson)
  ofJson?
    | .array items => items.mapM ofJson?
    | _ => none

end JsonForm

/-! ## Values with fields -/

open JsonForm (toJson ofJson?)

def Outpoint.fieldNames : List String := ["tx_id", "index"]

instance : JsonForm Outpoint where
  toJson o := .ofRecord Outpoint.fieldNames [toJson o.txId, toJson o.index]
  ofJson? json :=
    match json.record? Outpoint.fieldNames with
    | some [txId, index] => do some ⟨← ofJson? txId, ← ofJson? index⟩
    | _ => none

/-- The outpoint's two fields stand among those of the input. -/
def TxInput.fieldNames : List String := ["input_tx_id", "input_tx_index", "script", "lock_rel"]

instance : JsonForm TxInput where
  toJson input :=
    .ofRecord TxInput.fieldNames
      [toJson input.outpoint.txId, toJson input.outpoint.index, toJson input.script,
       toJson input.lockRel]
  ofJson? json :=
    match json.record? TxInput.fieldNames with
    | some [txId, index, script, lockRel] => do
      some ⟨⟨← ofJson? txId, ← ofJson? index⟩, ← ofJson? script, ← ofJson? lockRel⟩
    | _ => none

def TxOutput.fieldNames : List String := ["value", "script"]

instance : JsonForm TxOutput where
  toJson output := .ofRecord TxOutput.fieldNames [toJson output.value, toJson output.script]
  ofJson? json :=
    match json.record? TxOutput.fieldNames with
    | some [value, script] => do some ⟨← ofJson? value, ← ofJson? script⟩
    | _ => none

def Tx.fieldNames : List String := ["version", "inputs", "outputs", "lock_abs"]

instance : JsonForm Tx where
  toJson tx :=
    .ofRecord Tx.fieldNames
      [toJson tx.version, toJson tx.inputs, toJson tx.outputs, toJson tx.lockAbs]
  ofJson? json :=
    match json.record? Tx.fieldNames with
    | some [version, inputs, outputs, lockAbs] => do
      some ⟨← ofJson? version, ← ofJson? inputs, ← ofJson? outputs, ← ofJson? lockAbs⟩
    | _ => none

def Header.fieldNames : List String :=
  ["version", "prev_block_id", "merkle_root", "timestamp", "block_num", "target", "nonce",
   "work_ser_algo", "work_ser_hash", "work_par_algo", "work_par_hash"]

instance : JsonForm Header where
  toJson h :=
    .ofRecord Header.fieldNames
      [toJson h.version, toJson h.prevBlockId, toJson h.merkleRoot, toJson h.timestamp,
       toJson h.blockNum, toJson h.target, toJson h.nonce, toJson h.workSerAlgo,
       toJson h.workSerHash, toJson h.workParAlgo, toJson h.workParHash]
  ofJson? json :=
    match json.record? Header.fieldNames with
    | some [version, prevBlockId, merkleRoot, timestamp, blockNum, target, nonce, serAlgo, serHash,
        parAlgo, parHash] => do
      some ⟨← ofJson? version, ← ofJson? prevBlockId, ← ofJson? merkleRoot, ← ofJson? timestamp,
        ← ofJson? blockNum, ← ofJson? target, ← ofJson? nonce, ← ofJson? serAlgo,
        ← ofJson? serHash, ← ofJson? parAlgo, ← ofJson? parHash⟩
    | _ => none

def Block.fieldNames : List String := ["header", "txs"]

instance : JsonForm Block where
  toJson b := .ofRecord Block.fieldNames [toJson b.header, toJson b.txs]
  ofJson? json :=
    match json.record? Block.fieldNames with
    | some [header, txs] => do some ⟨← ofJson? header, ← ofJson? txs⟩
    | _ => none

end UtxoLedger
