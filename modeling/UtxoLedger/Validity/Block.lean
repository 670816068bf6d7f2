/-
UtxoLedger.Validity.Block — whether a block may follow on a set of outputs.

A block is valid when its first transaction and no other is a coinbase, its
header commits to its transactions, no transaction is locked until a later
block, and each transaction is valid on the outputs that the ones before it left
(`applyTxs`). Outputs created in the block can be spent in it, and count as
created at its number. The map that was given is not changed: the loop works on
a value of its own and hands it on.
-/
import UtxoLedger.Block.Basic
import UtxoLedger.Validity.Tx

namespace UtxoLedger

namespace Tx

/-- The outputs left by a valid transaction of block `blockNum`: what it spends
is removed and what it creates is added. -/
def apply (tx : Tx) (outputs : OutputMap) (blockNum : UInt64) : OutputMap :=
  (outputs.eraseAll tx.outpoints).insertTx tx blockNum

/-- A transaction of block `blockNum` behind its coinbase must be valid, and
what it spends old enough. -/
def verifyInBlock (tx : Tx) (outputs : OutputMap) (blockNum : UInt64) : Except ValidityError Unit :=
  match (tx.verify outputs .empty).1 with
  | .error error => .error error
  | .ok () => tx.checkLocks outputs blockNum

end Tx

namespace Block

/-- The coinbase is first and nowhere else. -/
def checkStructure (b : Block) : Except ValidityError Unit :=
  match b.txs with
  | [] => .error .noTransactions
  | first :: others =>
    if first.isCoinbase then
      match others.findIdx? Tx.isCoinbase with
      | some i => .error (.coinbaseNotFirst (i + 1))
      | none => .ok ()
    else .error .missingCoinbase

def checkMerkleRoot (b : Block) : Except ValidityError Unit :=
  match MerkleTree.ofTxs b.txs with
  | .error _ => .error .noTransactions
  | .ok tree =>
    if tree.rootHash = b.header.merkleRoot then .ok () else .error .invalidMerkleRoot

/-- The first transaction, from position `index` on, that is locked at a block. -/
def checkFinalFrom (blockNum : UInt64) : (index : Nat) → List Tx → Except ValidityError Unit
  | _, [] => .ok ()
  | index, tx :: rest =>
    if blockNum < tx.lockAbs then .error (.txLocked index tx.lockAbs)
    else checkFinalFrom blockNum (index + 1) rest

/-- The transactions behind the first may be confirmed at the block's number. -/
def checkFinal (b : Block) : Except ValidityError Unit :=
  checkFinalFrom b.header.blockNum 1 (b.txs.drop 1)

/-! ## The transactions in order -/

/-- The outputs left by transactions from position `index` on, if each is valid
on those left by the ones before it. -/
def applyFrom (blockNum : UInt64) :
    (index : Nat) → List Tx → OutputMap → Except ValidityError OutputMap
  | _, [], outputs => .ok outputs
  | index, tx :: rest, outputs =>
    match tx.verifyInBlock outputs blockNum with
    | .error error => .error (.invalidTransaction index error)
    | .ok () => applyFrom blockNum (index + 1) rest (tx.apply outputs blockNum)

/-- The outputs left by the whole block. The first transaction only creates. -/
def applyTxs (b : Block) (outputs : OutputMap) : Except ValidityError OutputMap :=
  match b.txs with
  | [] => .ok outputs
  | first :: others =>
    applyFrom b.header.blockNum 1 others (outputs.insertTx first b.header.blockNum)

def checkTxs (b : Block) (outputs : OutputMap) : Except ValidityError Unit :=
  (b.applyTxs outputs).map fun _ => ()

/-! ## The whole block -/

def verify (b : Block) (outputs : OutputMap) : Except ValidityError Unit := do
  b.checkStructure
  b.checkMerkleRoot
  b.checkFinal
  b.checkTxs outputs

end Block

end UtxoLedger
