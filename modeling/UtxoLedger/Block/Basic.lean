/-
UtxoLedger.Block.Basic — blocks: a header and the transactions that it commits to.
-/
import UtxoLedger.Block.Header
import UtxoLedger.Merkle

namespace UtxoLedger

structure Block where
  header : Header
  txs : List Tx
  deriving DecidableEq

namespace Block

def encode (b : Block) : Bytes := b.header.encode ++ VarList.encode b.txs

def read : Reader Block := do
  let header ← Header.read
  let txs ← VarList.read
  pure ⟨header, txs⟩

instance : Codec Block := ⟨encode, read⟩

def id (b : Block) : Digest := b.header.id

/-- Whether the header commits to exactly these transactions. A block without
transactions has no root to commit to. -/
def isMerkleRootValid (b : Block) : Bool :=
  match MerkleTree.ofTxs b.txs with
  | .ok tree => tree.rootHash == b.header.merkleRoot
  | .error _ => false

end Block

end UtxoLedger
