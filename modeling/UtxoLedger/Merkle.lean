/-
UtxoLedger.Merkle — commitments to an ordered list of ids.

A node's hash is the double hash of its children's hashes. The tree over a list
pairs neighbours level by level and moves an odd last node up unchanged
(`PairFold`), so no id is counted twice. A proof that an id is in the list is
the path of sibling hashes from its leaf to the root, with the side on which
each sibling stands; a level at which the node moves up adds no step.
-/
import UtxoLedger.PairFold
import UtxoLedger.Tx.Basic

namespace UtxoLedger

/-! ## Nodes -/

/-- A node with the hash that it claims. The trees built here have no node with
a single child; one that comes from elsewhere may. -/
inductive MerkleNode where
  | leaf (hash : Digest)
  | onlyLeft (hash : Digest) (left : MerkleNode)
  | onlyRight (hash : Digest) (right : MerkleNode)
  | branch (hash : Digest) (left right : MerkleNode)
  deriving DecidableEq

namespace MerkleNode

def hash : MerkleNode → Digest
  | .leaf h | .onlyLeft h _ | .onlyRight h _ | .branch h _ _ => h

/-- The hash of a node with two children. -/
def pairHash (left right : Digest) : Digest := .double (left.toList ++ right.toList)

/-- The node over two children. -/
def join (left right : MerkleNode) : MerkleNode :=
  .branch (pairHash left.hash right.hash) left right

def isLeaf : MerkleNode → Bool
  | .leaf _ => true
  | _ => false

def leafCount : MerkleNode → Nat
  | .leaf _ => 1
  | .onlyLeft _ left => left.leafCount
  | .onlyRight _ right => right.leafCount
  | .branch _ left right => left.leafCount + right.leafCount

/-- The tree over a list of ids; the empty list has none. -/
def ofIds? (ids : List Digest) : Option MerkleNode := PairFold.fold join (ids.map .leaf)

end MerkleNode

/-! ## Proofs -/

inductive Side where
  | left
  | right
  deriving DecidableEq, Repr

/-- A sibling on the way up, and the side on which it stands. -/
structure ProofStep where
  side : Side
  sibling : Digest
  deriving DecidableEq

/-- The hash one level up from `hash`. -/
def ProofStep.apply (hash : Digest) (step : ProofStep) : Digest :=
  match step.side with
  | .left => MerkleNode.pairHash step.sibling hash
  | .right => MerkleNode.pairHash hash step.sibling

structure MerkleProof where
  /-- The position of the id; the check does not use it. -/
  index : Nat
  path : List ProofStep
  deriving DecidableEq

/-- Whether the path leads from the leaf to the root. -/
def MerkleProof.verify (proof : MerkleProof) (leaf root : Digest) : Bool :=
  proof.path.foldl ProofStep.apply leaf == root

/-- The sibling of a position on its level, if it has one. -/
def siblingAt? (hashes : List Digest) (position : Nat) : Option ProofStep :=
  if position % 2 = 1 then (hashes[position - 1]?).map (ProofStep.mk .left)
  else (hashes[position + 1]?).map (ProofStep.mk .right)

/-- The path from a position on one level up to the root. -/
def pathFrom (hashes : List Digest) (position : Nat) : List ProofStep :=
  if hashes.length ≤ 1 then []
  else
    (siblingAt? hashes position).toList ++
      pathFrom (PairFold.level MerkleNode.pairHash hashes) (position / 2)
termination_by hashes.length
decreasing_by rw [PairFold.length_level]; omega

/-! ## The tree over a list -/

/-- A list of ids and the tree over it. -/
structure MerkleTree where
  ids : List Digest
  root : MerkleNode
  deriving DecidableEq

namespace MerkleTree

def ofIds (ids : List Digest) : Except Error MerkleTree :=
  match MerkleNode.ofIds? ids with
  | some root => .ok ⟨ids, root⟩
  | none => .error .emptyMerkleTree

def ofTxs (txs : List Tx) : Except Error MerkleTree := ofIds (txs.map Tx.id)

def rootHash (t : MerkleTree) : Digest := t.root.hash

/-- Whether the stored root is the one that the stored ids give. -/
def verify (t : MerkleTree) : Bool :=
  match MerkleNode.ofIds? t.ids with
  | some root => root.hash == t.rootHash
  | none => false

/-- The proof for the id at a position, if there is one. -/
def proof? (t : MerkleTree) (index : Nat) : Option MerkleProof :=
  if index < t.ids.length then some ⟨index, pathFrom t.ids index⟩ else none

end MerkleTree

end UtxoLedger
