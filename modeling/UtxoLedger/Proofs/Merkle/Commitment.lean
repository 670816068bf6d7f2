/-
UtxoLedger.Proofs.Merkle.Commitment — a Merkle root commits to the list under it.

Two lists of one length have trees of one shape, and equal roots come from equal lists
unless the hash function fails. Where it fails is said: a `Digest.Collision` is two
different byte strings with one double hash, the first hashed for the one tree and the
second for the other. That there is none is never assumed.

The trees are not compared by their shape. `MerkleNode.Binds` says of two nodes what is
wanted of the roots, any two leaves have it, and joining keeps it (`Binds.join`); it
holds of the roots because they are folded in step (`PairFold.fold_rel`).

`ids ≠ []` is needed for there to be a tree. That the lengths are equal is needed as
well: a leaf is not told from an inner node, so the root over four ids is also the root
over the two hashes one level up.
-/
import UtxoLedger.Proofs.PairFold
import UtxoLedger.Validity.Block

namespace UtxoLedger

/-! ## Where the hash function fails -/

/-- Two different byte strings, one hashed on either side, have the same double hash. -/
def Digest.Collision (hashed hashed' : List Bytes) : Prop :=
  ∃ a ∈ hashed, ∃ b ∈ hashed', a ≠ b ∧ Digest.double a = Digest.double b

theorem Digest.Collision.mono {as bs as' bs' : List Bytes} (h : Collision as bs) (has : as ⊆ as')
    (hbs : bs ⊆ bs') : Collision as' bs' := by
  obtain ⟨a, ha, b, hb, hne, hsame⟩ := h
  exact ⟨a, has ha, b, hbs hb, hne, hsame⟩

namespace MerkleNode

/-- The 64 bytes that are hashed for the node over two children. -/
def pairBytes (left right : Digest) : Bytes := left.toList ++ right.toList

/-- Digests have one width, so their bytes in a row are cut at one place. -/
theorem pairBytes_inj {l r l' r' : Digest} (h : pairBytes l r = pairBytes l' r') :
    l = l' ∧ r = r' := by
  obtain ⟨hleft, hright⟩ := List.append_inj h (l.length_toList.trans l'.length_toList.symm)
  exact ⟨Fixed.ext hleft, Fixed.ext hright⟩

/-- Nodes with one hash have the same children, or the 64 bytes of the one and of the
other collide. -/
theorem pairHash_inj {l r l' r' : Digest} (h : pairHash l r = pairHash l' r') :
    (l = l' ∧ r = r') ∨ Digest.Collision [pairBytes l r] [pairBytes l' r'] := by
  by_cases hbytes : pairBytes l r = pairBytes l' r'
  · exact .inl (pairBytes_inj hbytes)
  · exact .inr ⟨_, List.mem_singleton_self _, _, List.mem_singleton_self _, hbytes, h⟩

/-! ## Trees -/

/-- The hashes of the leaves, from left to right. -/
def leaves : MerkleNode → List Digest
  | .leaf h => [h]
  | .onlyLeft _ left => left.leaves
  | .onlyRight _ right => right.leaves
  | .branch _ left right => left.leaves ++ right.leaves

/-- The byte strings that are hashed for the nodes of a tree, one for each two children. -/
def hashed : MerkleNode → List Bytes
  | .leaf _ => []
  | .onlyLeft _ left => left.hashed
  | .onlyRight _ right => right.hashed
  | .branch _ left right => pairBytes left.hash right.hash :: (left.hashed ++ right.hashed)

theorem hash_join (l r : MerkleNode) : (l.join r).hash = pairHash l.hash r.hash := rfl

theorem hashed_join (l r : MerkleNode) :
    (l.join r).hashed = pairBytes l.hash r.hash :: (l.hashed ++ r.hashed) := rfl

/-- The leaves are the ids, in their order. -/
theorem leaves_ofIds? {ids : List Digest} {root : MerkleNode} (h : ofIds? ids = some root) :
    root.leaves = ids := by
  have hleaves : root.leaves = (ids.map leaf).flatMap leaves :=
    PairFold.flatMap_fold (fun _ _ => rfl) h
  rw [hleaves, List.flatMap_map]
  simp [leaves]

/-- A tree is missing only for the empty list. -/
theorem exists_ofIds? {ids : List Digest} (h : ids ≠ []) : ∃ root, ofIds? ids = some root :=
  PairFold.exists_fold join (by simpa using h)

/-! ### Two trees -/

/-- Nodes with one hash have the same leaves, unless something that is hashed for the one
collides with something that is hashed for the other. -/
def Binds (t t' : MerkleNode) : Prop :=
  t.hash = t'.hash → t.leaves = t'.leaves ∨ Digest.Collision t.hashed t'.hashed

theorem binds_leaf (a b : Digest) : Binds (.leaf a) (.leaf b) := by
  intro h
  exact .inl (congrArg (fun id => [id]) h)

/-- Equal hashes of two joined nodes come from equal hashes of their parts, or the two
strings that were hashed are a collision. -/
theorem Binds.join {l l' r r' : MerkleNode} (hl : Binds l l') (hr : Binds r r') :
    Binds (l.join r) (l'.join r') := by
  intro h
  rw [hash_join, hash_join] at h
  rw [hashed_join, hashed_join]
  rcases pairHash_inj h with ⟨hleft, hright⟩ | hcollision
  · rcases hl hleft with hleaves | hcollision
    · rcases hr hright with hleaves' | hcollision
      -- neither the joined nodes nor anything below them is a collision
      · left
        show l.leaves ++ r.leaves = l'.leaves ++ r'.leaves
        rw [hleaves, hleaves']
      · exact .inr (hcollision.mono (by simp) (by simp))
    · exact .inr (hcollision.mono (by simp) (by simp))
  · exact .inr (hcollision.mono (by simp) (by simp))

/-- The two trees have one shape, since the length alone decides where a list is split. -/
theorem binds_ofIds? {ids ids' : List Digest} (hlength : ids.length = ids'.length)
    {root root' : MerkleNode} (h : ofIds? ids = some root) (h' : ofIds? ids' = some root') :
    Binds root root' := by
  have hleaves : List.Forall₂ Binds (ids.map .leaf) (ids'.map .leaf) := by
    rw [List.forall₂_iff_get]
    refine ⟨by simpa using hlength, ?_⟩
    intro i _ _
    simp [binds_leaf]
  -- the two foldings go in step, so related leaves give related roots
  have hrel := PairFold.fold_rel Binds.join hleaves
  unfold ofIds? at h h'
  rw [h, h'] at hrel
  cases hrel with
  | some hroots => exact hroots

end MerkleNode

namespace MerkleTree

/-- A tree keeps the list that it was made of. -/
theorem ofIds_eq_ok_iff {ids : List Digest} {tree : MerkleTree} :
    ofIds ids = .ok tree ↔ tree.ids = ids ∧ MerkleNode.ofIds? ids = some tree.root := by
  obtain ⟨ids', root⟩ := tree
  rw [ofIds]
  cases MerkleNode.ofIds? ids with
  | none => simp
  | some root' => simp [eq_comm]

theorem exists_ofIds {ids : List Digest} (h : ids ≠ []) : ∃ tree, ofIds ids = .ok tree := by
  obtain ⟨root, hroot⟩ := MerkleNode.exists_ofIds? h
  exact ⟨⟨ids, root⟩, ofIds_eq_ok_iff.mpr ⟨rfl, hroot⟩⟩

theorem ofIds_nil : ofIds [] = .error .emptyMerkleTree := by
  simp [ofIds, MerkleNode.ofIds?, PairFold.fold]

/-- A list as long as one that has a tree has a tree. -/
theorem exists_ofIds_of_length_eq {ids ids' : List Digest} {tree : MerkleTree}
    (h : ofIds ids = .ok tree) (hlength : ids.length = ids'.length) :
    ∃ tree', ofIds ids' = .ok tree' := by
  apply exists_ofIds
  rintro rfl
  rw [List.length_nil, List.length_eq_zero_iff] at hlength
  rw [hlength, ofIds_nil] at h
  cases h

/-- Trees over lists of one length: equal roots, equal lists. -/
theorem eq_or_collision_of_rootHash_eq {ids ids' : List Digest} {tree tree' : MerkleTree}
    (hlength : ids.length = ids'.length) (h : ofIds ids = .ok tree) (h' : ofIds ids' = .ok tree')
    (hroots : tree.rootHash = tree'.rootHash) :
    ids = ids' ∨ Digest.Collision tree.root.hashed tree'.root.hashed := by
  obtain ⟨-, hroot⟩ := ofIds_eq_ok_iff.mp h
  obtain ⟨-, hroot'⟩ := ofIds_eq_ok_iff.mp h'
  have hbinds := MerkleNode.binds_ofIds? hlength hroot hroot' hroots
  rwa [MerkleNode.leaves_ofIds? hroot, MerkleNode.leaves_ofIds? hroot'] at hbinds

end MerkleTree

namespace Block

/-- Where there is a tree, the check compares its root with the header's. -/
theorem checkMerkleRoot_of_ofTxs {b : Block} {tree : MerkleTree}
    (h : MerkleTree.ofTxs b.txs = .ok tree) :
    b.checkMerkleRoot =
      if tree.rootHash = b.header.merkleRoot then .ok () else .error .invalidMerkleRoot := by
  rw [checkMerkleRoot, h]

/-- Only a block with transactions can pass. -/
theorem checkMerkleRoot_eq_ok_iff (b : Block) :
    b.checkMerkleRoot = .ok () ↔
      ∃ tree, MerkleTree.ofTxs b.txs = .ok tree ∧ tree.rootHash = b.header.merkleRoot := by
  rw [checkMerkleRoot]
  cases MerkleTree.ofTxs b.txs with
  | error error => simp
  | ok tree => simp

end Block

namespace MerkleTree

/-- **The Merkle root commits to the list.** Lists of one length with equal roots are
equal. So a block whose transactions are exchanged for as many others, with other ids,
does not pass with the old root. Both hold unless something that is hashed for the one
tree collides with something that is hashed for the other. -/
theorem root_commits_to_list :
    (∀ ids ids' : List Digest, ids ≠ [] → ids.length = ids'.length →
      ∃ tree tree', ofIds ids = .ok tree ∧ ofIds ids' = .ok tree' ∧
        (tree.rootHash = tree'.rootHash →
          ids = ids' ∨ Digest.Collision tree.root.hashed tree'.root.hashed)) ∧
    ∀ b b' : Block, b.checkMerkleRoot = .ok () → b'.header.merkleRoot = b.header.merkleRoot →
      b.txs.length = b'.txs.length → b.txs.map Tx.id ≠ b'.txs.map Tx.id →
      ∃ tree tree', ofTxs b.txs = .ok tree ∧ ofTxs b'.txs = .ok tree' ∧
        (b'.checkMerkleRoot = .error .invalidMerkleRoot ∨
          Digest.Collision tree.root.hashed tree'.root.hashed) := by
  constructor
  · intro ids ids' hids hlength
    obtain ⟨tree, htree⟩ := exists_ofIds hids
    obtain ⟨tree', htree'⟩ := exists_ofIds_of_length_eq htree hlength
    exact ⟨tree, tree', htree, htree', eq_or_collision_of_rootHash_eq hlength htree htree'⟩
  · intro b b' hpasses hsameRoot hlength hdiffer
    obtain ⟨tree, htree, hroot⟩ := b.checkMerkleRoot_eq_ok_iff.mp hpasses
    have hlength' : (b.txs.map Tx.id).length = (b'.txs.map Tx.id).length := by simpa using hlength
    obtain ⟨tree', htree'⟩ := exists_ofIds_of_length_eq htree hlength'
    refine ⟨tree, tree', htree, htree', ?_⟩
    rw [b'.checkMerkleRoot_of_ofTxs htree', hsameRoot, ← hroot]
    by_cases hroots : tree.rootHash = tree'.rootHash
    · exact .inr
        ((eq_or_collision_of_rootHash_eq hlength' htree htree' hroots).resolve_left hdiffer)
    · exact .inl (if_neg (Ne.symm hroots))

/-! ### A block with two transactions swapped -/

namespace Sample

def tx (value : UInt64) : Tx := ⟨0, [], [⟨value, .empty⟩], 0⟩

/-- The tree over three ids. The last one moves up a level. -/
def tree (a b c : Digest) : MerkleTree :=
  ⟨[a, b, c], ((MerkleNode.leaf a).join (.leaf b)).join (.leaf c)⟩

theorem ofIds_three (a b c : Digest) : ofIds [a, b, c] = .ok (tree a b c) := by
  simp [ofIds, MerkleNode.ofIds?, PairFold.fold, PairFold.level, tree]

/-- A header that commits to the transactions 1, 2 and 3. -/
def header : Header :=
  ⟨1, .zero, (tree (tx 1).id (tx 2).id (tx 3).id).rootHash, 0, 7, .zero, .zero, 0, .zero, 0, .zero⟩

def given : Block := ⟨header, [tx 1, tx 2, tx 3]⟩

def swapped : Block := ⟨header, [tx 2, tx 1, tx 3]⟩

theorem ofTxs_given : ofTxs given.txs = .ok (tree (tx 1).id (tx 2).id (tx 3).id) :=
  ofIds_three _ _ _

theorem ofTxs_swapped : ofTxs swapped.txs = .ok (tree (tx 2).id (tx 1).id (tx 3).id) :=
  ofIds_three _ _ _

theorem given_passes : given.checkMerkleRoot = .ok () := by
  rw [given.checkMerkleRoot_of_ofTxs ofTxs_given]
  exact if_pos rfl

theorem ids_differ : given.txs.map Tx.id ≠ swapped.txs.map Tx.id := by
  decide +kernel

theorem no_collision {t t' : MerkleTree} (h : ofTxs given.txs = .ok t)
    (h' : ofTxs swapped.txs = .ok t') : ¬ Digest.Collision t.root.hashed t'.root.hashed := by
  rw [ofTxs_given, Except.ok.injEq] at h
  rw [ofTxs_swapped, Except.ok.injEq] at h'
  rw [← h, ← h']
  unfold Digest.Collision
  decide +kernel

end Sample

open Sample in
theorem root_commits_to_list_sample :
    (∃ t t', ofTxs given.txs = .ok t ∧ ofTxs swapped.txs = .ok t' ∧ t.rootHash ≠ t'.rootHash) ∧
      given.checkMerkleRoot = .ok () ∧
      swapped.checkMerkleRoot = .error .invalidMerkleRoot := by
  obtain ⟨hlists, hblocks⟩ := root_commits_to_list
  obtain ⟨t, t', ht, ht', hcommits⟩ :=
    hlists (given.txs.map Tx.id) (swapped.txs.map Tx.id) (by simp [given])
      (by simp [given, swapped])
  obtain ⟨u, u', hu, hu', hrejects⟩ := hblocks given swapped given_passes rfl rfl ids_differ
  refine ⟨⟨t, t', ht, ht', ?_⟩, given_passes, hrejects.resolve_right (no_collision hu hu')⟩
  exact fun hroots => (hcommits hroots).elim ids_differ (no_collision ht ht')

end MerkleTree

end UtxoLedger
