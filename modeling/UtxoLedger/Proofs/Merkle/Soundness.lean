/-
UtxoLedger.Proofs.Merkle.Soundness — what a proof that somebody else made can show.

Whoever makes a proof chooses the sides and the siblings of its path and how long it is.
Read from its end, a path that leads to the root goes down the tree from the root: at
each branch the two hashes below are the ones that the path has there, unless the hash
function fails (`Joined.meets`). This ends in one of two ways.

* The path is used up. The hash that it starts from is then the hash of the node that was
  reached, which may be a leaf or an inner node.
* A leaf is reached and some of the path is left over. What is left over then leads from
  the start to the id in the leaf.

So a verified hash need not be one of the ids (`verified_hash_need_not_be_id`): a leaf is
hashed as an inner node would be, that is not at all, and nothing but the length of the
path tells the levels apart. With the sides of the tree's own proof for a position, the
start is the id at that position (`descend_pathFrom`), however the siblings are chosen.
-/
import Mathlib.Data.List.Induction
import UtxoLedger.Proofs.Merkle.Inclusion

namespace UtxoLedger

open MerkleNode (pairBytes pairHash pairHash_inj)

namespace ProofStep

theorem hashedAlong_append (hash : Digest) (below above : List ProofStep) :
    hashedAlong hash (below ++ above) =
      hashedAlong hash below ++ hashedAlong (below.foldl ProofStep.apply hash) above := by
  induction below generalizing hash with
  | nil => rfl
  | cons step rest ih => simp [hashedAlong, ih]

end ProofStep

namespace MerkleNode

/-! ## Going down -/

/-- Every inner node has two children and the hash over theirs. -/
def Joined : MerkleNode → Prop
  | .leaf _ => True
  | .onlyLeft _ _ | .onlyRight _ _ => False
  | .branch h left right => h = pairHash left.hash right.hash ∧ left.Joined ∧ right.Joined

/-- Only leaves and joined nodes are made. -/
theorem joined_ofIds? {ids : List Digest} {root : MerkleNode} (h : ofIds? ids = some root) :
    root.Joined := by
  refine PairFold.forall_fold (fun hleft hright => ⟨rfl, hleft, hright⟩) ?_ h
  simp [Joined]

/-- The child of a node whose sibling stands on the given side. -/
def child? : MerkleNode → Side → Option MerkleNode
  | .branch _ _ right, .left => some right
  | .branch _ left _, .right => some left
  | _, _ => none

/-- The node that is reached by going down from child to child. -/
def descend (t : MerkleNode) (sides : List Side) : Option MerkleNode := sides.foldlM child? t

theorem descend_append (t : MerkleNode) (sides more : List Side) :
    t.descend (sides ++ more) = (t.descend sides).bind fun u => u.descend more :=
  List.foldlM_append

theorem descend_cons (t : MerkleNode) (side : Side) (sides : List Side) :
    t.descend (side :: sides) = (t.child? side).bind fun u => u.descend sides :=
  List.foldlM_cons

/-- Below a leaf there is nothing. -/
theorem descend_of_isLeaf {t : MerkleNode} (h : t.isLeaf = true) {sides : List Side}
    (hsides : sides ≠ []) : t.descend sides = none := by
  cases sides with
  | nil => exact absurd rfl hsides
  | cons side sides =>
    cases t with
    | leaf hash => rfl
    | _ => cases h

/-- Below a node there are no leaves that are not below the root. -/
theorem leaves_of_descend {t u : MerkleNode} {sides : List Side} (h : t.descend sides = some u) :
    u.leaves ⊆ t.leaves := by
  induction sides generalizing t with
  | nil =>
    cases h
    exact List.Subset.refl _
  | cons side sides ih =>
    rw [descend_cons, Option.bind_eq_some_iff] at h
    obtain ⟨child, hchild, hrest⟩ := h
    refine List.Subset.trans (ih hrest) ?_
    cases t with
    | branch hash left right =>
      cases side <;>
      · cases hchild
        simp [leaves]
    | _ => cases hchild

theorem hash_mem_leaves_of_isLeaf {t : MerkleNode} (h : t.isLeaf = true) : t.hash ∈ t.leaves := by
  cases t with
  | leaf hash => exact List.mem_singleton_self hash
  | _ => cases h

/-! ## A path against a tree -/

/-- A path leads from a hash to a node of the tree and on to its root: all of it, unless
that node is a leaf. -/
structure Meets (t : MerkleNode) (hash : Digest) (below above : List ProofStep) (u : MerkleNode) :
    Prop where
  descend_eq : t.descend (above.map ProofStep.side).reverse = some u
  foldl_eq : below.foldl ProofStep.apply hash = u.hash
  ends : below = [] ∨ u.isLeaf = true

/-- One step more at the end of the path, and one branch more above the tree. -/
theorem Meets.step {t child u : MerkleNode} {hash : Digest} {below above : List ProofStep}
    {step : ProofStep} (h : child.Meets hash below above u)
    (hchild : t.child? step.side = some child) :
    t.Meets hash below (above ++ [step]) u where
  descend_eq := by
    rw [List.map_append, List.reverse_append]
    show t.descend (step.side :: (above.map ProofStep.side).reverse) = some u
    rw [descend_cons, hchild, Option.bind_some, h.descend_eq]
  foldl_eq := h.foldl_eq
  ends := h.ends

/-- A path with the sides of a way down to a leaf starts from the hash of that leaf. -/
theorem Meets.eq_of_descend {t u : MerkleNode} {hash id : Digest} {below above : List ProofStep}
    (h : t.Meets hash below above u)
    (hdown : t.descend ((below ++ above).map ProofStep.side).reverse = some (.leaf id)) :
    hash = id := by
  rw [List.map_append, List.reverse_append, descend_append, h.descend_eq, Option.bind_some] at hdown
  by_cases hbelow : below = []
  · subst hbelow
    cases hdown
    exact h.foldl_eq
  · rw [descend_of_isLeaf (h.ends.resolve_left hbelow) (by simpa using hbelow)] at hdown
    cases hdown

/-- A child is joined as well, and hashes nothing that its parent does not. -/
theorem Joined.of_child? {t child : MerkleNode} {side : Side} (ht : t.Joined)
    (h : t.child? side = some child) : child.Joined ∧ child.hashed ⊆ t.hashed := by
  cases t with
  | branch a left right =>
    obtain ⟨-, hleft, hright⟩ := ht
    cases side with
    | left =>
      cases h
      exact ⟨hright, by simp [hashed]⟩
    | right =>
      cases h
      exact ⟨hleft, by simp [hashed]⟩
  | _ => cases h

/-- A step that leads to the hash of a branch leads to it from the child on its side. -/
theorem child?_of_apply_eq {a hash : Digest} {left right : MerkleNode} {step : ProofStep}
    (h : ProofStep.apply hash step = pairHash left.hash right.hash) :
    (∃ child, (branch a left right).child? step.side = some child ∧ hash = child.hash) ∨
      Digest.Collision [step.bytes hash] [pairBytes left.hash right.hash] := by
  obtain ⟨side, sibling⟩ := step
  cases side with
  | left =>
    refine (pairHash_inj h).imp_left ?_
    rintro ⟨-, hright⟩
    exact ⟨right, rfl, hright⟩
  | right =>
    refine (pairHash_inj h).imp_left ?_
    rintro ⟨hleft, -⟩
    exact ⟨left, rfl, hleft⟩

/-- **A path that leads to the top of a tree goes down in it**, by induction on the path
from its end. -/
theorem Joined.meets {t : MerkleNode} (ht : t.Joined) {hash : Digest} {path : List ProofStep}
    (h : path.foldl ProofStep.apply hash = t.hash) :
    (∃ below above u, path = below ++ above ∧ t.Meets hash below above u) ∨
      Digest.Collision (ProofStep.hashedAlong hash path) t.hashed := by
  induction path using List.reverseRecOn generalizing t with
  | nil => exact .inl ⟨[], [], t, rfl, ⟨rfl, h, .inl rfl⟩⟩
  | append_singleton init step ih =>
    cases t with
    | leaf a => exact .inl ⟨_, [], .leaf a, (List.append_nil _).symm, ⟨rfl, h, .inr rfl⟩⟩
    | onlyLeft => exact ht.elim
    | onlyRight => exact ht.elim
    | branch a left right =>
      -- the step at the end of the path leads to the top, so it is taken off first
      have htop : ProofStep.apply (init.foldl ProofStep.apply hash) step =
          pairHash left.hash right.hash := by
        rw [List.foldl_append] at h
        exact h.trans ht.1
      rw [ProofStep.hashedAlong_append]
      rcases child?_of_apply_eq htop with ⟨child, hchild, hhash⟩ | hcollision
      · obtain ⟨hjoined, hsub⟩ := ht.of_child? hchild
        rcases ih hjoined hhash with ⟨below, above, u, rfl, hmeets⟩ | hcollision
        · exact .inl ⟨below, above ++ [step], u, List.append_assoc _ _ _, hmeets.step hchild⟩
        · exact .inr (hcollision.mono (List.subset_append_left _ _) hsub)
      · exact .inr (hcollision.mono (by simp [ProofStep.hashedAlong]) (by simp [hashed]))

/-! ## The tree's own paths -/

/-- The node at a position is the child, on the side away from its sibling, of the node
one level up. -/
theorem descend_half {nodes : List MerkleNode} {i : Nat} {u : MerkleNode}
    (h : nodes[i]? = some u) :
    ∃ v, (PairFold.level join nodes)[i / 2]? = some v ∧
      v.descend ((siblingAt? (nodes.map hash) i).toList.map ProofStep.side).reverse = some u := by
  rw [siblingAt?, List.getElem?_map, List.getElem?_map]
  rcases Nat.mod_two_eq_zero_or_one i with heven | hodd
  · rw [PairFold.getElem?_level_of_even join heven h, if_neg (by omega)]
    cases nodes[i + 1]? with
    | none => exact ⟨u, rfl, rfl⟩
    | some next => exact ⟨u.join next, rfl, rfl⟩
  · obtain ⟨previous, hprevious, hup⟩ := PairFold.getElem?_level_of_odd join hodd h
    rw [hup, if_pos hodd, hprevious]
    exact ⟨previous.join u, rfl, rfl⟩

/-- The path from a position leads down to the node at that position. -/
theorem descend_pathFrom {nodes : List MerkleNode} {i : Nat} {t u : MerkleNode}
    (ht : PairFold.fold join nodes = some t) (hu : nodes[i]? = some u) :
    t.descend ((pathFrom (nodes.map hash) i).map ProofStep.side).reverse = some u := by
  fun_induction PairFold.fold join nodes generalizing i u with
  | case1 nodes hshort =>
    obtain ⟨hlt, -⟩ := List.getElem?_eq_some_iff.mp hu
    have hfirst : i = 0 := by omega
    rw [hfirst, ← List.head?_eq_getElem?, ht] at hu
    rw [pathFrom, if_pos (by simpa using hshort)]
    exact hu
  | case2 nodes hlong ih =>
    obtain ⟨v, hv, hdown⟩ := descend_half hu
    rw [pathFrom, if_neg (by simpa using hlong), ← PairFold.level_map hash_join, List.map_append,
      List.reverse_append, descend_append, ih ht hv, Option.bind_some, hdown]

end MerkleNode

namespace MerkleTree

variable {ids : List Digest}

/-- The tree's own proof for a position leads down to the leaf there. -/
theorem descend_proof? {tree : MerkleTree} (h : ofIds ids = .ok tree) {i : Nat}
    {own : MerkleProof} (hown : tree.proof? i = some own) {id : Digest} (hid : ids[i]? = some id) :
    tree.root.descend (own.path.map ProofStep.side).reverse = some (.leaf id) := by
  obtain ⟨-, hroot⟩ := ofIds_eq_ok_iff.mp h
  obtain ⟨-, rfl⟩ := (proof?_eq_some_iff h).mp hown
  have hleaf : (ids.map MerkleNode.leaf)[i]? = some (.leaf id) := by
    rw [List.getElem?_map, hid, Option.map_some]
  have hdescend := MerkleNode.descend_pathFrom hroot hleaf
  rwa [MerkleNode.map_hash_leaf] at hdescend

/-- Where a hash stands from which a path leads to the root over some ids. -/
inductive Placed (ids : List Digest) (root : MerkleNode) (hash : Digest) (path : List ProofStep) :
    Prop
  /-- It is one of the ids. -/
  | id (hid : hash ∈ ids)
  /-- It is the hash of the inner node to which the path goes down. -/
  | inner {node : MerkleNode}
      (hdown : root.descend (path.map ProofStep.side).reverse = some node)
      (hinner : node.isLeaf = false) (hhash : node.hash = hash)
  /-- A first part of the path leads from it to one of the ids, which is then the hash of
  the last 64 bytes that were hashed on that part. -/
  | below {below above : List ProofStep} (hpath : path = below ++ above) (hbelow : below ≠ [])
      (hid : below.foldl ProofStep.apply hash ∈ ids)

/-- Where the path meets the tree decides between the two places for the hash. -/
theorem placed_of_meets {root node : MerkleNode} {hash : Digest} {path below above : List ProofStep}
    (hroot : MerkleNode.ofIds? ids = some root) (hpath : path = below ++ above)
    (h : root.Meets hash below above node) : Placed ids root hash path := by
  cases hleaf : node.isLeaf with
  | true =>
    have hid : below.foldl ProofStep.apply hash ∈ ids := by
      rw [← MerkleNode.leaves_ofIds? hroot, h.foldl_eq]
      exact MerkleNode.leaves_of_descend h.descend_eq (MerkleNode.hash_mem_leaves_of_isLeaf hleaf)
    by_cases hbelow : below = []
    · rw [hbelow] at hid
      exact .id hid
    · exact .below hpath hbelow hid
  | false =>
    have hbelow : below = [] := h.ends.resolve_right (by simp [hleaf])
    subst hbelow
    rw [List.nil_append] at hpath
    exact .inner (hpath ▸ h.descend_eq) hleaf h.foldl_eq.symm

/-- **What a verified hash is.** A proof from anywhere, with any path, verifies for no
hash but these: an id of the list; the hash of the inner node to which its path goes
down; a hash from which a first part of its path leads to an id. With the sides of the
tree's own proof for a position it verifies for the id there and no other hash. All this
unless something that is hashed to verify it collides with something that is hashed for
the tree. -/
theorem verified_hash_is_placed (h : ids ≠ []) :
    ∃ tree, ofIds ids = .ok tree ∧ ∀ (proof : MerkleProof) (hash : Digest),
      proof.verify hash tree.rootHash = true →
        (Placed ids tree.root hash proof.path ∨
          Digest.Collision (proof.hashed hash) tree.root.hashed) ∧
        ∀ i own, tree.proof? i = some own →
          proof.path.map ProofStep.side = own.path.map ProofStep.side →
            ids[i]? = some hash ∨ Digest.Collision (proof.hashed hash) tree.root.hashed := by
  obtain ⟨tree, htree⟩ := exists_ofIds h
  obtain ⟨-, hroot⟩ := ofIds_eq_ok_iff.mp htree
  refine ⟨tree, htree, fun proof hash hverify => ?_⟩
  rw [MerkleProof.verify_eq_true_iff] at hverify
  rcases (MerkleNode.joined_ofIds? hroot).meets hverify with
    ⟨below, above, node, hpath, hmeets⟩ | hcollision
  · refine ⟨.inl (placed_of_meets hroot hpath hmeets), ?_⟩
    intro i own hown hsides
    obtain ⟨hlt, -⟩ := (proof?_eq_some_iff htree).mp hown
    have hdown := descend_proof? htree hown (List.getElem?_eq_getElem hlt)
    rw [← hsides, hpath] at hdown
    rw [hmeets.eq_of_descend hdown]
    exact .inl (List.getElem?_eq_getElem hlt)
  · exact ⟨.inr hcollision, fun _ _ _ _ => .inr hcollision⟩

/-! ### One root over three ids and over two

The root over the leaves 1, 2 and 3 is also the root over the node above 1 and 2, taken
as an id, and the leaf 3. -/

namespace Sample

/-- The hash over the first two leaves. -/
def firstPair : Digest := pairHash (leafOf 1) (leafOf 2)

def rootOfThree : MerkleNode := (tree (leafOf 1) (leafOf 2) (leafOf 3)).root

def rootOfTwo : MerkleNode := (MerkleNode.leaf firstPair).join (.leaf (leafOf 3))

/-- The way up from the inner node. -/
def fromInner : MerkleProof := ⟨0, [⟨.right, leafOf 3⟩]⟩

/-- The way up from the first leaf. -/
def fromFirst : MerkleProof := ⟨0, [⟨.right, leafOf 2⟩, ⟨.right, leafOf 3⟩]⟩

/-- The way up from the last leaf, with the position left wrong. -/
def fromLast : MerkleProof := ⟨0, [⟨.left, firstPair⟩]⟩

theorem ofIds_threeIds : ofIds threeIds = .ok ⟨threeIds, rootOfThree⟩ := ofIds_three _ _ _

theorem ofIds_two : ofIds [firstPair, leafOf 3] = .ok ⟨[firstPair, leafOf 3], rootOfTwo⟩ := by
  simp [ofIds, MerkleNode.ofIds?, PairFold.fold, PairFold.level, rootOfTwo]

theorem verify_fromInner : fromInner.verify firstPair rootOfThree.hash = true := by
  rw [MerkleProof.verify_eq_true_iff]
  rfl

theorem verify_fromFirst : fromFirst.verify (leafOf 1) rootOfTwo.hash = true := by
  rw [MerkleProof.verify_eq_true_iff]
  rfl

theorem verify_fromLast : fromLast.verify (leafOf 3) rootOfThree.hash = true := by
  rw [MerkleProof.verify_eq_true_iff]
  rfl

/-- The strings that are hashed along the path are hashed in the tree as well. -/
theorem fromInner_apart :
    ¬ Digest.Collision (fromInner.hashed firstPair) rootOfThree.hashed := by
  unfold Digest.Collision
  decide +kernel

theorem fromFirst_apart :
    ¬ Digest.Collision (fromFirst.hashed (leafOf 1)) rootOfTwo.hashed := by
  unfold Digest.Collision
  decide +kernel

theorem fromLast_apart :
    ¬ Digest.Collision (fromLast.hashed (leafOf 3)) rootOfThree.hashed := by
  unfold Digest.Collision
  decide +kernel

end Sample

open Sample in
theorem verified_hash_is_placed_sample :
    threeIds ≠ [] ∧
      fromInner.verify firstPair rootOfThree.hash = true ∧
      Placed threeIds rootOfThree firstPair fromInner.path ∧
      fromLast.verify (leafOf 3) rootOfThree.hash = true ∧
      threeIds[2]? = some (leafOf 3) := by
  have hids : threeIds ≠ [] := by simp [threeIds]
  obtain ⟨tree, htree, hplaced⟩ := verified_hash_is_placed hids
  obtain rfl := Except.ok.inj (ofIds_threeIds.symm.trans htree)
  obtain ⟨hinner, -⟩ := hplaced fromInner firstPair verify_fromInner
  obtain ⟨-, hown⟩ := hplaced fromLast (leafOf 3) verify_fromLast
  have hlast : (⟨threeIds, rootOfThree⟩ : MerkleTree).proof? 2 = some ⟨2, pathFrom threeIds 2⟩ :=
    (proof?_eq_some_iff htree).mpr ⟨by simp [threeIds], rfl⟩
  have hsides : fromLast.path.map ProofStep.side = (pathFrom threeIds 2).map ProofStep.side := by
    rw [path_of_last]
    rfl
  exact ⟨hids, verify_fromInner, hinner.resolve_right fromInner_apart, verify_fromLast,
    (hown 2 _ hlast hsides).resolve_right fromLast_apart⟩

open Sample in
/-- A verified hash need not be an id: an inner node of the tree over three ids verifies,
and so does the first leaf below it against the tree over two ids. Nothing collides. -/
theorem verified_hash_need_not_be_id :
    (ofIds threeIds = .ok ⟨threeIds, rootOfThree⟩ ∧
      fromInner.verify firstPair rootOfThree.hash = true ∧ firstPair ∉ threeIds ∧
      ¬ Digest.Collision (fromInner.hashed firstPair) rootOfThree.hashed) ∧
    (ofIds [firstPair, leafOf 3] = .ok ⟨[firstPair, leafOf 3], rootOfTwo⟩ ∧
      fromFirst.verify (leafOf 1) rootOfTwo.hash = true ∧ leafOf 1 ∉ [firstPair, leafOf 3] ∧
      ¬ Digest.Collision (fromFirst.hashed (leafOf 1)) rootOfTwo.hashed) := by
  have hinner : firstPair ∉ threeIds := by decide +kernel
  have hfirst : leafOf 1 ∉ [firstPair, leafOf 3] := by decide +kernel
  exact ⟨⟨ofIds_threeIds, verify_fromInner, hinner, fromInner_apart⟩,
    ⟨ofIds_two, verify_fromFirst, hfirst, fromFirst_apart⟩⟩

end MerkleTree

end UtxoLedger
