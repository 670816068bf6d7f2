/-
UtxoLedger.Proofs.Merkle.Inclusion — proofs that an id is in the list.

* Every id has a proof that verifies (`foldl_pathFrom`). The proof is computed from the
  hashes of each level and the tree from nodes, but both go up by `PairFold.level`:
  one level up, a position halves and its hash is joined with the sibling, if there is
  one (`getElem?_level_half`). An id that stands last on an odd level has no sibling
  there and takes part in no hash.
* A proof verifies for one id only. Two paths with the same sides that end in one hash
  start in one hash and have the same siblings, unless the hash function fails on the way
  (`eq_or_collision_of_foldl_eq`). For one proof and two leaves this is used with the same
  path twice.
-/
import UtxoLedger.Proofs.Merkle.Commitment

namespace UtxoLedger

open MerkleNode (pairBytes pairHash pairBytes_inj)

/-! ## What is hashed along a path -/

namespace ProofStep

/-- The 64 bytes that are hashed for the node one level up from `hash`. -/
def bytes (hash : Digest) (step : ProofStep) : Bytes :=
  match step.side with
  | .left => pairBytes step.sibling hash
  | .right => pairBytes hash step.sibling

theorem apply_eq (hash : Digest) (step : ProofStep) :
    ProofStep.apply hash step = .double (step.bytes hash) := by
  unfold ProofStep.apply bytes
  cases step.side <;> rfl

/-- With the sibling on the same side, the bytes determine both hashes. -/
theorem bytes_inj {hash hash' : Digest} {step step' : ProofStep} (hside : step.side = step'.side)
    (h : step.bytes hash = step'.bytes hash') : hash = hash' ∧ step = step' := by
  obtain ⟨side, sibling⟩ := step
  obtain ⟨side', sibling'⟩ := step'
  cases hside
  cases side with
  | left =>
    obtain ⟨rfl, rfl⟩ := pairBytes_inj h
    exact ⟨rfl, rfl⟩
  | right =>
    obtain ⟨rfl, rfl⟩ := pairBytes_inj h
    exact ⟨rfl, rfl⟩

/-- The byte strings that are hashed on the way up from a hash. -/
def hashedAlong : Digest → List ProofStep → List Bytes
  | _, [] => []
  | hash, step :: rest => step.bytes hash :: hashedAlong (ProofStep.apply hash step) rest

/-- Two ways up with the same sides that end in one hash. -/
theorem eq_or_collision_of_foldl_eq {path path' : List ProofStep}
    (hsides : path.map side = path'.map side) {hash hash' : Digest}
    (h : path.foldl ProofStep.apply hash = path'.foldl ProofStep.apply hash') :
    (hash = hash' ∧ path = path') ∨
      Digest.Collision (hashedAlong hash path) (hashedAlong hash' path') := by
  induction path generalizing path' hash hash' with
  | nil =>
    cases path' with
    | nil => exact .inl ⟨h, rfl⟩
    | cons step' rest' => cases hsides
  | cons step rest ih =>
    cases path' with
    | nil => cases hsides
    | cons step' rest' =>
      rw [List.map_cons, List.map_cons, List.cons.injEq] at hsides
      rcases ih hsides.2 h with ⟨hup, rfl⟩ | hcollision
      · by_cases hbytes : step.bytes hash = step'.bytes hash'
        · obtain ⟨rfl, rfl⟩ := bytes_inj hsides.1 hbytes
          exact .inl ⟨rfl, rfl⟩
        · rw [apply_eq, apply_eq] at hup
          exact .inr ⟨_, List.mem_cons_self, _, List.mem_cons_self, hbytes, hup⟩
      · exact .inr (hcollision.mono (List.subset_cons_self _ _) (List.subset_cons_self _ _))

end ProofStep

/-- The byte strings that are hashed to check a proof for a leaf. -/
def MerkleProof.hashed (proof : MerkleProof) (leaf : Digest) : List Bytes :=
  ProofStep.hashedAlong leaf proof.path

theorem MerkleProof.verify_eq_true_iff (proof : MerkleProof) (leaf root : Digest) :
    proof.verify leaf root = true ↔ proof.path.foldl ProofStep.apply leaf = root := by
  rw [verify, beq_iff_eq]

/-! ## The way up from a position -/

/-- One level up from a position stands its hash joined with the sibling, or the hash
itself where there is none. -/
theorem getElem?_level_half {hashes : List Digest} {position : Nat} {hash : Digest}
    (h : hashes[position]? = some hash) :
    (PairFold.level pairHash hashes)[position / 2]? =
      some ((siblingAt? hashes position).toList.foldl ProofStep.apply hash) := by
  rw [siblingAt?]
  rcases Nat.mod_two_eq_zero_or_one position with heven | hodd
  · rw [PairFold.getElem?_level_of_even pairHash heven h, if_neg (by omega)]
    cases hashes[position + 1]? <;> rfl
  · obtain ⟨sibling, hsibling, hup⟩ := PairFold.getElem?_level_of_odd pairHash hodd h
    rw [hup, if_pos hodd, hsibling]
    rfl

/-- The path from a position leads to the hash at the top. -/
theorem foldl_pathFrom {hashes : List Digest} {position : Nat} {hash top : Digest}
    (h : hashes[position]? = some hash) (htop : PairFold.fold pairHash hashes = some top) :
    (pathFrom hashes position).foldl ProofStep.apply hash = top := by
  fun_induction pathFrom hashes position generalizing hash with
  | case1 hashes position hshort =>
    rw [PairFold.fold, if_pos hshort] at htop
    obtain ⟨hlt, -⟩ := List.getElem?_eq_some_iff.mp h
    have hfirst : position = 0 := by omega
    rw [hfirst, ← List.head?_eq_getElem?, htop] at h
    exact (Option.some.inj h).symm
  | case2 hashes position hlong ih =>
    rw [PairFold.fold, if_neg hlong] at htop
    rw [List.foldl_append]
    exact ih (getElem?_level_half h) htop

namespace MerkleNode

theorem map_hash_leaf (ids : List Digest) : (ids.map leaf).map MerkleNode.hash = ids := by
  rw [List.map_map]
  exact List.map_id ids

/-- Folding the ids gives the root's hash. -/
theorem fold_pairHash_of_ofIds? {ids : List Digest} {root : MerkleNode}
    (h : ofIds? ids = some root) : PairFold.fold pairHash ids = some root.hash := by
  have hfold := PairFold.fold_map hash_join (ids.map leaf)
  rw [map_hash_leaf] at hfold
  rw [← hfold]
  exact congrArg (Option.map MerkleNode.hash) h

end MerkleNode

namespace MerkleTree

section Proofs

variable {ids : List Digest} {tree : MerkleTree}

/-- There is a proof at every position of the list and at no other. -/
theorem proof?_eq_some_iff (h : ofIds ids = .ok tree) {i : Nat} {proof : MerkleProof} :
    tree.proof? i = some proof ↔ i < ids.length ∧ proof = ⟨i, pathFrom ids i⟩ := by
  obtain ⟨rfl, -⟩ := ofIds_eq_ok_iff.mp h
  rw [proof?]
  split
  · rename_i hlt
    simp [hlt, eq_comm]
  · rename_i hge
    simp [hge]

/-- The proof at a position verifies for the id there. -/
theorem verify_proof? (h : ofIds ids = .ok tree) {i : Nat} {proof : MerkleProof}
    (hproof : tree.proof? i = some proof) {id : Digest} (hid : ids[i]? = some id) :
    proof.verify id tree.rootHash = true := by
  obtain ⟨-, hroot⟩ := ofIds_eq_ok_iff.mp h
  obtain ⟨-, rfl⟩ := (proof?_eq_some_iff h).mp hproof
  rw [MerkleProof.verify_eq_true_iff]
  exact foldl_pathFrom hid (MerkleNode.fold_pairHash_of_ofIds? hroot)

/-- **Proofs are complete and bind the leaf.** There is a proof for each position of the
list. It verifies for the id at that position, and for another hash only if something
that is hashed on the way up from the one collides with something that is hashed on the
way up from the other. -/
theorem proofs_are_complete_and_binding (h : ids ≠ []) :
    ∃ tree, ofIds ids = .ok tree ∧
      (∀ i, (tree.proof? i).isSome = true ↔ i < ids.length) ∧
      ∀ i proof, tree.proof? i = some proof → ∃ id, ids[i]? = some id ∧
        proof.verify id tree.rootHash = true ∧
        ∀ other, other ≠ id → proof.verify other tree.rootHash = false ∨
          Digest.Collision (proof.hashed other) (proof.hashed id) := by
  obtain ⟨tree, htree⟩ := exists_ofIds h
  refine ⟨tree, htree, fun i => ?_, fun i proof hproof => ?_⟩
  · simp [Option.isSome_iff_exists, proof?_eq_some_iff htree]
  · obtain ⟨hlt, -⟩ := (proof?_eq_some_iff htree).mp hproof
    have hverify := verify_proof? htree hproof (List.getElem?_eq_getElem hlt)
    refine ⟨ids[i], List.getElem?_eq_getElem hlt, hverify, ?_⟩
    intro other hne
    rw [MerkleProof.verify_eq_true_iff] at hverify
    by_cases hother : proof.path.foldl ProofStep.apply other = tree.rootHash
    · right
      exact (ProofStep.eq_or_collision_of_foldl_eq rfl (hother.trans hverify.symm)).resolve_left
        fun hsame => hne hsame.1
    · left
      rwa [← Bool.not_eq_true, MerkleProof.verify_eq_true_iff]

end Proofs

/-! ### The last of three ids

It has no sibling on its own level, so its proof has the one step to the root. -/

namespace Sample

def leafOf (n : UInt8) : Digest := .replicate 32 n

def threeIds : List Digest := [leafOf 1, leafOf 2, leafOf 3]

theorem path_of_last : pathFrom threeIds 2 = [⟨.left, pairHash (leafOf 1) (leafOf 2)⟩] := by
  simp [threeIds, pathFrom, siblingAt?, PairFold.level]

end Sample

open Sample in
theorem proofs_are_complete_and_binding_sample :
    threeIds ≠ [] ∧ ∃ tree proof, ofIds threeIds = .ok tree ∧ tree.proof? 2 = some proof ∧
      proof.verify (leafOf 3) tree.rootHash = true ∧
      proof.verify (leafOf 9) tree.rootHash = false := by
  have hids : threeIds ≠ [] := by simp [threeIds]
  obtain ⟨tree, htree, hcomplete, hbinding⟩ := proofs_are_complete_and_binding hids
  obtain ⟨proof, hproof⟩ := Option.isSome_iff_exists.mp ((hcomplete 2).mpr (by simp [threeIds]))
  obtain ⟨leaf, hleaf, hverify, hothers⟩ := hbinding 2 proof hproof
  cases hleaf
  have hne : leafOf 9 ≠ leafOf 3 := by decide
  have hapart : ¬ Digest.Collision (proof.hashed (leafOf 9)) (proof.hashed (leafOf 3)) := by
    obtain ⟨-, rfl⟩ := (proof?_eq_some_iff htree).mp hproof
    rw [MerkleProof.hashed, MerkleProof.hashed, path_of_last]
    unfold Digest.Collision
    decide +kernel
  exact ⟨hids, tree, proof, htree, hproof, hverify, (hothers (leafOf 9) hne).resolve_right hapart⟩

end MerkleTree

end UtxoLedger
