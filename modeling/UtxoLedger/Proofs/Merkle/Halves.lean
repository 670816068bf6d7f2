/-
UtxoLedger.Proofs.Merkle.Halves — the tree over a list, described from its root.

The tree is built from the leaves up, and an odd last node may move up any number of
levels before it is joined. From the root down there is a shorter description: one id is
a leaf; more ids are split behind the greatest power of two below their number, and the
tree is the node over the trees of the two parts (`MerkleNode.ofIds?_eq_join`). As the
parts are shorter, this determines the tree of every list.

The two descriptions are compared in `PairFold.fold_eq_join`, for values of any kind.
-/
import UtxoLedger.Proofs.Merkle.Soundness

namespace UtxoLedger

open PairFold (powersBelow)

namespace MerkleNode

/-- Leaves are counted by the tree as they are listed. -/
theorem length_leaves (t : MerkleNode) : t.leaves.length = t.leafCount := by
  induction t with
  | leaf hash => rfl
  | onlyLeft hash left ih => exact ih
  | onlyRight hash right ih => exact ih
  | branch hash left right ihl ihr => simp [leaves, leafCount, ihl, ihr]

theorem ofIds?_singleton (id : Digest) : ofIds? [id] = some (.leaf id) :=
  PairFold.fold_singleton join (.leaf id)

/-- The trees of the two parts, and the node over them. -/
theorem ofIds?_eq_join {ids : List Digest} {k : Nat} (h : IsGreatest (powersBelow ids.length) k) :
    ∃ left right, ofIds? (ids.take k) = some left ∧ ofIds? (ids.drop k) = some right ∧
      ofIds? ids = some (left.join right) := by
  have hleaves : IsGreatest (powersBelow (ids.map leaf).length) k := by rwa [List.length_map]
  obtain ⟨left, right, hleft, hright, hroot⟩ := PairFold.fold_eq_join join hleaves
  rw [← List.map_take] at hleft
  rw [← List.map_drop] at hright
  exact ⟨left, right, hleft, hright, hroot⟩

/-- **The tree over a list of ids.** Its leaves are the ids in their order, as many as there
are, and every inner node has two children and the hash over theirs. One id is a leaf. Two
ids and more are split behind the greatest power of two below their number, and the root
has the hash over the roots of the two parts. -/
theorem tree_splits_at_power {ids : List Digest} (h : ids ≠ []) :
    ∃ root, ofIds? ids = some root ∧
      root.leaves = ids ∧ root.leafCount = ids.length ∧ root.Joined ∧
      (∀ id, ids = [id] → root = .leaf id) ∧
      (2 ≤ ids.length → ∃ k, IsGreatest (powersBelow ids.length) k ∧
        ∃ left right, ofIds? (ids.take k) = some left ∧ ofIds? (ids.drop k) = some right ∧
          root = left.join right ∧ root.hash = pairHash left.hash right.hash) := by
  obtain ⟨root, hroot⟩ := exists_ofIds? h
  have hleaves := leaves_ofIds? hroot
  refine ⟨root, hroot, hleaves, ?_, joined_ofIds? hroot, ?_, ?_⟩
  · rw [← length_leaves, hleaves]
  · rintro id rfl
    exact Option.some.inj (hroot.symm.trans (ofIds?_singleton id))
  · intro hlength
    obtain ⟨k, hk⟩ := PairFold.exists_isGreatest_powersBelow hlength
    obtain ⟨left, right, hleft, hright, hjoin⟩ := ofIds?_eq_join hk
    cases hroot.symm.trans hjoin
    exact ⟨k, hk, left, right, hleft, hright, rfl, hash_join left right⟩

/-! ### Five ids

The last one moves up two levels and is joined with the tree over the four others. -/

namespace HalvesSample

def fiveIds : List Digest := [1, 2, 3, 4, 5].map (Fixed.replicate 32)

theorem isGreatest_four : IsGreatest (powersBelow fiveIds.length) 4 := by
  refine ⟨⟨⟨2, rfl⟩, by decide⟩, ?_⟩
  rintro k ⟨-, hlt⟩
  exact Nat.le_of_lt_succ hlt

end HalvesSample

open HalvesSample in
theorem tree_splits_at_power_sample :
    fiveIds ≠ [] ∧ ∃ root left, ofIds? fiveIds = some root ∧ ofIds? (fiveIds.take 4) = some left ∧
      root = left.join (.leaf (.replicate 32 5)) ∧ root.leafCount = 5 := by
  have hids : fiveIds ≠ [] := by simp [fiveIds]
  obtain ⟨root, hroot, -, hcount, -, -, hsplit⟩ := tree_splits_at_power hids
  obtain ⟨k, hk, left, right, hleft, hright, hjoin, -⟩ := hsplit (by decide)
  obtain rfl := hk.unique isGreatest_four
  cases hright.symm.trans (ofIds?_singleton (.replicate 32 5))
  exact ⟨hids, root, left, hroot, hleft, hjoin, hcount⟩

end MerkleNode

end UtxoLedger
