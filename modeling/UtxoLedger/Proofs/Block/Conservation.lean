/-
UtxoLedger.Proofs.Block.Conservation — no transaction behind the coinbase makes
money.

`total_apply_le` is the step: a transaction that was found valid on a map leaves
at most the value that it found there. Its parts meet in one inequality. The
inputs name distinct outpoints, each of them in the map, so erasing them removes
exactly the sum that the checked 64-bit sum stands for; the outputs add at most
their exact sum; and the one covers the other.

`total_working_le` is the run over a block, on the maps of
`UtxoLedger.Proofs.Block.Progress`. Only the first transaction is not judged, and
it adds at most what it creates (`minted`).
-/
import UtxoLedger.Proofs.Block.Progress
import UtxoLedger.Proofs.Outputs.Total

namespace UtxoLedger

/-! ## One transaction -/

/-- A transaction that is valid on a map takes at least as much out of it as it
puts in. -/
theorem Tx.total_apply_le {tx : Tx} {outputs : OutputMap} {blockNum : UInt64}
    (h : (tx.verify outputs .empty).1 = .ok ()) :
    (tx.apply outputs blockNum).total ≤ outputs.total := by
  obtain ⟨-, -, hdistinct, -, hvalues⟩ := (tx.verify_eq_ok_iff outputs .empty).mp h
  obtain ⟨-, -, -, hcovers⟩ := (tx.checkValues_eq_ok_iff outputs).mp hvalues
  have hspent := OutputMap.total_eraseAll tx.outpoints outputs hdistinct
  have hcreated := OutputMap.total_insertTx_le (outputs.eraseAll tx.outpoints) tx blockNum
  rw [Tx.spentTotal] at hcovers
  show ((outputs.eraseAll tx.outpoints).insertTx tx blockNum).total ≤ _
  omega

namespace Block

/-- The exact sum of the values that the first transaction creates. -/
def minted (b : Block) : Nat :=
  match b.txs with
  | [] => 0
  | first :: _ => first.outputTotal

/-- The first transaction spends nothing and adds what it mints. -/
theorem total_working_one_le (b : Block) (outputs : OutputMap) :
    (b.working outputs 1).total ≤ outputs.total + b.minted := by
  unfold minted
  split
  · rename_i hnil
    simp [working, hnil]
  · rename_i first others htxs
    have hfirst : b.txs[0]? = some first := by rw [htxs]; rfl
    rw [working_first outputs hfirst]
    exact OutputMap.total_insertTx_le outputs first b.header.blockNum

/-! ## The run over a block -/

/-- Every later transaction was verified, so it makes no more than it spends. -/
theorem total_working_succ_le {b : Block} {outputs : OutputMap}
    (h : b.checkTxs outputs = .ok ()) {i : Nat} (hi : 0 < i) :
    (b.working outputs (i + 1)).total ≤ (b.working outputs i).total := by
  by_cases hlen : i < b.txs.length
  · have hat : b.txs[i]? = some b.txs[i] := List.getElem?_eq_getElem hlen
    have hvalid := (b.checkTxs_eq_ok_iff outputs).mp h i _ hi hat
    rw [working_succ outputs hi hat]
    exact Tx.total_apply_le ((Tx.verifyInBlock_eq_ok_iff _ _ _).mp hvalid).1
  · exact Nat.le_of_eq (congrArg OutputMap.total (working_of_length_le outputs (by omega)))

theorem total_working_le {b : Block} {outputs : OutputMap} (h : b.checkTxs outputs = .ok ()) :
    ∀ i, (b.working outputs i).total ≤ outputs.total + b.minted
  | 0 => Nat.le_add_right _ _
  | i + 1 => by
      by_cases hi : i = 0
      · subst hi
        exact b.total_working_one_le outputs
      · exact Nat.le_trans (total_working_succ_le h (by omega)) (total_working_le h i)

/-- **No inflation inside a block**: an accepted run over the transactions ends
on a map worth at most the map at the start and the first transaction's outputs,
and no later transaction makes the map before it worth more. -/
theorem no_inflation {b : Block} {outputs : OutputMap} (h : b.checkTxs outputs = .ok ()) :
    b.applyTxs outputs = .ok (b.working outputs b.txs.length) ∧
      (b.working outputs b.txs.length).total ≤ outputs.total + b.minted ∧
      ∀ i, 0 < i → (b.working outputs (i + 1)).total ≤ (b.working outputs i).total :=
  ⟨(b.applyTxs_eq_ok_iff outputs _).mpr ⟨(b.checkTxs_eq_ok_iff outputs).mp h, rfl⟩,
    total_working_le h _, fun _ hi => total_working_succ_le h hi⟩

/-! ## A block of two transactions

The second transaction spends an output of the map and the coinbase's output, and
leaves a fee of 5. Both outputs ask for nothing. -/

namespace Sample

def anyone : Script := ⟨(Chunk.ofSmallInt? 1).toList⟩

def coinbase : Tx := .coinbase .empty ⟨50, anyone⟩ 7

def known : Outpoint := ⟨.zero, 0⟩

def spend : Tx :=
  ⟨0, [⟨known, .empty, 0⟩, ⟨⟨coinbase.id, 0⟩, .empty, 0⟩], [⟨30, anyone⟩, ⟨20, anyone⟩], 7⟩

def outputs : OutputMap := OutputMap.empty.insert known ⟨⟨5, anyone⟩, 3⟩

def root : Digest :=
  match MerkleTree.ofTxs [coinbase, spend] with
  | .ok tree => tree.rootHash
  | .error _ => .zero

def block : Block :=
  ⟨⟨1, .zero, root, 0, 7, .zero, .zero, 0, .zero, 0, .zero⟩, [coinbase, spend]⟩

end Sample

theorem no_inflation_sample :
    Sample.block.checkTxs Sample.outputs = .ok () ∧
      (Sample.block.working Sample.outputs 2).total ≤ Sample.outputs.total + 50 := by
  have h : Sample.block.checkTxs Sample.outputs = .ok () := eq_ok_of_isOk (by decide +kernel)
  exact ⟨h, (no_inflation h).2.1⟩

end Block

end UtxoLedger
