/-
UtxoLedger.Proofs.Block.Progress — the outputs as they stand before each
transaction of a block.

`Block.working b outputs i` is the map on which position `i` is judged: the
first transaction has only created, each later one has spent and created. The
loop `applyFrom` carries this map without a name; `applyTxs_eq_ok_iff` says that
the loop succeeds exactly when every transaction behind the first is valid on the
map before it, and that it ends on the map behind the last. Everything proved of
accepted blocks reads the positions off that statement.

`verifyInBlock_eq_ok_iff` and `verify_eq_ok_iff` open the checks around the loop.
-/
import UtxoLedger.Proofs.Tx.Checks
import UtxoLedger.Validity.Block

namespace UtxoLedger

namespace Tx

/-- What one valid transaction of a block brings with it. -/
theorem verifyInBlock_eq_ok_iff (tx : Tx) (outputs : OutputMap) (blockNum : UInt64) :
    tx.verifyInBlock outputs blockNum = .ok () ↔
      (tx.verify outputs .empty).1 = .ok () ∧ tx.checkLocks outputs blockNum = .ok () := by
  unfold verifyInBlock
  split <;> simp [*]

end Tx

namespace Block

/-- The outputs before the transaction at position `i`, if the ones before it
are carried out. -/
def working (b : Block) (outputs : OutputMap) : Nat → OutputMap
  | 0 => outputs
  | i + 1 =>
    match b.txs[i]? with
    | none => working b outputs i
    | some tx =>
      if i = 0 then outputs.insertTx tx b.header.blockNum
      else tx.apply (working b outputs i) b.header.blockNum

theorem working_first {b : Block} {tx : Tx} (outputs : OutputMap) (h : b.txs[0]? = some tx) :
    b.working outputs 1 = outputs.insertTx tx b.header.blockNum := by
  simp [working, h]

theorem working_succ {b : Block} {i : Nat} {tx : Tx} (outputs : OutputMap) (hi : 0 < i)
    (h : b.txs[i]? = some tx) :
    b.working outputs (i + 1) = tx.apply (b.working outputs i) b.header.blockNum := by
  rw [working, h]
  exact if_neg (by omega)

theorem working_of_length_le {b : Block} {i : Nat} (outputs : OutputMap) (h : b.txs.length ≤ i) :
    b.working outputs (i + 1) = b.working outputs i := by
  rw [working, List.getElem?_eq_none h]

/-! ## The loop -/

/-- The loop from position `index` on, entered with the map before it. -/
theorem applyFrom_eq_ok_iff (b : Block) (outputs final : OutputMap) :
    ∀ (rest : List Tx) (index : Nat), 0 < index → b.txs.drop index = rest →
      (applyFrom b.header.blockNum index rest (b.working outputs index) = .ok final ↔
        (∀ i tx, index ≤ i → b.txs[i]? = some tx →
            tx.verifyInBlock (b.working outputs i) b.header.blockNum = .ok ()) ∧
          final = b.working outputs (index + rest.length))
  | [], index, _, hdrop => by
      have hlen : b.txs.length ≤ index := List.drop_eq_nil_iff.mp hdrop
      rw [applyFrom, Except.ok.injEq, List.length_nil, Nat.add_zero, eq_comm]
      refine (and_iff_right fun i tx hi hat => ?_).symm
      rw [List.getElem?_eq_none (by omega)] at hat
      cases hat
  | tx :: rest, index, hindex, hdrop => by
      have hat : b.txs[index]? = some tx := by
        rw [← List.head?_drop, hdrop]
        rfl
      have hrest : b.txs.drop (index + 1) = rest := by
        rw [← List.tail_drop, hdrop]
        rfl
      -- behind a transaction the working map is the one that the next position starts from
      have hnext := applyFrom_eq_ok_iff b outputs final rest (index + 1) (Nat.succ_pos _) hrest
      rw [working_succ outputs hindex hat] at hnext
      have hlen : index + (tx :: rest).length = index + 1 + rest.length := by
        rw [List.length_cons]
        omega
      rw [applyFrom, hlen]
      split
      · rename_i error herror
        simp only [reduceCtorEq, false_iff, not_and]
        intro hall
        rw [hall index tx (Nat.le_refl _) hat] at herror
        cases herror
      · rename_i hok
        rw [hnext]
        refine and_congr_left fun _ => ⟨fun hall i tx' hi hat' => ?_, fun hall i tx' hi => ?_⟩
        · rcases Nat.eq_or_lt_of_le hi with rfl | hlt
          · rw [hat] at hat'
            exact Option.some.inj hat' ▸ hok
          · exact hall i tx' hlt hat'
        · exact hall i tx' (Nat.le_of_succ_le hi)

/-- **The loop over a block**: it succeeds exactly when each transaction behind
the first is valid on the outputs before it, and it leaves the outputs behind
the last. -/
theorem applyTxs_eq_ok_iff (b : Block) (outputs final : OutputMap) :
    b.applyTxs outputs = .ok final ↔
      (∀ i tx, 0 < i → b.txs[i]? = some tx →
          tx.verifyInBlock (b.working outputs i) b.header.blockNum = .ok ()) ∧
        final = b.working outputs b.txs.length := by
  unfold applyTxs
  split
  · rename_i hnil
    simp [hnil, working, eq_comm]
  · rename_i first others htxs
    have hfirst : b.txs[0]? = some first := by rw [htxs]; rfl
    have hdrop : b.txs.drop 1 = others := by rw [htxs]; rfl
    have hlen : b.txs.length = 1 + others.length := by
      rw [htxs, List.length_cons, Nat.add_comm]
    rw [← working_first outputs hfirst, hlen]
    exact applyFrom_eq_ok_iff b outputs final others 1 Nat.one_pos hdrop

theorem checkTxs_eq_ok_iff (b : Block) (outputs : OutputMap) :
    b.checkTxs outputs = .ok () ↔
      ∀ i tx, 0 < i → b.txs[i]? = some tx →
        tx.verifyInBlock (b.working outputs i) b.header.blockNum = .ok () := by
  have happly := applyTxs_eq_ok_iff b outputs
  unfold checkTxs
  cases hrun : b.applyTxs outputs with
  | error error =>
    simp only [Except.map, reduceCtorEq, false_iff]
    intro hall
    have := (happly _).mpr ⟨hall, rfl⟩
    rw [hrun] at this
    cases this
  | ok final => simpa [Except.map] using ((happly final).mp hrun).1

/-! ## The checks around the loop -/

theorem verify_eq_ok_iff (b : Block) (outputs : OutputMap) :
    b.verify outputs = .ok () ↔
      b.checkStructure = .ok () ∧ b.checkMerkleRoot = .ok () ∧ b.checkFinal = .ok () ∧
        b.checkTxs outputs = .ok () := by
  unfold verify
  cases hstructure : b.checkStructure <;> cases hroot : b.checkMerkleRoot <;>
    cases hfinal : b.checkFinal <;> simp [bind, Except.bind]

/-- An accepted structure has a coinbase at the front and nowhere else. -/
theorem checkStructure_eq_ok_iff (b : Block) :
    b.checkStructure = .ok () ↔
      ∃ first others, b.txs = first :: others ∧ first.isCoinbase = true ∧
        ∀ tx ∈ others, tx.isCoinbase = false := by
  unfold checkStructure
  split
  · rename_i hnil
    simp [hnil]
  · rename_i first others htxs
    simp only [htxs, List.cons.injEq]
    constructor
    · intro h
      split at h
      · rename_i hfirst
        split at h
        · cases h
        · rename_i hothers
          refine ⟨first, others, ⟨rfl, rfl⟩, hfirst, ?_⟩
          simpa [List.findIdx?_eq_none_iff] using hothers
      · cases h
    · rintro ⟨_, _, ⟨rfl, rfl⟩, hfirst, hothers⟩
      rw [if_pos hfirst, List.findIdx?_eq_none_iff.mpr (by simpa using hothers)]

end Block

end UtxoLedger
