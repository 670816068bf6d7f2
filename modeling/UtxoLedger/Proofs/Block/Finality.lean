/-
UtxoLedger.Proofs.Block.Finality — a block that may be confirmed now may be confirmed
under any later number.

The number of a block is used in two ways that pull apart. Locks are compared with it,
so a later number can only satisfy more of them. But it is also recorded with every
output that the block creates, so outputs spent where they were created do not age.
Two runs over the same transactions therefore work on different maps.

`OutputMap.Renumbered old new` is how the two maps differ: they know the same outputs,
and the number of each is the same in both or `old` in one and `new` in the other. Every
change that a block makes keeps that (`renumbered_insertTx`, `Renumbered.eraseAll`), and
a transaction that is valid on the one map is valid on the other, since validity reads
outputs and no numbers (`Renumbered.valid`). For the ages there are the two cases: a coin
with one number in both is older under the later number, and a coin of the block itself
is spent with a lock of 0 or not at all (`Renumbered.checkLocks`).
-/
import UtxoLedger.Proofs.Block.Locks

namespace UtxoLedger

/-- The same output, recorded with the same number or with the number of the block that
is renumbered. -/
structure Coin.Renumbered (old new : UInt64) (c c' : Coin) : Prop where
  output_eq : c'.output = c.output
  blockNum_eq : c'.blockNum = c.blockNum ∨ c.blockNum = old ∧ c'.blockNum = new

namespace OutputMap

/-- The maps know the same outputs and differ at most in the number that is renumbered. -/
def Renumbered (old new : UInt64) (m m' : OutputMap) : Prop :=
  ∀ o, Option.Rel (Coin.Renumbered old new) (m.find? o) (m'.find? o)

namespace Renumbered

variable {old new : UInt64} {m m' : OutputMap}

theorem refl (old new : UInt64) (m : OutputMap) : m.Renumbered old new m := by
  intro o
  cases m.find? o with
  | none => exact .none
  | some coin => exact .some ⟨rfl, Or.inl rfl⟩

/-- What is known of a coin in the other map. -/
theorem find?_eq_some (h : m.Renumbered old new m') {o : Outpoint} {coin : Coin}
    (hcoin : m.find? o = some coin) :
    ∃ coin', m'.find? o = some coin' ∧ coin.Renumbered old new coin' := by
  have ho := h o
  rw [hcoin] at ho
  cases hcoin' : m'.find? o with
  | none =>
    rw [hcoin'] at ho
    cases ho
  | some coin' =>
    rw [hcoin'] at ho
    cases ho with
    | some hrel => exact ⟨coin', rfl, hrel⟩

theorem valueAt_eq (h : m.Renumbered old new m') (o : Outpoint) : m'.valueAt o = m.valueAt o := by
  have ho := h o
  unfold valueAt
  revert ho
  generalize m.find? o = coin
  generalize m'.find? o = coin'
  intro ho
  cases ho with
  | none => rfl
  | some hrel =>
    dsimp only
    rw [hrel.output_eq]

/-! ## Changes of the map -/

theorem insert (h : m.Renumbered old new m') (o : Outpoint) {coin coin' : Coin}
    (hcoin : coin.Renumbered old new coin') :
    (m.insert o coin).Renumbered old new (m'.insert o coin') := by
  intro o'
  rw [find?_insert, find?_insert]
  split
  · exact .some hcoin
  · exact h o'

theorem eraseAll (h : m.Renumbered old new m') (os : List Outpoint) :
    (m.eraseAll os).Renumbered old new (m'.eraseAll os) := by
  intro o
  rw [find?_eraseAll, find?_eraseAll]
  split
  · exact .none
  · exact h o

/-- The outputs of one transaction, in each run with the number of that run. -/
theorem insertOutputs (txId : Digest) : ∀ (outputs : List TxOutput) (index : Nat)
    {m m' : OutputMap}, m.Renumbered old new m' →
      (OutputMap.insertOutputs txId old index outputs m).Renumbered old new
        (OutputMap.insertOutputs txId new index outputs m')
  | [], _, _, _, h => h
  | _ :: rest, index, _, _, h =>
      insertOutputs txId rest (index + 1) (h.insert _ ⟨rfl, Or.inr ⟨rfl, rfl⟩⟩)

theorem insertTx (h : m.Renumbered old new m') (tx : Tx) :
    (m.insertTx tx old).Renumbered old new (m'.insertTx tx new) :=
  insertOutputs tx.id tx.outputs 0 h

theorem apply (h : m.Renumbered old new m') (tx : Tx) :
    (tx.apply m old).Renumbered old new (tx.apply m' new) :=
  (h.eraseAll tx.outpoints).insertTx tx

/-! ## What a transaction sees of the map -/

theorem satisfies (h : m.Renumbered old new m') {tx : Tx} {index : Nat} {input : TxInput}
    (hsatisfied : tx.Satisfies m index input) : tx.Satisfies m' index input := by
  obtain ⟨coin, hcoin, hpush, hunlocks⟩ := hsatisfied
  obtain ⟨coin', hcoin', hrel⟩ := h.find?_eq_some hcoin
  exact ⟨coin', hcoin', hpush, hrel.output_eq ▸ hunlocks⟩

theorem spentTotal_eq (h : m.Renumbered old new m') (tx : Tx) :
    tx.spentTotal m' = tx.spentTotal m := by
  unfold Tx.spentTotal
  rw [funext h.valueAt_eq]

/-- Validity does not depend on when the spent outputs were created. -/
theorem valid (h : m.Renumbered old new m') {tx : Tx} (hvalid : tx.Valid m) : tx.Valid m' where
  hasInput := hvalid.hasInput
  hasOutput := hvalid.hasOutput
  distinct := hvalid.distinct
  satisfied index input hat := h.satisfies (hvalid.satisfied index input hat)
  spentFits := h.spentTotal_eq tx ▸ hvalid.spentFits
  createdFits := hvalid.createdFits
  covers := h.spentTotal_eq tx ▸ hvalid.covers

/-- An age that was reached is reached later. -/
theorem checkLocks (h : m.Renumbered old new m') (hle : old ≤ new) {tx : Tx}
    (hlocks : tx.checkLocks m old = .ok ()) : tx.checkLocks m' new = .ok () := by
  rw [Tx.checkLocks_eq_ok_iff] at hlocks ⊢
  rw [UInt64.le_iff_toNat_le] at hle
  intro input hinput
  obtain ⟨coin, hcoin, hage⟩ := hlocks input hinput
  obtain ⟨coin', hcoin', -, hblockNum⟩ := h.find?_eq_some hcoin
  refine ⟨coin', hcoin', ?_⟩
  rcases hblockNum with hsame | ⟨hold, hnew⟩
  · rw [hsame]
    omega
  · -- created in the block: the lock that `old` reached from itself is 0
    rw [hold] at hage
    rw [hnew]
    omega

theorem verifyInBlock (h : m.Renumbered old new m') (hle : old ≤ new) {tx : Tx}
    (hvalid : tx.verifyInBlock m old = .ok ()) : tx.verifyInBlock m' new = .ok () := by
  rw [Tx.verifyInBlock_eq_ok_iff, Tx.verify_eq_ok_iff_valid] at hvalid ⊢
  exact ⟨h.valid hvalid.1, h.checkLocks hle hvalid.2⟩

end Renumbered

end OutputMap

namespace Block

/-- The block under another number. -/
def atNumber (b : Block) (blockNum : UInt64) : Block :=
  { b with header := { b.header with blockNum := blockNum } }

/-- The two runs are at every position on maps that differ in the block's number only. -/
theorem renumbered_working (b : Block) (outputs : OutputMap) (blockNum : UInt64) : ∀ i : Nat,
    (b.working outputs i).Renumbered b.header.blockNum blockNum
      ((b.atNumber blockNum).working outputs i)
  | 0 => .refl _ _ outputs
  | i + 1 => by
      have ih := b.renumbered_working outputs blockNum i
      have htxs : (b.atNumber blockNum).txs = b.txs := rfl
      rw [working, working, htxs]
      cases b.txs[i]? with
      | none => exact ih
      | some tx =>
        dsimp only
        split
        · exact (OutputMap.Renumbered.refl _ _ outputs).insertTx tx
        · exact ih.apply tx

/-- **Once final, always final.** A block whose transactions may be confirmed under its
number, none of them locked and each valid on what the ones before it left, passes the
same checks on the same map under every later number. -/
theorem final_stays_final {b : Block} {outputs : OutputMap} {later : UInt64}
    (hlater : b.header.blockNum ≤ later) (hfinal : b.checkFinal = .ok ())
    (htxs : b.checkTxs outputs = .ok ()) :
    (b.atNumber later).checkFinal = .ok () ∧ (b.atNumber later).checkTxs outputs = .ok () := by
  constructor
  · rw [checkFinal_eq_ok_iff] at hfinal ⊢
    intro i tx hi hat
    exact Nat.le_trans (hfinal i tx hi hat) (UInt64.le_iff_toNat_le.mp hlater)
  · rw [checkTxs_eq_ok_iff] at htxs ⊢
    intro i tx hi hat
    exact (b.renumbered_working outputs later i).verifyInBlock hlater (htxs i tx hi hat)

open LockSample in
/-- The last number of all. The coin of block 3 has aged, the coinbase's output has not. -/
theorem final_stays_final_sample :
    block.checkFinal = .ok () ∧ block.checkTxs outputs = .ok () ∧
      (block.atNumber 0xffffffffffffffff).checkFinal = .ok () ∧
      (block.atNumber 0xffffffffffffffff).checkTxs outputs = .ok () := by
  have hlater : block.header.blockNum ≤ 0xffffffffffffffff := by decide
  have hfinal : block.checkFinal = .ok () := eq_ok_of_isOk (by decide +kernel)
  have htxs : block.checkTxs outputs = .ok () := eq_ok_of_isOk (by decide +kernel)
  exact ⟨hfinal, htxs, final_stays_final hlater hfinal htxs⟩

end Block

end UtxoLedger
