/-
UtxoLedger.Proofs.Block.Exchange — neighbours in a block that have nothing to do with
each other may change places.

Two transactions are `Independent` if their ids differ and neither spends an output that
bears the other's id. They may still spend the same output; a block with both is then
refused in either order.

* `Tx.verifyInBlock_congr`: of the map a transaction reads what is under its own
  outpoints, and nothing else.
* `Tx.find?_apply_of_ne`: carrying a transaction out leaves alone what it does not spend
  and does not create. So each of two independent transactions sees, behind the other, the
  outputs that it sees before it (`Independent.valid_first`), unless the other spent one.
* `Independent.find?_apply_comm`: behind both, the two orders find the same. The maps need
  not be equal, since outputs are listed in the order of their arrival; whatever comes
  later cannot tell them apart (`validInTurn_congr`).
-/
import UtxoLedger.Proofs.Block.Locks

namespace UtxoLedger

/-! ## What a transaction changes -/

namespace OutputMap

variable {m m' : OutputMap} {o : Outpoint} {txId : Digest} {blockNum : UInt64}

/-- Outputs of a transaction are found under its own id. -/
theorem find?_insertOutputs_of_ne (hid : o.txId ≠ txId) (outputs : List TxOutput) (index : Nat)
    (m : OutputMap) : (insertOutputs txId blockNum index outputs m).find? o = m.find? o := by
  induction outputs generalizing index m with
  | nil => rfl
  | cons output rest ih =>
    have hne : (⟨txId, UInt32.ofNat index⟩ : Outpoint) ≠ o := fun h => hid (h ▸ rfl)
    rw [insertOutputs, ih, find?_insert, if_neg hne]

/-- What is found under an outpoint afterwards depends on what was found there before. -/
theorem find?_insertOutputs_congr (h : m.find? o = m'.find? o) (outputs : List TxOutput)
    (index : Nat) : (insertOutputs txId blockNum index outputs m).find? o =
      (insertOutputs txId blockNum index outputs m').find? o := by
  induction outputs generalizing index m m' with
  | nil => exact h
  | cons output rest ih =>
    apply ih
    simp only [find?_insert, h]

end OutputMap

namespace Tx

variable {m m' : OutputMap} {o : Outpoint}

/-- An outpoint that does not name an output of the transaction. -/
theorem find?_apply_of_ne {tx : Tx} (hid : o.txId ≠ tx.id) (m : OutputMap) (blockNum : UInt64) :
    (tx.apply m blockNum).find? o = if o ∈ tx.outpoints then none else m.find? o := by
  rw [apply, OutputMap.insertTx, OutputMap.find?_insertOutputs_of_ne hid,
    OutputMap.find?_eraseAll]

/-- What is found behind a transaction depends on what was found before it. -/
theorem find?_apply_congr (tx : Tx) (blockNum : UInt64) (h : m.find? o = m'.find? o) :
    (tx.apply m blockNum).find? o = (tx.apply m' blockNum).find? o := by
  apply OutputMap.find?_insertOutputs_congr
  simp only [OutputMap.find?_eraseAll, h]

/-! ## What a transaction reads -/

section Reads

variable {tx : Tx}

/-- An input is checked against the coin it spends and no other. -/
theorem checkInput_congr (h : ∀ o ∈ tx.outpoints, m.find? o = m'.find? o) (index : Nat) :
    tx.checkInput m index = tx.checkInput m' index := by
  funext cache
  unfold checkInput
  cases hat : tx.inputs[index]? with
  | none => rfl
  | some input =>
    have hspent : input.outpoint ∈ tx.outpoints := List.mem_map_of_mem (List.mem_of_getElem? hat)
    simp only [h _ hspent]

theorem checkInputsFrom_congr (h : ∀ o ∈ tx.outpoints, m.find? o = m'.find? o)
    (count index : Nat) : tx.checkInputsFrom m count index = tx.checkInputsFrom m' count index := by
  induction count generalizing index with
  | zero => rfl
  | succ count ih => simp only [checkInputsFrom_succ, checkInput_congr h, ih]

theorem spentFrom_congr {inputs : List TxInput}
    (h : ∀ o ∈ inputs.map TxInput.outpoint, m.find? o = m'.find? o) (index : Nat)
    (total : UInt64) : spentFrom m index total inputs = spentFrom m' index total inputs := by
  induction inputs generalizing index total with
  | nil => rfl
  | cons input rest ih =>
    rw [List.map_cons, List.forall_mem_cons] at h
    simp only [spentFrom, h.1, ih h.2]

theorem checkLocksFrom_congr {inputs : List TxInput}
    (h : ∀ o ∈ inputs.map TxInput.outpoint, m.find? o = m'.find? o) (blockNum : UInt64)
    (index : Nat) :
    checkLocksFrom m blockNum index inputs = checkLocksFrom m' blockNum index inputs := by
  induction inputs generalizing index with
  | nil => rfl
  | cons input rest ih =>
    rw [List.map_cons, List.forall_mem_cons] at h
    simp only [checkLocksFrom, h.1, ih h.2]

/-- Nothing else of the map is looked at. -/
theorem verify_congr (h : ∀ o ∈ tx.outpoints, m.find? o = m'.find? o) :
    tx.verify m = tx.verify m' := by
  have hvalues : tx.checkValues m = tx.checkValues m' := by
    rw [checkValues, checkValues, spentFrom_congr h]
  funext cache
  simp only [verify, checkInputs, checkInputsFrom_congr h, hvalues]

/-- **Validity is local**: it is decided by what the map holds under the outpoints that
the transaction spends. -/
theorem verifyInBlock_congr (h : ∀ o ∈ tx.outpoints, m.find? o = m'.find? o) (blockNum : UInt64) :
    tx.verifyInBlock m blockNum = tx.verifyInBlock m' blockNum := by
  rw [verifyInBlock, verifyInBlock, verify_congr h, checkLocks, checkLocks,
    checkLocksFrom_congr h]

theorem known_of_verifyInBlock {blockNum : UInt64} (h : tx.verifyInBlock m blockNum = .ok ())
    (ho : o ∈ tx.outpoints) : ∃ coin, m.find? o = some coin := by
  obtain ⟨-, hlocks⟩ := (verifyInBlock_eq_ok_iff _ _ _).mp h
  obtain ⟨input, hinput, rfl⟩ := List.mem_map.mp ho
  obtain ⟨coin, hcoin, -⟩ := (checkLocks_eq_ok_iff _ _ _).mp hlocks input hinput
  exact ⟨coin, hcoin⟩

end Reads

/-! ## Two transactions that do not need each other -/

/-- The two have different ids, and neither spends what bears the id of the other. -/
structure Independent (x y : Tx) : Prop where
  ids : x.id ≠ y.id
  left : ∀ o ∈ x.outpoints, o.txId ≠ y.id
  right : ∀ o ∈ y.outpoints, o.txId ≠ x.id

namespace Independent

variable {x y : Tx} {blockNum : UInt64}

theorem symm (h : x.Independent y) : y.Independent x := ⟨h.ids.symm, h.right, h.left⟩

/-- What `y` finds behind `x` it found before. -/
theorem find?_apply (h : x.Independent y)
    (hy : y.verifyInBlock (x.apply m blockNum) blockNum = .ok ()) (ho : o ∈ y.outpoints) :
    o ∉ x.outpoints ∧ (x.apply m blockNum).find? o = m.find? o := by
  obtain ⟨coin, hcoin⟩ := known_of_verifyInBlock hy ho
  have hfind := find?_apply_of_ne (h.right o ho) m blockNum
  have hkept : o ∉ x.outpoints := by
    intro hspent
    rw [hcoin, if_pos hspent] at hfind
    cases hfind
  exact ⟨hkept, hfind.trans (if_neg hkept)⟩

/-- If both are valid with `x` in front, they are valid with `y` in front. -/
theorem valid_first (h : x.Independent y) (hx : x.verifyInBlock m blockNum = .ok ())
    (hy : y.verifyInBlock (x.apply m blockNum) blockNum = .ok ()) :
    y.verifyInBlock m blockNum = .ok () ∧
      x.verifyInBlock (y.apply m blockNum) blockNum = .ok () := by
  constructor
  · rw [← hy]
    exact verifyInBlock_congr (fun o ho => (h.find?_apply hy ho).2.symm) blockNum
  · rw [← hx]
    refine verifyInBlock_congr (fun o ho => ?_) blockNum
    have hkept : o ∉ y.outpoints := fun hspent => (h.find?_apply hy hspent).1 ho
    rw [find?_apply_of_ne (h.left o ho), if_neg hkept]

/-- Neither touches what bears the id of the other. -/
theorem find?_apply_own (h : x.Independent y) (m : OutputMap) (hid : o.txId = x.id) :
    (y.apply m blockNum).find? o = m.find? o := by
  have hkept : o ∉ y.outpoints := fun hspent => h.right o hspent hid
  have hother : o.txId ≠ y.id := by
    rw [hid]
    exact h.ids
  rw [find?_apply_of_ne hother, if_neg hkept]

/-- An outpoint is spent by one of them, made by one of them, or neither. -/
theorem find?_apply_comm (h : x.Independent y) (m : OutputMap) (blockNum : UInt64)
    (o : Outpoint) : (y.apply (x.apply m blockNum) blockNum).find? o =
      (x.apply (y.apply m blockNum) blockNum).find? o := by
  by_cases hx : o.txId = x.id
  · rw [h.find?_apply_own _ hx]
    exact find?_apply_congr x blockNum (h.find?_apply_own m hx).symm
  · by_cases hy : o.txId = y.id
    · rw [h.symm.find?_apply_own _ hy]
      exact find?_apply_congr y blockNum (h.symm.find?_apply_own m hy)
    · simp only [find?_apply_of_ne hx, find?_apply_of_ne hy]
      split <;> simp

end Independent

end Tx

/-! ## Rows of transactions -/

namespace Block

/-- Each transaction is valid on the outputs that the ones before it leave. -/
def ValidInTurn (blockNum : UInt64) : List Tx → OutputMap → Prop
  | [], _ => True
  | tx :: rest, m =>
    tx.verifyInBlock m blockNum = .ok () ∧ ValidInTurn blockNum rest (tx.apply m blockNum)

/-- The loop comes to an end exactly if every transaction was valid when its turn came. -/
theorem exists_applyFrom_iff (blockNum : UInt64) (txs : List Tx) (index : Nat) (m : OutputMap) :
    (∃ final, applyFrom blockNum index txs m = .ok final) ↔ ValidInTurn blockNum txs m := by
  induction txs generalizing index m with
  | nil => simp [applyFrom, ValidInTurn]
  | cons tx rest ih =>
    rw [applyFrom, ValidInTurn]
    cases tx.verifyInBlock m blockNum with
    | error error => simp
    | ok _ => simp [ih]

/-- The first transaction is not verified. -/
theorem checkTxs_cons_eq_ok_iff (header : Header) (first : Tx) (others : List Tx)
    (outputs : OutputMap) : (Block.mk header (first :: others)).checkTxs outputs = .ok () ↔
      ValidInTurn header.blockNum others (outputs.insertTx first header.blockNum) := by
  rw [← exists_applyFrom_iff header.blockNum others 1, checkTxs, applyTxs]
  dsimp only
  cases applyFrom header.blockNum 1 others (outputs.insertTx first header.blockNum) with
  | error error => simp [Except.map]
  | ok final => simp [Except.map]

variable {blockNum : UInt64}

/-- A row of transactions cannot tell maps apart that find the same. -/
theorem validInTurn_congr {m m' : OutputMap} (h : ∀ o, m.find? o = m'.find? o) (txs : List Tx) :
    ValidInTurn blockNum txs m ↔ ValidInTurn blockNum txs m' := by
  induction txs generalizing m m' with
  | nil => rfl
  | cons tx rest ih =>
    rw [ValidInTurn, ValidInTurn, Tx.verifyInBlock_congr (fun o _ => h o)]
    exact and_congr_right fun _ => ih fun o => Tx.find?_apply_congr tx blockNum (h o)

/-- The one that comes second sees the same coins without the other, and those behind the
two see the same map. -/
theorem ValidInTurn.exchange {x y : Tx} {back : List Tx} {m : OutputMap} (h : x.Independent y)
    (hvalid : ValidInTurn blockNum (x :: y :: back) m) :
    ValidInTurn blockNum (y :: x :: back) m := by
  obtain ⟨hx, hy, hback⟩ := hvalid
  obtain ⟨hyFirst, hxSecond⟩ := h.valid_first hx hy
  exact ⟨hyFirst, hxSecond, (validInTurn_congr (h.find?_apply_comm m blockNum) back).mp hback⟩

/-- The front of the row decides on which map the two meet, in either order the same. -/
theorem validInTurn_exchange_iff {x y : Tx} (h : x.Independent y) (front back : List Tx)
    (m : OutputMap) : ValidInTurn blockNum (front ++ x :: y :: back) m ↔
      ValidInTurn blockNum (front ++ y :: x :: back) m := by
  induction front generalizing m with
  | nil => exact ⟨.exchange h, .exchange h.symm⟩
  | cons tx front ih => exact and_congr_right fun _ => ih (tx.apply m blockNum)

/-- **Independent transactions commute.** Let two neighbours in a block, behind its first
transaction, have different ids, and let neither spend what bears the id of the other. The
transactions of the block pass on a map exactly when they pass with the two exchanged. -/
theorem independent_txs_commute {b : Block} {first x y : Tx} {front back : List Tx}
    (htxs : b.txs = first :: (front ++ x :: y :: back)) (hindependent : x.Independent y)
    (outputs : OutputMap) :
    b.checkTxs outputs = .ok () ↔
      (Block.mk b.header (first :: (front ++ y :: x :: back))).checkTxs outputs = .ok () := by
  obtain ⟨header, txs⟩ := b
  obtain rfl : txs = _ := htxs
  rw [checkTxs_cons_eq_ok_iff, checkTxs_cons_eq_ok_iff]
  exact validInTurn_exchange_iff hindependent front back _

/-! ### Three transactions behind a coinbase

`spendOld` spends the output of the map and `spendNew` the coinbase's, so they are
independent. `spendBoth` stands behind them, and spends what they create. -/

namespace ExchangeSample

open Sample (anyone known coinbase)

def spendOld : Tx := ⟨0, [⟨known, .empty, 4⟩], [⟨5, anyone⟩], 7⟩

def spendNew : Tx := ⟨0, [⟨⟨coinbase.id, 0⟩, .empty, 0⟩], [⟨30, anyone⟩, ⟨20, anyone⟩], 7⟩

def spendBoth : Tx :=
  ⟨0, [⟨⟨spendNew.id, 1⟩, .empty, 0⟩, ⟨⟨spendOld.id, 0⟩, .empty, 0⟩], [⟨25, anyone⟩], 7⟩

def block : Block := ⟨Sample.block.header, [coinbase, spendOld, spendNew, spendBoth]⟩

def exchanged : Block := ⟨Sample.block.header, [coinbase, spendNew, spendOld, spendBoth]⟩

theorem independent : spendOld.Independent spendNew where
  ids := by decide +kernel
  left := by decide +kernel
  right := by decide +kernel

end ExchangeSample

open ExchangeSample in
theorem independent_txs_commute_sample :
    block.checkTxs Sample.outputs = .ok () ∧ exchanged.checkTxs Sample.outputs = .ok () := by
  have h : block.checkTxs Sample.outputs = .ok () := eq_ok_of_isOk (by decide +kernel)
  have hiff := @independent_txs_commute block Sample.coinbase spendOld spendNew [] [spendBoth] rfl
    independent Sample.outputs
  exact ⟨h, hiff.mp h⟩

end Block

end UtxoLedger
