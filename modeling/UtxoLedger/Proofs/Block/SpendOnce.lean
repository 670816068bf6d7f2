/-
UtxoLedger.Proofs.Block.SpendOnce — in an accepted block every outpoint is spent
at most once, and only outpoints that are known are spent.

An outpoint that was removed can come back, when a later transaction creates it
again. That takes a transaction with the id of the one that created it before,
and the ids of a block tell its transactions apart (`DistinctIds`), so the same
transaction would have to stand in the block twice. A transaction that stands in
the block twice spends its own inputs twice, and the first of these two places is
before the place that we started from. `not_spent_again` is this descent: strong
induction on the position of the first spend. It ends because the first
transaction, which is not judged, is the coinbase and no later one is.

* `find?_working_succ` is the step: where an entry of the next map comes from.
* `find?_working` is the run: from any earlier map, or from an output created
  since. It also says at which block number such an entry is recorded.
-/
import UtxoLedger.Proofs.Block.Conservation

namespace UtxoLedger

namespace Block

/-- The ids of the block's transactions are new to the map, and different
transactions of the block have different ids. One transaction may stand in the
block twice. -/
structure DistinctIds (b : Block) (outputs : OutputMap) : Prop where
  fresh : ∀ o, outputs.contains o = true → ∀ tx ∈ b.txs, o.txId ≠ tx.id
  injective : ∀ tx ∈ b.txs, ∀ tx' ∈ b.txs, tx.id = tx'.id → tx = tx'

variable {b : Block} {outputs : OutputMap}

/-! ## Where an entry comes from -/

theorem find?_working_succ {i : Nat} {o : Outpoint} {coin : Coin}
    (h : (b.working outputs (i + 1)).find? o = some coin) :
    (b.working outputs i).find? o = some coin ∨
      ∃ tx, b.txs[i]? = some tx ∧ o.NamesOutputOf tx ∧ coin.blockNum = b.header.blockNum := by
  cases hat : b.txs[i]? with
  | none =>
    rw [working, hat] at h
    exact Or.inl h
  | some tx =>
    by_cases hi : i = 0
    · subst hi
      rw [working_first outputs hat] at h
      rcases OutputMap.origin_insertTx h with hold | hnew
      · exact Or.inl hold
      · exact Or.inr ⟨tx, rfl, hnew⟩
    · rw [working_succ outputs (by omega) hat] at h
      rcases OutputMap.origin_insertTx h with hold | hnew
      · rw [OutputMap.find?_eraseAll] at hold
        split at hold
        · cases hold
        · exact Or.inl hold
      · exact Or.inr ⟨tx, rfl, hnew⟩

/-- An entry before position `i` was there before position `start` already, or is
an output of a transaction between them. -/
theorem find?_working (start : Nat) {o : Outpoint} {coin : Coin} :
    ∀ {i : Nat}, start ≤ i → (b.working outputs i).find? o = some coin →
      (b.working outputs start).find? o = some coin ∨
        ∃ k tx, start ≤ k ∧ k < i ∧ b.txs[k]? = some tx ∧ o.NamesOutputOf tx ∧
          coin.blockNum = b.header.blockNum
  | 0, hle, h => by
      rw [Nat.le_zero.mp hle]
      exact Or.inl h
  | i + 1, hle, h => by
      rcases Nat.eq_or_lt_of_le hle with rfl | hlt
      · exact Or.inl h
      · rcases find?_working_succ h with hold | ⟨tx, hat, hnames⟩
        · rcases find?_working start (Nat.le_of_lt_succ hlt) hold with
            hstart | ⟨k, tx, hk, hki, hrest⟩
          · exact Or.inl hstart
          · exact Or.inr ⟨k, tx, hk, by omega, hrest⟩
        · exact Or.inr ⟨i, tx, by omega, Nat.lt_succ_self i, hat, hnames⟩

/-- What was spent at position `i` is found later only if it was created again,
at `i` or behind. -/
theorem recreated_of_spent {i j : Nat} {tx : Tx} {o : Outpoint} {coin : Coin} (hi : 0 < i)
    (hij : i < j) (hat : b.txs[i]? = some tx) (hspent : o ∈ tx.outpoints)
    (h : (b.working outputs j).find? o = some coin) :
    ∃ k tx', i ≤ k ∧ k < j ∧ b.txs[k]? = some tx' ∧ o.NamesOutputOf tx' := by
  rcases find?_working (i + 1) hij h with hnext | ⟨k, tx', hk, hkj, hat', hnames, -⟩
  · rw [working_succ outputs hi hat] at hnext
    rcases OutputMap.origin_insertTx hnext with hold | ⟨hnames, -⟩
    · rw [OutputMap.find?_eraseAll, if_pos hspent] at hold
      cases hold
    · exact ⟨i, tx, Nat.le_refl i, hij, hat, hnames⟩
  · exact ⟨k, tx', by omega, hkj, hat', hnames⟩

/-! ## What an accepted block says of each position -/

/-- Before a transaction behind the first, each outpoint that it spends is in the
map; it spends at least one, and none twice. -/
theorem spends_of_checkTxs (h : b.checkTxs outputs = .ok ()) {i : Nat} {tx : Tx} (hi : 0 < i)
    (hat : b.txs[i]? = some tx) :
    tx.outpoints ≠ [] ∧ tx.outpoints.Nodup ∧
      ∀ o ∈ tx.outpoints, ∃ coin, (b.working outputs i).find? o = some coin := by
  have hvalid := (b.checkTxs_eq_ok_iff outputs).mp h i tx hi hat
  obtain ⟨hverify, -⟩ := (tx.verifyInBlock_eq_ok_iff _ _).mp hvalid
  obtain ⟨hin, -, hdistinct, -, hvalues⟩ := (tx.verify_eq_ok_iff _ _).mp hverify
  obtain ⟨hknown, -⟩ := (tx.checkValues_eq_ok_iff _).mp hvalues
  exact ⟨by simpa [Tx.outpoints] using hin, hdistinct, hknown⟩

/-- In an accepted structure the position tells the coinbase. -/
theorem isCoinbase_of_checkStructure (h : b.checkStructure = .ok ()) {i : Nat} {tx : Tx}
    (hat : b.txs[i]? = some tx) : tx.isCoinbase = decide (i = 0) := by
  obtain ⟨first, others, htxs, hfirst, hothers⟩ := b.checkStructure_eq_ok_iff.mp h
  rw [htxs] at hat
  cases i with
  | zero =>
    rw [List.getElem?_cons_zero] at hat
    simpa [Option.some.inj hat] using hfirst
  | succ i =>
    rw [List.getElem?_cons_succ] at hat
    simpa using hothers tx (List.mem_of_getElem? hat)

/-! ## The descent -/

/-- An outpoint that is spent at position `i` is not spent behind it. -/
theorem not_spent_again (hstructure : b.checkStructure = .ok ())
    (htxs : b.checkTxs outputs = .ok ()) (ids : b.DistinctIds outputs) {i : Nat} :
    ∀ {j : Nat} {tx tx' : Tx} {o : Outpoint},
      0 < i → i < j → b.txs[i]? = some tx → b.txs[j]? = some tx' →
        o ∈ tx.outpoints → o ∉ tx'.outpoints := by
  induction i using Nat.strongRecOn with
  | ind i ih =>
    intro j tx tx' o hi hij hat hat' hspent hagain
    obtain ⟨-, -, hknown⟩ := spends_of_checkTxs htxs hi hat
    obtain ⟨-, -, hknown'⟩ := spends_of_checkTxs htxs (by omega) hat'
    obtain ⟨coin, hbefore⟩ := hknown o hspent
    obtain ⟨coin', hbefore'⟩ := hknown' o hagain
    obtain ⟨k, second, hik, hkj, hsecond, hnames⟩ :=
      recreated_of_spent hi hij hat hspent hbefore'
    have hmem := List.mem_of_getElem? hsecond
    rcases find?_working 0 (Nat.zero_le i) hbefore with
      hgiven | ⟨l, first, -, hli, hfirst, hnames', -⟩
    · -- the id of the second creator is new to the given map
      exact ids.fresh o ((outputs.contains_iff o).mpr ⟨coin, hgiven⟩) second hmem hnames.1
    · -- both creators have one id, so they are one transaction at two places
      have hsame : first = second :=
        ids.injective first (List.mem_of_getElem? hfirst) second hmem
          (hnames'.1.symm.trans hnames.1)
      subst hsame
      have hl : 0 < l := by
        have hcoinbase := isCoinbase_of_checkStructure hstructure hfirst
        rw [isCoinbase_of_checkStructure hstructure hsecond] at hcoinbase
        simp only [decide_eq_decide] at hcoinbase
        omega
      obtain ⟨hinputs, -, -⟩ := spends_of_checkTxs htxs hl hfirst
      obtain ⟨o', hmem'⟩ := List.exists_mem_of_ne_nil _ hinputs
      exact ih l hli hl (by omega) hfirst hsecond hmem' hmem'

theorem nodup_outpoints_behind_first (hstructure : b.checkStructure = .ok ())
    (htxs : b.checkTxs outputs = .ok ()) (ids : b.DistinctIds outputs) :
    ((b.txs.drop 1).flatMap Tx.outpoints).Nodup := by
  refine List.nodup_flatMap.mpr ⟨fun tx hmem => ?_, List.pairwise_iff_getElem.mpr ?_⟩
  · obtain ⟨i, hat⟩ := List.mem_iff_getElem?.mp hmem
    rw [List.getElem?_drop] at hat
    exact (spends_of_checkTxs htxs (by omega) hat).2.1
  · intro i j hi hj hij
    have hat := List.getElem?_eq_getElem hi
    have hat' := List.getElem?_eq_getElem hj
    rw [List.getElem?_drop] at hat hat'
    intro o hspent hagain
    exact not_spent_again hstructure htxs ids (by omega) (by omega) hat hat' hspent hagain

/-- **No double spend and no spending of the unknown**: in a valid block whose
ids are distinct, the outpoints spent behind the coinbase are pairwise distinct
over the whole block, and each is in the given map or is an output of a
transaction before the one that spends it. -/
theorem spends_each_known_outpoint_once (h : b.verify outputs = .ok ())
    (ids : b.DistinctIds outputs) :
    ((b.txs.filter fun tx => !tx.isCoinbase).flatMap Tx.outpoints).Nodup ∧
      ∀ (i : Nat) (tx : Tx), b.txs[i]? = some tx → tx.isCoinbase = false → ∀ o ∈ tx.outpoints,
        outputs.contains o = true ∨
          ∃ j < i, ∃ tx', b.txs[j]? = some tx' ∧ o.NamesOutputOf tx' := by
  obtain ⟨hstructure, -, -, htxs⟩ := (b.verify_eq_ok_iff outputs).mp h
  constructor
  · obtain ⟨first, others, hlist, hfirst, hothers⟩ := b.checkStructure_eq_ok_iff.mp hstructure
    have hfilter : (b.txs.filter fun tx => !tx.isCoinbase) = b.txs.drop 1 := by
      rw [hlist, List.filter_cons_of_neg (by simp [hfirst]), List.drop_one, List.tail_cons]
      exact List.filter_eq_self.mpr fun tx hmem => by simp [hothers tx hmem]
    rw [hfilter]
    exact nodup_outpoints_behind_first hstructure htxs ids
  · intro i tx hat hcoinbase o hspent
    have hi : 0 < i := by
      rw [isCoinbase_of_checkStructure hstructure hat, decide_eq_false_iff_not] at hcoinbase
      omega
    obtain ⟨coin, hbefore⟩ := (spends_of_checkTxs htxs hi hat).2.2 o hspent
    rcases find?_working 0 (Nat.zero_le i) hbefore with hgiven | ⟨k, tx', -, hki, hat', hnames, -⟩
    · exact Or.inl ((outputs.contains_iff o).mpr ⟨coin, hgiven⟩)
    · exact Or.inr ⟨k, hki, tx', hat', hnames⟩

theorem Sample.distinctIds : Sample.block.DistinctIds Sample.outputs where
  fresh o hcontains tx hmem := by
    obtain ⟨coin, hfind⟩ := (Sample.outputs.contains_iff o).mp hcontains
    rw [Sample.outputs, OutputMap.find?_insert] at hfind
    split at hfind
    · rename_i hknown
      have hid : ∀ tx ∈ [Sample.coinbase, Sample.spend], Sample.known.txId ≠ tx.id := by
        decide +kernel
      exact hknown ▸ hid tx hmem
    · cases hfind
  injective := by
    have hids : ∀ tx ∈ [Sample.coinbase, Sample.spend], ∀ tx' ∈ [Sample.coinbase, Sample.spend],
        tx.id = tx'.id → tx = tx' := by
      decide +kernel
    exact hids

theorem spends_each_known_outpoint_once_sample :
    Sample.block.verify Sample.outputs = .ok () ∧ Sample.block.DistinctIds Sample.outputs ∧
      ((Sample.block.txs.filter fun tx => !tx.isCoinbase).flatMap Tx.outpoints).Nodup := by
  have h : Sample.block.verify Sample.outputs = .ok () := eq_ok_of_isOk (by decide +kernel)
  exact ⟨h, Sample.distinctIds, (spends_each_known_outpoint_once h Sample.distinctIds).1⟩

end Block

end UtxoLedger
