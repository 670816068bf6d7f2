/-
UtxoLedger.Proofs.Outputs.Lookup — what the output map finds after each of its
operations.

Every statement here is about `find?` and none of them asks anything of the map:
a look-up never reads the slot table, so the equations hold also where slots and
index disagree. `find?_compact` is the one that needs an argument, since
compaction rewrites every entry; what it rewrites is the slot number only.

`origin_insertTx` reads the additions backwards: what is found after the outputs
of a transaction were added was found before, or is one of those outputs. That
is the step that the descent over a block repeats.
-/
import UtxoLedger.OutputMap

namespace UtxoLedger

/-- The outpoint names an output of the transaction: its id and the position of
one of its outputs. -/
def Outpoint.NamesOutputOf (o : Outpoint) (tx : Tx) : Prop :=
  o.txId = tx.id ∧ o.index.toNat < tx.outputs.length

namespace OutputMap

/-! ## One outpoint -/

theorem contains_iff (m : OutputMap) (o : Outpoint) :
    m.contains o = true ↔ ∃ coin, m.find? o = some coin := by
  rw [contains, find?, Std.TreeMap.contains_eq_isSome_getElem?, Option.isSome_iff_exists]
  constructor
  · rintro ⟨entry, h⟩
    exact ⟨entry.2, by rw [h]; rfl⟩
  · rintro ⟨coin, h⟩
    obtain ⟨entry, hentry, -⟩ := Option.map_eq_some_iff.mp h
    exact ⟨entry, hentry⟩

/-- The coin replaces the one at its outpoint and no other. -/
theorem find?_insert (m : OutputMap) (o : Outpoint) (coin : Coin) (o' : Outpoint) :
    (m.insert o coin).find? o' = if o = o' then some coin else m.find? o' := by
  unfold insert find?
  split <;>
  · simp only [Std.TreeMap.getElem?_insert, Std.LawfulEqCmp.compare_eq_iff_eq]
    split <;> rfl

@[simp] theorem find?_insert_self (m : OutputMap) (o : Outpoint) (coin : Coin) :
    (m.insert o coin).find? o = some coin := by
  rw [find?_insert, if_pos rfl]

/-- Renumbering slots leaves the coins alone. -/
theorem find?_renumber (o : Outpoint) : ∀ (entries : List (Outpoint × Nat))
    (index : Std.TreeMap Outpoint (Nat × Coin) Outpoint.order),
    ((entries.foldl (fun index entry => index.modify entry.1 fun old => (entry.2, old.2))
      index)[o]?).map Prod.snd = (index[o]?).map Prod.snd
  | [], _ => rfl
  | entry :: rest, index => by
      rw [List.foldl_cons, find?_renumber o rest, Std.TreeMap.getElem?_modify]
      split
      · rename_i h
        rw [Std.LawfulEqCmp.compare_eq_iff_eq] at h
        rw [h, Option.map_map]
        rfl
      · rfl

theorem find?_compact (m : OutputMap) (o : Outpoint) : m.compact.find? o = m.find? o :=
  find?_renumber o _ m.index

theorem find?_compactIf (sparse : Prop) [Decidable sparse] (m : OutputMap) (o : Outpoint) :
    (if sparse then m.compact else m).find? o = m.find? o := by
  split
  · exact find?_compact m o
  · rfl

/-- An index that has lost an outpoint, whatever the slot table beside it holds. -/
theorem find?_eraseIndex (m : OutputMap) (slots : Array (Option Outpoint)) (o o' : Outpoint) :
    (OutputMap.mk slots (m.index.erase o)).find? o' = if o = o' then none else m.find? o' := by
  simp only [find?, Std.TreeMap.getElem?_erase, Std.LawfulEqCmp.compare_eq_iff_eq]
  split <;> rfl

/-- A removal and the compaction behind it hide no other coin. -/
theorem find?_erase (m : OutputMap) (o o' : Outpoint) :
    (m.erase o).find? o' = if o = o' then none else m.find? o' := by
  unfold erase
  split
  · rename_i h
    by_cases heq : o = o'
    · rw [if_pos heq, ← heq, find?, h]
      rfl
    · rw [if_neg heq]
  · dsimp only
    rw [find?_compactIf, find?_eraseIndex]

/-! ## Several outpoints -/

/-- The order of the removals does not matter. -/
theorem find?_eraseAll : ∀ (os : List Outpoint) (m : OutputMap) (o : Outpoint),
    (m.eraseAll os).find? o = if o ∈ os then none else m.find? o
  | [], m, o => by simp [eraseAll]
  | o' :: os, m, o => by
      rw [show m.eraseAll (o' :: os) = (m.erase o').eraseAll os from rfl,
        find?_eraseAll os (m.erase o') o, find?_erase]
      by_cases hmem : o ∈ os
      · rw [if_pos hmem, if_pos (List.mem_cons_of_mem o' hmem)]
      · rw [if_neg hmem]
        by_cases heq : o' = o
        · rw [if_pos heq, if_pos (List.mem_cons.mpr (Or.inl heq.symm))]
        · rw [if_neg heq, if_neg]
          simp only [List.mem_cons, not_or]
          exact ⟨fun h => heq h.symm, hmem⟩

/-- An output added from position `index` on has an index below the number of
outputs: a position that does not fit in 32 bits is reduced, never increased. -/
theorem origin_insertOutputs (txId : Digest) (blockNum : UInt64) (o : Outpoint) (coin : Coin) :
    ∀ (outputs : List TxOutput) (index : Nat) (m : OutputMap),
      (insertOutputs txId blockNum index outputs m).find? o = some coin →
      m.find? o = some coin ∨
        (o.txId = txId ∧ o.index.toNat < index + outputs.length ∧ coin.blockNum = blockNum)
  | [], _, _, h => Or.inl h
  | output :: rest, index, m, h => by
      rcases origin_insertOutputs txId blockNum o coin rest (index + 1) _ h with hfind | hnew
      · rw [find?_insert] at hfind
        split at hfind
        · rename_i heq
          -- the index in the outpoint is the position, or less where that does not fit
          have hindex : (UInt32.ofNat index).toNat ≤ index := by
            rw [UInt32.toNat_ofNat']
            exact Nat.mod_le _ _
          refine Or.inr ⟨by rw [← heq], ?_, by rw [← Option.some.inj hfind]⟩
          rw [← heq, List.length_cons]
          show (UInt32.ofNat index).toNat < _
          omega
        · exact Or.inl hfind
      · refine Or.inr ⟨hnew.1, ?_, hnew.2.2⟩
        rw [List.length_cons]
        omega

/-- A coin that is found was there before, or is an output of the transaction with the
number of the block. -/
theorem origin_insertTx {m : OutputMap} {tx : Tx} {blockNum : UInt64} {o : Outpoint} {coin : Coin}
    (h : (m.insertTx tx blockNum).find? o = some coin) :
    m.find? o = some coin ∨ (o.NamesOutputOf tx ∧ coin.blockNum = blockNum) := by
  rcases origin_insertOutputs tx.id blockNum o coin tx.outputs 0 m h with hold | hnew
  · exact Or.inl hold
  · rw [Nat.zero_add] at hnew
    exact Or.inr ⟨⟨hnew.1, hnew.2.1⟩, hnew.2.2⟩

end OutputMap

end UtxoLedger
