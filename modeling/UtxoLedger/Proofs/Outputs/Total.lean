/-
UtxoLedger.Proofs.Outputs.Total — the exact total value of an output map.

`entries` is what the index holds, with the slot numbers left out: each outpoint
once, with its coin. It is determined up to order by the look-ups
(`perm_entries`), so the total of a map follows from the equations of
`UtxoLedger.Proofs.Outputs.Lookup` and compaction needs no argument of its own.

* `total_erase`: erasing removes the value found there, once.
* `total_insert`: inserting adds a value and loses the one that was replaced.
* `total_eraseAll`: erasing distinct outpoints removes the sum of their values.
* `total_insertTx_le`: adding the outputs of a transaction adds at most their
  exact sum. It adds less where two of them meet under one outpoint, or where an
  old coin is replaced; no freshness of ids is assumed.
-/
import Mathlib.Data.List.Nodup
import UtxoLedger.Proofs.Amounts

namespace UtxoLedger

namespace OutputMap

/-- The coins of the map with their outpoints, each outpoint once. -/
def entries (m : OutputMap) : List (Outpoint × Coin) :=
  m.index.toList.map fun entry => (entry.1, entry.2.2)

/-- The exact total value of the coins in the map. -/
def total (m : OutputMap) : Nat := (m.entries.map fun entry => entry.2.output.value.toNat).sum

/-! ## The entries are the look-ups -/

theorem mem_entries (m : OutputMap) (o : Outpoint) (coin : Coin) :
    (o, coin) ∈ m.entries ↔ m.find? o = some coin := by
  unfold entries find?
  rw [List.mem_map, Option.map_eq_some_iff]
  constructor
  · rintro ⟨⟨o', slot, coin'⟩, hmem, heq⟩
    rw [Std.TreeMap.mem_toList_iff_getElem?_eq_some] at hmem
    simp only [Prod.mk.injEq] at heq
    obtain ⟨rfl, rfl⟩ := heq
    exact ⟨(slot, coin'), hmem, rfl⟩
  · rintro ⟨⟨slot, coin'⟩, hfind, rfl⟩
    exact ⟨(o, slot, coin'), Std.TreeMap.mem_toList_iff_getElem?_eq_some.mpr hfind, rfl⟩

theorem nodup_entries (m : OutputMap) : m.entries.Nodup := by
  have hkeys : (m.index.toList.map Prod.fst).Nodup := by
    rw [List.Nodup, List.pairwise_map]
    exact Std.TreeMap.distinct_keys_toList.imp fun hne heq =>
      hne (Std.LawfulEqCmp.compare_eq_iff_eq.mpr heq)
  refine List.Nodup.of_map Prod.fst ?_
  rw [entries, List.map_map]
  exact hkeys

/-- Entries that answer the look-ups of a map are the map's, up to order. -/
theorem perm_entries {m : OutputMap} {es : List (Outpoint × Coin)} (hes : es.Nodup)
    (h : ∀ o coin, (o, coin) ∈ es ↔ m.find? o = some coin) : m.entries.Perm es := by
  refine (List.perm_ext_iff_of_nodup m.nodup_entries hes).mpr ?_
  rintro ⟨o, coin⟩
  rw [mem_entries, h]

theorem total_of_perm {m : OutputMap} {es : List (Outpoint × Coin)} (h : m.entries.Perm es) :
    m.total = (es.map fun entry => entry.2.output.value.toNat).sum :=
  (h.map _).sum_nat

/-! ## One outpoint -/

/-- What is taken out of the map is missing from its total. -/
theorem total_erase (m : OutputMap) (o : Outpoint) : (m.erase o).total + m.valueAt o = m.total := by
  have hnone : (m.erase o).find? o = none := by
    rw [find?_erase, if_pos rfl]
  cases hfind : m.find? o with
  | none =>
    have hperm : m.entries.Perm (m.erase o).entries := by
      refine perm_entries (m.erase o).nodup_entries fun o' coin => ?_
      rw [mem_entries, find?_erase]
      by_cases heq : o = o'
      · rw [if_pos heq, ← heq, hfind]
      · rw [if_neg heq]
    rw [total_of_perm hperm, valueAt, hfind]
    rfl
  | some coin =>
    -- the entries are those that are left and the one that was taken out
    have hperm : m.entries.Perm ((o, coin) :: (m.erase o).entries) := by
      refine perm_entries (List.nodup_cons.mpr ⟨?_, (m.erase o).nodup_entries⟩) fun o' coin' => ?_
      · rw [mem_entries, hnone]
        simp
      · rw [List.mem_cons, mem_entries, find?_erase]
        by_cases heq : o = o'
        · subst heq
          simp [hfind, eq_comm]
        · simp [heq, Ne.symm heq]
    rw [total_of_perm hperm, valueAt_of_find? hfind, List.map_cons, List.sum_cons, Nat.add_comm]
    rfl

/-- A coin adds its value, less what it displaces. -/
theorem total_insert (m : OutputMap) (o : Outpoint) (coin : Coin) :
    (m.insert o coin).total + m.valueAt o = m.total + coin.output.value.toNat := by
  have hself : (m.insert o coin).valueAt o = coin.output.value.toNat :=
    valueAt_of_find? (find?_insert_self m o coin)
  -- the two maps differ at the outpoint alone, so erasing it makes them agree
  have hperm : ((m.insert o coin).erase o).entries.Perm (m.erase o).entries := by
    refine perm_entries (m.erase o).nodup_entries fun o' coin' => ?_
    rw [mem_entries, find?_erase, find?_erase, find?_insert]
    by_cases heq : o = o'
    · rw [if_pos heq, if_pos heq]
    · rw [if_neg heq, if_neg heq, if_neg heq]
  have hrest : ((m.insert o coin).erase o).total = (m.erase o).total := total_of_perm hperm
  have hnew := total_erase (m.insert o coin) o
  have hold := total_erase m o
  omega

/-! ## Several outpoints -/

theorem valueAt_erase_of_ne {m : OutputMap} {o o' : Outpoint} (h : o' ≠ o) :
    (m.erase o).valueAt o' = m.valueAt o' := by
  rw [valueAt, valueAt, find?_erase, if_neg (Ne.symm h)]

/-- The outpoints have to differ: the second time one of them is taken out, nothing is
there. -/
theorem total_eraseAll : ∀ (os : List Outpoint) (m : OutputMap), os.Nodup →
    (m.eraseAll os).total + (os.map m.valueAt).sum = m.total
  | [], _, _ => rfl
  | o :: os, m, hnodup => by
      rw [List.nodup_cons] at hnodup
      have hvalues : os.map (m.erase o).valueAt = os.map m.valueAt :=
        List.map_congr_left fun o' hmem =>
          valueAt_erase_of_ne fun heq => hnodup.1 (heq ▸ hmem)
      have hrest := total_eraseAll os (m.erase o) hnodup.2
      have hone := total_erase m o
      rw [hvalues] at hrest
      rw [List.map_cons, List.sum_cons]
      show ((m.erase o).eraseAll os).total + _ = _
      omega

/-- There is no equality, since an output can displace a coin that has its outpoint. -/
theorem total_insertOutputs_le (txId : Digest) (blockNum : UInt64) :
    ∀ (outputs : List TxOutput) (index : Nat) (m : OutputMap),
      (insertOutputs txId blockNum index outputs m).total ≤
        m.total + Value.exactSum (outputs.map TxOutput.value)
  | [], _, _ => Nat.le_refl _
  | output :: rest, index, m => by
      have hrest := total_insertOutputs_le txId blockNum rest (index + 1)
        (m.insert ⟨txId, UInt32.ofNat index⟩ ⟨output, blockNum⟩)
      have hone := total_insert m ⟨txId, UInt32.ofNat index⟩ ⟨output, blockNum⟩
      rw [insertOutputs, List.map_cons, Value.exactSum_cons]
      simp only at hone
      omega

/-- A transaction adds at most what its outputs come to. -/
theorem total_insertTx_le (m : OutputMap) (tx : Tx) (blockNum : UInt64) :
    (m.insertTx tx blockNum).total ≤ m.total + tx.outputTotal :=
  total_insertOutputs_le tx.id blockNum tx.outputs 0 m

end OutputMap

end UtxoLedger
