/-
UtxoLedger.Proofs.Outputs.ArrivalList — the output map is an association list in the
order of arrival.

`CoinList` is that list, with no slots and no index: a new outpoint goes to the end, a
present one keeps its place, removing leaves the order of the others alone. The list
view of a map makes each step that the map makes (`toList_insert`, `toList_erase`), and
where the map is aligned everything that can be asked of it is read off its list view.

* `filterMap_set` is what makes removing work: the emptied slot and the outpoint that
  stood there are both skipped once the index has lost the outpoint.
* `toList_compact` needs no alignment. Compaction drops empty slots, which the view skips
  anyway, and look-ups do not read slot numbers.
* `Built.slots_size_le` is the size of the table. It needs that there are as many entries
  as live slots (`Aligned.size_eq`), so that a compacted table has exactly that size.

`agrees_with_coinList` puts them together for any number of changes, by induction on
the changes.
-/
import UtxoLedger.Proofs.Outputs.Slots

namespace UtxoLedger

/-! ## The list -/

/-- Coins with their outpoints, in the order of arrival. -/
abbrev CoinList := List (Outpoint × Coin)

namespace CoinList

/-- Appends a new outpoint. The entry of a present one is replaced where it stands. -/
def insert (l : CoinList) (o : Outpoint) (coin : Coin) : CoinList :=
  if (l.lookup o).isSome then l.map fun entry => if entry.1 = o then (o, coin) else entry
  else l ++ [(o, coin)]

/-- Appends the outputs of a transaction one after another. -/
def insertTx (l : CoinList) (tx : Tx) (blockNum : UInt64) : CoinList :=
  tx.outputs.zipIdx.foldl
    (fun l output => l.insert ⟨tx.id, UInt32.ofNat output.2⟩ ⟨output.1, blockNum⟩) l

/-- Deletes the entry of an outpoint. -/
def erase (l : CoinList) (o : Outpoint) : CoinList := l.filter fun entry => entry.1 ≠ o

end CoinList

/-! ## Changes -/

/-- What can change the outputs that are known. -/
inductive OutputChange where
  | add (o : Outpoint) (coin : Coin)
  | addTx (tx : Tx) (blockNum : UInt64)
  | remove (o : Outpoint)

/-- The map after a change. -/
def OutputMap.change (m : OutputMap) : OutputChange → OutputMap
  | .add o coin => m.insert o coin
  | .addTx tx blockNum => m.insertTx tx blockNum
  | .remove o => (m.remove o).2

/-- The list after a change. -/
def CoinList.change (l : CoinList) : OutputChange → CoinList
  | .add o coin => l.insert o coin
  | .addTx tx blockNum => l.insertTx tx blockNum
  | .remove o => l.erase o

namespace OutputMap

/-- The map that changes make of the empty one. -/
def after (changes : List OutputChange) : OutputMap := changes.foldl change .empty

end OutputMap

/-- The list that changes make of the empty one. -/
def CoinList.after (changes : List OutputChange) : CoinList := changes.foldl change []

namespace OutputMap

variable {m : OutputMap}

/-! ## The list view, change by change -/

theorem toList_empty : empty.toList = [] := rfl

/-- What the list view makes of a slot. -/
theorem toList_eq (m : OutputMap) :
    m.toList = m.live.filterMap fun o => (m.find? o).map fun coin => (o, coin) := by
  rw [toList, live, List.filterMap_filterMap]
  apply List.filterMap_congr
  intro slot _
  cases slot <;> rfl

/-- An element may be replaced by one that is treated alike. -/
theorem filterMap_set {α β : Type} {f : α → Option β} {a b : α} (hab : f a = f b) :
    ∀ {xs : List α} {i : Nat}, xs[i]? = some b → (xs.set i a).filterMap f = xs.filterMap f := by
  intro xs
  induction xs with
  | nil => simp
  | cons x xs ih =>
    intro i hi
    cases i with
    | zero =>
      simp only [List.getElem?_cons_zero, Option.some_inj] at hi
      simp [List.filterMap_cons, hi, hab]
    | succ i =>
      rw [List.getElem?_cons_succ] at hi
      simp [List.filterMap_cons, ih hi]

theorem lookup_filterMap (find : Outpoint → Option Coin) (o : Outpoint) (os : List Outpoint) :
    (os.filterMap fun o' => (find o').map fun coin => (o', coin)).lookup o =
      if o ∈ os then find o else none := by
  induction os with
  | nil => rfl
  | cons o' os ih =>
    by_cases heq : o = o'
    · subst heq
      cases hfind : find o <;> simp [hfind, ih]
    · have hne : (o == o') = false := beq_false_of_ne heq
      cases hfind : find o' <;> simp [List.lookup_cons, hfind, ih, heq, hne]

/-- Looking up in the list view is looking up in the map. -/
theorem Aligned.lookup_toList (h : m.Aligned) (o : Outpoint) : m.toList.lookup o = m.find? o := by
  rw [toList_eq, lookup_filterMap]
  split
  · rfl
  · rename_i hmem
    rw [h.mem_live_iff] at hmem
    cases hindex : m.index[o]? with
    | none => simp [find?, hindex]
    | some entry => exact absurd ⟨entry, hindex⟩ hmem

/-- A new outpoint goes to the end. A known one stays where it is. -/
theorem live_insert (m : OutputMap) (o : Outpoint) (coin : Coin) :
    (m.insert o coin).live = if (m.find? o).isSome then m.live else m.live ++ [o] := by
  unfold insert find?
  cases m.index[o]? <;> simp [live]

/-- Only the entry at the outpoint changes, or one is added at the end. -/
theorem Aligned.toList_insert (h : m.Aligned) (o : Outpoint) (coin : Coin) :
    (m.insert o coin).toList = CoinList.insert m.toList o coin := by
  rw [CoinList.insert, h.lookup_toList, toList_eq, live_insert, toList_eq m]
  by_cases hfound : (m.find? o).isSome
  · rw [if_pos hfound, if_pos hfound, List.map_filterMap]
    apply List.filterMap_congr
    intro o' _
    by_cases heq : o = o'
    · subst heq
      obtain ⟨old, hfind⟩ := Option.isSome_iff_exists.mp hfound
      simp [hfind]
    · cases hfind : m.find? o' <;> simp [find?_insert, hfind, heq, Ne.symm heq]
  · rw [if_neg hfound, if_neg hfound, List.filterMap_append]
    congr 1
    · apply List.filterMap_congr
      intro o' hmem
      obtain ⟨entry, hindex⟩ := (h.mem_live_iff o').mp hmem
      have hne : o ≠ o' := by
        rintro rfl
        simp [find?, hindex] at hfound
      rw [find?_insert, if_neg hne]
    · simp

theorem toList_compact (m : OutputMap) : m.compact.toList = m.toList := by
  have hlive : m.compact.live = m.live := by
    simp [compact_eq, live, List.filterMap_map]
  rw [toList_eq, hlive, toList_eq m]
  simp only [find?_compact]

/-- The slot that is emptied shows nothing, and its outpoint would show nothing any more. -/
theorem Aligned.toList_remove (h : m.Aligned) {o : Outpoint} {slot : Nat} {coin : Coin}
    (hindex : m.index[o]? = some (slot, coin)) :
    (OutputMap.mk (m.slots.setIfInBounds slot none) (m.index.erase o)).toList =
      CoinList.erase m.toList o := by
  have hslot : m.slots.toList[slot]? = some (some o) := by
    rw [Array.getElem?_toList]
    exact (h o slot).mp ⟨coin, hindex⟩
  rw [CoinList.erase, toList, toList, List.filter_filterMap, Array.toList_setIfInBounds,
    filterMap_set _ hslot]
  · apply List.filterMap_congr
    intro slot' _
    cases slot' with
    | none => rfl
    | some o' =>
      by_cases heq : o = o'
      · subst heq
        cases hfind : m.find? o <;> simp [find?_eraseIndex, hfind, Option.filter_some]
      · cases hfind : m.find? o' <;>
          simp [find?_eraseIndex, hfind, heq, Ne.symm heq, Option.filter_some]
  · simp [find?_eraseIndex]

/-- The entry goes, and the others keep their order. -/
theorem Aligned.toList_erase (h : m.Aligned) (o : Outpoint) :
    (m.erase o).toList = CoinList.erase m.toList o := by
  rw [OutputMap.erase]
  cases hindex : m.index[o]? with
  | none =>
    rw [CoinList.erase, eq_comm, List.filter_eq_self]
    rintro ⟨o', coin⟩ hmem
    have hfind := find?_of_mem_toList hmem
    have hne : o' ≠ o := by
      rintro rfl
      simp [find?, hindex] at hfind
    simpa using hne
  | some entry =>
    dsimp only
    split
    · rw [toList_compact, h.toList_remove hindex]
    · exact h.toList_remove hindex

/-! ## The size of the table -/

/-- The index has as many entries as there are live slots. -/
theorem Aligned.size_eq (h : m.Aligned) : m.size = m.live.length := by
  have hperm : m.index.keys.Perm m.live := by
    rw [List.perm_ext_iff_of_nodup Std.TreeMap.nodup_keys h.nodup_live]
    intro o
    rw [Std.TreeMap.mem_keys, Std.TreeMap.mem_iff_isSome_getElem?, Option.isSome_iff_exists,
      h.mem_live_iff]
  rw [size, ← Std.TreeMap.length_keys, hperm.length_eq]

theorem Aligned.length_toList (h : m.Aligned) : m.toList.length = m.size := by
  rw [h.size_eq, ← h.map_fst_toList, List.length_map]

/-- A slot is added only with an entry. -/
theorem Aligned.slots_size_insert_le (h : m.Aligned) (hsize : m.slots.size ≤ 2 * m.size)
    (o : Outpoint) (coin : Coin) :
    (m.insert o coin).slots.size ≤ 2 * (m.insert o coin).size := by
  rw [(h.insert o coin).size_eq, live_insert]
  rw [h.size_eq] at hsize
  unfold OutputMap.insert find?
  cases m.index[o]? with
  | some entry => simpa using hsize
  | none =>
    simp
    omega

/-- A table that is too long is compacted, and then no slot is empty. -/
theorem Aligned.slots_size_erase_le (h : m.Aligned) (hsize : m.slots.size ≤ 2 * m.size)
    (o : Outpoint) : (m.erase o).slots.size ≤ 2 * (m.erase o).size := by
  unfold OutputMap.erase
  cases hindex : m.index[o]? with
  | none => exact hsize
  | some entry =>
    have hrest := h.remove hindex
    dsimp only
    split
    · have hfull := hrest.compact.size_eq
      rw [compact_eq] at hfull ⊢
      rw [hfull]
      simp [live, List.filterMap_map]
      omega
    · rename_i hdense
      exact Nat.le_of_not_lt hdense

/-- At least half of the slots are in use. -/
theorem Built.slots_size_le (h : m.Built) : m.slots.size ≤ 2 * m.size := by
  induction h with
  | empty => exact Nat.zero_le _
  | insert o coin hm ih => exact hm.aligned.slots_size_insert_le ih o coin
  | erase o hm ih => exact hm.aligned.slots_size_erase_le ih o

/-! ## Changes in turn -/

/-- The map is one that the operations make, and the list is its view. -/
structure Shows (m : OutputMap) (l : CoinList) : Prop where
  built : m.Built
  toList_eq : m.toList = l

namespace Shows

variable {l : CoinList}

theorem insert (h : m.Shows l) (o : Outpoint) (coin : Coin) :
    (m.insert o coin).Shows (l.insert o coin) where
  built := h.built.insert o coin
  toList_eq := by rw [h.built.aligned.toList_insert, h.toList_eq]

theorem erase (h : m.Shows l) (o : Outpoint) : (m.erase o).Shows (l.erase o) where
  built := h.built.erase o
  toList_eq := by rw [h.built.aligned.toList_erase, h.toList_eq]

/-- The run of one insert for each output, with the outputs numbered from `index`. -/
theorem insertOutputs (txId : Digest) (blockNum : UInt64) (outputs : List TxOutput) :
    ∀ {index : Nat} {m : OutputMap} {l : CoinList}, m.Shows l →
      (insertOutputs txId blockNum index outputs m).Shows
        ((outputs.zipIdx index).foldl
          (fun l output => l.insert ⟨txId, UInt32.ofNat output.2⟩ ⟨output.1, blockNum⟩) l) := by
  induction outputs with
  | nil =>
    intro index m l h
    exact h
  | cons output rest ih =>
    intro index m l h
    exact ih (h.insert ⟨txId, UInt32.ofNat index⟩ ⟨output, blockNum⟩)

theorem change (h : m.Shows l) (c : OutputChange) : (m.change c).Shows (l.change c) := by
  cases c with
  | add o coin => exact h.insert o coin
  | addTx tx blockNum => exact h.insertOutputs tx.id blockNum tx.outputs
  | remove o => exact h.erase o

end Shows

/-- The run of any number of changes. -/
theorem shows_after (changes : List OutputChange) :
    (after changes).Shows (CoinList.after changes) := by
  suffices hrun : ∀ {m : OutputMap} {l : CoinList}, m.Shows l →
      (changes.foldl OutputMap.change m).Shows (changes.foldl CoinList.change l) from
    hrun ⟨.empty, toList_empty⟩
  induction changes with
  | nil =>
    intro m l h
    exact h
  | cons c changes ih =>
    intro m l h
    exact ih (h.change c)

/-! ## The two structures -/

/-- How slot table and index hang together between two changes. -/
structure Tidy (m : OutputMap) : Prop where
  /-- The slot of an entry holds the outpoint of that entry. -/
  own_slot : ∀ (o : Outpoint) (slot : Nat) (coin : Coin),
    m.index[o]? = some (slot, coin) → m.slots[slot]? = some (some o)
  /-- The slot that a removal empties is one of the table's. -/
  slot_lt : ∀ (o : Outpoint) (slot : Nat) (coin : Coin),
    m.index[o]? = some (slot, coin) → slot < m.slots.size
  /-- An occupied slot belongs to one entry. -/
  one_entry : ∀ (slot : Nat) (o : Outpoint), m.slots[slot]? = some (some o) →
    ∃! o' : Outpoint, ∃ coin, m.index[o']? = some (slot, coin)
  slots_size_le : m.slots.size ≤ 2 * m.size

/-- All of it is read off `Aligned`, but for the size. -/
theorem Built.tidy (h : m.Built) : m.Tidy where
  own_slot o slot coin hindex := (h.aligned o slot).mp ⟨coin, hindex⟩
  slot_lt o slot coin hindex := by
    have hslot := (h.aligned o slot).mp ⟨coin, hindex⟩
    exact (Array.getElem?_eq_some_iff.mp hslot).1
  one_entry slot o hslot := by
    refine ⟨o, (h.aligned o slot).mpr hslot, ?_⟩
    intro o' hindex
    rw [h.aligned o' slot, hslot] at hindex
    simpa using hindex.symm
  slots_size_le := h.slots_size_le

/-- **The output map is an association list in the order of arrival.** After any changes
every answer is the list's: what is found under an outpoint, what a removal hands back,
how many there are, and which in which order. Slot table and index are tidy. -/
theorem agrees_with_coinList (changes : List OutputChange) :
    let m := after changes
    let l := CoinList.after changes
    (∀ o, m.find? o = l.lookup o ∧
      m.output? o = (l.lookup o).map Coin.output ∧
      m.contains o = (l.lookup o).isSome ∧
      (m.remove o).1 = (l.lookup o).map Coin.output) ∧
    m.size = l.length ∧
    m.isEmpty = l.isEmpty ∧
    m.toList = l ∧
    m.outputs = l.map (fun entry => entry.2.output) ∧
    m.Tidy := by
  intro m l
  obtain ⟨hbuilt, hview⟩ := shows_after changes
  have hfind (o : Outpoint) : m.find? o = l.lookup o := by
    rw [← hbuilt.aligned.lookup_toList, hview]
  have hsize : m.size = l.length := by
    rw [← hbuilt.aligned.length_toList, hview]
  refine ⟨fun o => ⟨hfind o, ?_, ?_, ?_⟩, hsize, ?_, hview, ?_, hbuilt.tidy⟩
  · rw [output?, hfind]
  · rw [Bool.eq_iff_iff, contains_iff, hfind, Option.isSome_iff_exists]
  · rw [remove, output?, hfind]
  · rw [isEmpty, Std.TreeMap.isEmpty_eq_size_eq_zero, Bool.eq_iff_iff, beq_iff_eq,
      List.isEmpty_iff_length_eq_zero, ← hsize]
    rfl
  · rw [outputs, hview]

end OutputMap

end UtxoLedger
