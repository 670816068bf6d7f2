/-
UtxoLedger.Proofs.Outputs.Slots — slot table and index agree.

`Built` are the maps that can be made: from the empty map, by the operations. Of
these a slot holds an outpoint exactly when the index has that outpoint with the
number of the slot (`Aligned`), so that no outpoint stands in two slots. An insert
takes a slot that nothing else has, an erase empties the only one. Compaction gives
new numbers to all, one entry after another; that each entry is written once is what
makes its last number the right one (`getElem?_renumber_of_mem`).

From this follows what coin selection relies on: the list view has each outpoint once
(`nodup_toList`) and only with the coin that the map finds (`find?_of_mem_toList`).
-/
import Mathlib.Data.List.Basic
import UtxoLedger.Proofs.Outputs.Lookup

namespace UtxoLedger

namespace OutputMap

/-- The maps that the operations make. -/
inductive Built : OutputMap → Prop
  | empty : Built .empty
  | insert {m : OutputMap} (o : Outpoint) (coin : Coin) (h : Built m) : Built (m.insert o coin)
  | erase {m : OutputMap} (o : Outpoint) (h : Built m) : Built (m.erase o)

/-- A slot holds an outpoint exactly when the index says so. -/
def Aligned (m : OutputMap) : Prop :=
  ∀ (o : Outpoint) (slot : Nat), (∃ coin, m.index[o]? = some (slot, coin)) ↔
    m.slots[slot]? = some (some o)

/-- The outpoints in the table. -/
def live (m : OutputMap) : List Outpoint := m.slots.toList.filterMap id

/-! ## The operations -/

theorem aligned_empty : empty.Aligned := by
  intro o slot
  simp [empty]

/-- An outpoint that is known keeps its slot. A new one gets a slot behind all others. -/
theorem Aligned.insert {m : OutputMap} (h : m.Aligned) (o : Outpoint) (coin : Coin) :
    (m.insert o coin).Aligned := by
  intro o' slot
  rw [OutputMap.insert]
  cases hold : m.index[o]? with
  | some entry =>
    obtain ⟨slot₀, coin₀⟩ := entry
    simp only [Std.TreeMap.getElem?_insert, Std.LawfulEqCmp.compare_eq_iff_eq, ← h o' slot]
    by_cases heq : o = o'
    · subst heq
      simp [hold]
    · simp [heq]
  -- the outpoint is new, so it stands in no slot but the one that is added
  | none =>
    simp only [Std.TreeMap.getElem?_insert, Std.LawfulEqCmp.compare_eq_iff_eq,
      Array.getElem?_push]
    by_cases heq : o = o'
    · subst heq
      have habsent : m.slots[slot]? ≠ some (some o) := by
        rw [ne_eq, ← h o slot, hold]
        simp
      by_cases hslot : slot = m.slots.size
      · simp [hslot]
      · simp [hslot, habsent, Ne.symm hslot]
    · rw [if_neg heq, h o' slot]
      by_cases hslot : slot = m.slots.size
      · simp [hslot, heq]
      · simp [hslot]

/-- Taking out an outpoint and emptying its slot. -/
theorem Aligned.remove {m : OutputMap} (h : m.Aligned) {o : Outpoint} {slot₀ : Nat} {coin₀ : Coin}
    (hold : m.index[o]? = some (slot₀, coin₀)) :
    (OutputMap.mk (m.slots.setIfInBounds slot₀ none) (m.index.erase o)).Aligned := by
  intro o' slot
  simp only [Std.TreeMap.getElem?_erase, Std.LawfulEqCmp.compare_eq_iff_eq,
    Array.getElem?_setIfInBounds]
  have hslot₀ : m.slots[slot₀]? = some (some o) := (h o slot₀).mp ⟨coin₀, hold⟩
  by_cases heq : o = o'
  · subst heq
    by_cases hslot : slot₀ = slot
    · simp [hslot]
    -- the outpoint stands in one slot only, which is the one that was emptied
    · have habsent : m.slots[slot]? ≠ some (some o) := by
        rw [ne_eq, ← h o slot, hold]
        simp [hslot]
      simp [hslot, habsent]
  · rw [if_neg heq, h o' slot]
    by_cases hslot : slot₀ = slot
    · subst hslot
      simp [hslot₀, heq]
    · simp [hslot]

/-! ## Compaction -/

/-- An outpoint in two slots would have two numbers in the index. -/
theorem Aligned.nodup_live {m : OutputMap} (h : m.Aligned) : m.live.Nodup := by
  unfold live List.Nodup
  rw [List.pairwise_filterMap, List.pairwise_iff_getElem]
  intro i j hi hj hlt o hi' o' hj' heq
  subst heq
  have hslot (k : Nat) (hk : k < m.slots.toList.length) (hid : m.slots.toList[k] = some o) :
      ∃ coin, m.index[o]? = some (k, coin) := by
    rw [h o k, ← Array.getElem?_toList, List.getElem?_eq_getElem hk, hid]
  obtain ⟨coin, hindex⟩ := hslot i hi hi'
  obtain ⟨coin', hindex'⟩ := hslot j hj hj'
  rw [hindex, Option.some_inj, Prod.mk.injEq] at hindex'
  omega

theorem Aligned.mem_live_iff {m : OutputMap} (h : m.Aligned) (o : Outpoint) :
    o ∈ m.live ↔ ∃ entry, m.index[o]? = some entry := by
  rw [live, List.mem_filterMap]
  constructor
  · rintro ⟨slot, hmem, rfl⟩
    obtain ⟨i, hat⟩ := List.mem_iff_getElem?.mp hmem
    obtain ⟨coin, hindex⟩ := (h o i).mpr (by rw [← Array.getElem?_toList, hat])
    exact ⟨(i, coin), hindex⟩
  · rintro ⟨⟨slot, coin⟩, hindex⟩
    have hat := (h o slot).mp ⟨coin, hindex⟩
    rw [← Array.getElem?_toList] at hat
    exact ⟨some o, List.mem_of_getElem? hat, rfl⟩

/-- The index after new slot numbers are written into it, one entry after another. -/
def renumber (entries : List (Outpoint × Nat))
    (index : Std.TreeMap Outpoint (Nat × Coin) Outpoint.order) :
    Std.TreeMap Outpoint (Nat × Coin) Outpoint.order :=
  entries.foldl (fun index entry => index.modify entry.1 fun old => (entry.2, old.2)) index

theorem compact_eq (m : OutputMap) :
    m.compact = ⟨(m.live.map some).toArray, renumber m.live.zipIdx m.index⟩ := rfl

/-- Writing one entry. -/
theorem getElem?_modify_slot (index : Std.TreeMap Outpoint (Nat × Coin) Outpoint.order)
    (o o' : Outpoint) (slot : Nat) :
    (index.modify o fun old => (slot, old.2))[o']? =
      if o = o' then (index[o']?).map fun old => (slot, old.2) else index[o']? := by
  simp only [Std.TreeMap.getElem?_modify, Std.LawfulEqCmp.compare_eq_iff_eq]
  split
  · rename_i heq
    rw [heq]
  · rfl

/-- An entry that is not listed keeps its number. -/
theorem getElem?_renumber_of_not_mem {o : Outpoint} :
    ∀ {entries : List (Outpoint × Nat)}
      (index : Std.TreeMap Outpoint (Nat × Coin) Outpoint.order),
      o ∉ entries.map Prod.fst → (renumber entries index)[o]? = index[o]?
  | [], _, _ => rfl
  | (o', slot') :: rest, index, h => by
      simp only [List.map_cons, List.mem_cons, not_or] at h
      have hrest := getElem?_renumber_of_not_mem (index.modify o' fun old => (slot', old.2)) h.2
      rw [getElem?_modify_slot, if_neg (Ne.symm h.1)] at hrest
      exact hrest

/-- An outpoint that is listed once gets the number it is listed with. -/
theorem getElem?_renumber_of_mem {o : Outpoint} {slot : Nat} :
    ∀ {entries : List (Outpoint × Nat)}
      (index : Std.TreeMap Outpoint (Nat × Coin) Outpoint.order),
      (entries.map Prod.fst).Nodup → (o, slot) ∈ entries →
        (renumber entries index)[o]? = (index[o]?).map fun old => (slot, old.2)
  | (o', slot') :: rest, index, hnodup, hmem => by
      rw [List.map_cons, List.nodup_cons] at hnodup
      rcases List.mem_cons.mp hmem with hfirst | hlater
      -- the number is written here and not again, since the outpoint is not listed behind
      · obtain ⟨rfl, rfl⟩ := Prod.mk.inj hfirst
        have hrest := getElem?_renumber_of_not_mem (index.modify o fun old => (slot, old.2))
          hnodup.1
        rw [getElem?_modify_slot, if_pos rfl] at hrest
        exact hrest
      · have hrest := getElem?_renumber_of_mem (index.modify o' fun old => (slot', old.2))
          hnodup.2 hlater
        have hne : o' ≠ o := fun heq =>
          hnodup.1 (List.mem_map.mpr ⟨(o, slot), hlater, heq.symm⟩)
        rw [getElem?_modify_slot, if_neg hne] at hrest
        exact hrest

/-- The new numbers are the places in the list, in which no outpoint stands twice. -/
theorem Aligned.compact {m : OutputMap} (h : m.Aligned) : m.compact.Aligned := by
  have hnodup : (m.live.zipIdx.map Prod.fst).Nodup := by
    rw [List.zipIdx_map_fst]
    exact h.nodup_live
  have hlisted {o : Outpoint} {slot : Nat} (hat : m.live[slot]? = some o) :
      (renumber m.live.zipIdx m.index)[o]? = (m.index[o]?).map fun old => (slot, old.2) :=
    getElem?_renumber_of_mem m.index hnodup (List.mk_mem_zipIdx_iff_getElem?.mpr hat)
  intro o slot
  have hslots : (m.live.map some).toArray[slot]? = some (some o) ↔ m.live[slot]? = some o := by
    simp
  rw [compact_eq, hslots]
  constructor
  · rintro ⟨coin, hindex⟩
    by_cases hmem : o ∈ m.live
    · obtain ⟨slot', hat⟩ := List.mem_iff_getElem?.mp hmem
      rw [hlisted hat] at hindex
      obtain ⟨old, -, hnew⟩ := Option.map_eq_some_iff.mp hindex
      rw [← (Prod.mk.inj hnew).1, hat]
    -- an entry that is not listed would have kept its number, but the table lists all
    -- entries
    · have hunlisted : o ∉ m.live.zipIdx.map Prod.fst := by rwa [List.zipIdx_map_fst]
      rw [getElem?_renumber_of_not_mem m.index hunlisted] at hindex
      exact absurd ((h.mem_live_iff o).mpr ⟨_, hindex⟩) hmem
  · intro hat
    obtain ⟨entry, hindex⟩ := (h.mem_live_iff o).mp (List.mem_of_getElem? hat)
    exact ⟨entry.2, by rw [hlisted hat, hindex, Option.map_some]⟩

/-- The table may be compacted behind the removal, which keeps the two in agreement. -/
theorem Aligned.erase {m : OutputMap} (h : m.Aligned) (o : Outpoint) : (m.erase o).Aligned := by
  unfold OutputMap.erase
  cases hold : m.index[o]? with
  | none => exact h
  | some entry =>
    have hrest := h.remove hold
    dsimp only
    split
    · exact hrest.compact
    · exact hrest

theorem Built.aligned {m : OutputMap} (h : m.Built) : m.Aligned := by
  induction h with
  | empty => exact aligned_empty
  | insert o coin _ ih => exact ih.insert o coin
  | erase o _ ih => exact ih.erase o

/-! ## The list view -/

/-- The list view has no coin that the map does not find. -/
theorem find?_of_mem_toList {m : OutputMap} {o : Outpoint} {coin : Coin}
    (h : (o, coin) ∈ m.toList) : m.find? o = some coin := by
  obtain ⟨slot, -, hslot⟩ := List.mem_filterMap.mp h
  cases slot with
  | none => cases hslot
  | some o' =>
    obtain ⟨coin', hfind, heq⟩ := Option.map_eq_some_iff.mp hslot
    obtain ⟨rfl, rfl⟩ := Prod.mk.inj heq
    exact hfind

theorem Aligned.map_fst_toList {m : OutputMap} (h : m.Aligned) :
    m.toList.map Prod.fst = m.live := by
  rw [toList, live, List.map_filterMap]
  apply List.filterMap_congr
  intro slot hmem
  cases slot with
  | none => rfl
  | some o =>
    obtain ⟨entry, hindex⟩ := (h.mem_live_iff o).mp (List.mem_filterMap.mpr ⟨some o, hmem, rfl⟩)
    simp [find?, hindex]

/-- No outpoint is listed twice. -/
theorem Aligned.nodup_toList {m : OutputMap} (h : m.Aligned) : (m.toList.map Prod.fst).Nodup := by
  rw [h.map_fst_toList]
  exact h.nodup_live

end OutputMap

end UtxoLedger
