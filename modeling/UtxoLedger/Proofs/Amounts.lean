/-
UtxoLedger.Proofs.Amounts — sums of 64-bit amounts and the exact sums.

A sum that is built one amount after another is given up at the first step that
does not fit. `sumFrom?_eq_some_iff` says that this is the exact sum with a
single test at its end: amounts are not negative, so a partial sum never exceeds
the whole. `spentFrom_eq_ok_iff` is the same for the values that inputs spend,
which are looked up on the way.
-/
import Mathlib.Algebra.GroupWithZero.Nat
import UtxoLedger.Validity.Tx
import UtxoLedger.Proofs.Outputs.Lookup

namespace UtxoLedger

namespace Value

/-- The sum is there exactly if it is the sum of the naturals. -/
theorem add?_eq_some_iff (a b c : UInt64) :
    add? a b = some c ↔ c.toNat = a.toNat + b.toNat := by
  unfold add?
  split
  · rename_i hfit
    have hsum : (a + b).toNat = a.toNat + b.toNat := by
      rw [UInt64.toNat_add]
      exact Nat.mod_eq_of_lt hfit
    rw [Option.some_inj, ← hsum, ← UInt64.toNat_inj]
    exact eq_comm
  · rename_i hlarge
    have hc := c.toNat_lt
    constructor
    · intro h
      cases h
    · intro h
      omega

theorem add?_eq_none_iff (a b : UInt64) :
    add? a b = none ↔ 18446744073709551616 ≤ a.toNat + b.toNat := by
  unfold add?
  split
  · rename_i hfit
    simp only [reduceCtorEq, false_iff]
    omega
  · rename_i hlarge
    simp only [true_iff]
    omega

/-- The exact sum of a list of amounts. -/
def exactSum (values : List UInt64) : Nat := (values.map UInt64.toNat).sum

@[simp] theorem exactSum_nil : exactSum [] = 0 := rfl

@[simp] theorem exactSum_cons (v : UInt64) (vs : List UInt64) :
    exactSum (v :: vs) = v.toNat + exactSum vs := rfl

/-- By induction on the values: a partial sum that is too large stays too large, so where
the sum is found to be missing does not matter. -/
theorem sumFrom?_eq_some_iff : ∀ (values : List UInt64) (total sum : UInt64),
    sumFrom? total values = some sum ↔ sum.toNat = total.toNat + exactSum values
  | [], total, sum => by
      rw [sumFrom?, Option.some_inj, exactSum_nil, Nat.add_zero, UInt64.toNat_inj]
      exact eq_comm
  | v :: vs, total, sum => by
      rw [sumFrom?, exactSum_cons]
      split
      · rename_i next hnext
        rw [add?_eq_some_iff] at hnext
        rw [sumFrom?_eq_some_iff vs, hnext, Nat.add_assoc]
      · rename_i hnext
        rw [add?_eq_none_iff] at hnext
        have hsum := sum.toNat_lt
        constructor
        · intro h
          cases h
        · intro h
          omega

theorem sum?_eq_some_iff (values : List UInt64) (sum : UInt64) :
    sum? values = some sum ↔ sum.toNat = exactSum values := by
  rw [sum?, sumFrom?_eq_some_iff]
  simp

/-- A checked sum is missing exactly if the exact one is too large. -/
theorem sum?_eq_none_iff (values : List UInt64) :
    sum? values = none ↔ 18446744073709551616 ≤ exactSum values := by
  constructor
  · intro hnone
    refine Nat.le_of_not_lt fun hfits => ?_
    have hsum : sum? values = some (UInt64.ofNat (exactSum values)) := by
      rw [sum?_eq_some_iff, UInt64.toNat_ofNat']
      exact Nat.mod_eq_of_lt hfits
    cases hnone.symm.trans hsum
  · intro hlarge
    cases hsum : sum? values with
    | none => rfl
    | some sum =>
      rw [sum?_eq_some_iff] at hsum
      have hlt := sum.toNat_lt
      omega

theorem exists_sum? {values : List UInt64} (h : exactSum values < 18446744073709551616) :
    ∃ sum, sum? values = some sum ∧ sum.toNat = exactSum values := by
  cases hsum : sum? values with
  | none => exact absurd ((sum?_eq_none_iff values).mp hsum) (Nat.not_le.mpr h)
  | some sum => exact ⟨sum, rfl, (sum?_eq_some_iff values sum).mp hsum⟩

end Value

/-! ## What a transaction creates and spends -/

/-- The exact sum of the values that the transaction creates. -/
def Tx.outputTotal (tx : Tx) : Nat := Value.exactSum (tx.outputs.map TxOutput.value)

theorem Tx.totalOutput?_eq_some_iff (tx : Tx) (sum : UInt64) :
    tx.totalOutput? = some sum ↔ sum.toNat = tx.outputTotal :=
  Value.sum?_eq_some_iff _ _

/-- The value that the map holds under an outpoint: none counts as zero. -/
def OutputMap.valueAt (m : OutputMap) (o : Outpoint) : Nat :=
  match m.find? o with
  | some coin => coin.output.value.toNat
  | none => 0

theorem OutputMap.valueAt_of_find? {m : OutputMap} {o : Outpoint} {coin : Coin}
    (h : m.find? o = some coin) : m.valueAt o = coin.output.value.toNat := by
  rw [valueAt, h]

/-- The exact sum of the values that the transaction spends. -/
def Tx.spentTotal (tx : Tx) (outputs : OutputMap) : Nat := (tx.outpoints.map outputs.valueAt).sum

/-- The loop over the inputs comes to an amount exactly if every outpoint is in the map, and
the amount is then the exact sum of what lies there. -/
theorem Tx.spentFrom_eq_ok_iff (outputs : OutputMap) (sum : UInt64) :
    ∀ (inputs : List TxInput) (index : Nat) (total : UInt64),
      Tx.spentFrom outputs index total inputs = .ok sum ↔
        (∀ input ∈ inputs, ∃ coin, outputs.find? input.outpoint = some coin) ∧
          sum.toNat = total.toNat +
            ((inputs.map TxInput.outpoint).map outputs.valueAt).sum
  | [], index, total => by
      simp only [Tx.spentFrom, Except.ok.injEq, ← UInt64.toNat_inj, List.map_nil, List.sum_nil,
        Nat.add_zero, List.not_mem_nil, false_implies, implies_true, true_and]
      exact eq_comm
  | input :: rest, index, total => by
      rw [Tx.spentFrom, List.forall_mem_cons]
      split
      · rename_i hfind
        simp [hfind]
      · rename_i coin hfind
        have hvalue := OutputMap.valueAt_of_find? hfind
        simp only [List.map_cons, List.sum_cons, hvalue, hfind, Option.some.injEq,
          exists_eq', true_and]
        split
        · rename_i hnext
          rw [Value.add?_eq_none_iff] at hnext
          -- the partial sum is too large already, and the rest only adds to it
          have hsum := sum.toNat_lt
          constructor
          · intro h
            cases h
          · rintro ⟨-, h⟩
            omega
        · rename_i next hnext
          rw [Value.add?_eq_some_iff] at hnext
          rw [Tx.spentFrom_eq_ok_iff outputs sum rest, hnext, Nat.add_assoc]

/-- The values of a transaction are in order exactly when every spent output is
known, both exact sums fit in 64 bits, and the spent one covers the other. -/
theorem Tx.checkValues_eq_ok_iff (tx : Tx) (outputs : OutputMap) :
    tx.checkValues outputs = .ok () ↔
      (∀ o ∈ tx.outpoints, ∃ coin, outputs.find? o = some coin) ∧
        tx.spentTotal outputs < 18446744073709551616 ∧
        tx.outputTotal < 18446744073709551616 ∧
        tx.outputTotal ≤ tx.spentTotal outputs := by
  have hspentFrom := fun sum => Tx.spentFrom_eq_ok_iff outputs sum tx.inputs 0 0
  simp only [UInt64.toNat_zero, Nat.zero_add, ← List.forall_mem_map (f := TxInput.outpoint)
    (P := fun o => ∃ coin, outputs.find? o = some coin)] at hspentFrom
  unfold Tx.checkValues
  constructor
  · intro h
    split at h
    · cases h
    · rename_i spent hspent
      split at h
      · cases h
      · rename_i created hcreated
        split at h
        · cases h
        · rename_i hcovers
          obtain ⟨hknown, hsum⟩ := (hspentFrom spent).mp hspent
          rw [Tx.totalOutput?_eq_some_iff] at hcreated
          have hs : spent.toNat = tx.spentTotal outputs := hsum
          have hle : created.toNat ≤ spent.toNat := by
            rw [UInt64.lt_iff_toNat_lt] at hcovers
            omega
          exact ⟨hknown, hs ▸ spent.toNat_lt, hcreated ▸ created.toNat_lt, hs ▸ hcreated ▸ hle⟩
  · rintro ⟨hknown, hspent, hcreated, hle⟩
    -- the exact sums fit, so the checked ones are there and are the same numbers
    have hs : (UInt64.ofNat (tx.spentTotal outputs)).toNat = tx.spentTotal outputs := by
      rw [UInt64.toNat_ofNat']
      exact Nat.mod_eq_of_lt hspent
    have hc : (UInt64.ofNat tx.outputTotal).toNat = tx.outputTotal := by
      rw [UInt64.toNat_ofNat']
      exact Nat.mod_eq_of_lt hcreated
    rw [(hspentFrom _).mpr ⟨hknown, hs⟩, (Tx.totalOutput?_eq_some_iff tx _).mpr hc]
    show (if UInt64.ofNat (tx.spentTotal outputs) < UInt64.ofNat tx.outputTotal then _ else _) = _
    rw [if_neg]
    rw [UInt64.lt_iff_toNat_lt, hs, hc]
    omega

end UtxoLedger
