/-
UtxoLedger.Proofs.Tx.Checks — what the checks of a transaction come to, one by
one and in their order.

`firstRepeat?` walks the outpoints with those behind it in a list. Its two lemmas
say what the walk finds without the walk: nothing exactly when no outpoint occurs
twice, and otherwise the least position whose outpoint occurs before it
(`IsFirstRepeat`).

`checkInputs_eq_ok_iff` and `verify_eq_ok_iff` turn the chain of checks into a
conjunction. Scripts appear there as `checkInputsFrom` only; what they accept is
the subject of `UtxoLedger.Proofs.Tx.Acceptance`. `verify_of_repeat` is the other
side: a repeated outpoint is reported before the map or a script is looked at.
-/
import UtxoLedger.Proofs.Amounts

namespace UtxoLedger

/-- Success of a check, in the form that can be evaluated. -/
theorem eq_ok_of_isOk {ε : Type} {result : Except ε Unit} (h : result.isOk = true) :
    result = .ok () := by
  cases result with
  | ok _ => rfl
  | error _ => cases h

/-! ## Repeated outpoints -/

/-- Position `i` is the first whose outpoint occurs before it. -/
def IsFirstRepeat (os : List Outpoint) (i : Nat) : Prop :=
  (∃ o, os[i]? = some o ∧ o ∈ os.take i) ∧
    ∀ j < i, ∀ o, os[j]? = some o → o ∉ os.take j

namespace Tx

/-- The induction is on the outpoints that are left, for any that were seen. -/
theorem firstRepeat?_eq_none_iff : ∀ (os seen : List Outpoint) (index : Nat),
    firstRepeat? seen index os = none ↔ os.Nodup ∧ ∀ o ∈ os, o ∉ seen
  | [], seen, index => by simp [firstRepeat?]
  | o :: os, seen, index => by
      rw [firstRepeat?, List.nodup_cons, List.forall_mem_cons]
      by_cases hseen : o ∈ seen
      · simp [hseen]
      · have hcontains : ¬ seen.contains o = true := by simpa using hseen
        rw [if_neg hcontains, firstRepeat?_eq_none_iff os (o :: seen) (index + 1)]
        constructor
        · rintro ⟨hnodup, hall⟩
          refine ⟨⟨fun hmem => hall o hmem (List.mem_cons_self), hnodup⟩, hseen, ?_⟩
          exact fun o' hmem hold => hall o' hmem (List.mem_cons_of_mem o hold)
        · rintro ⟨⟨hfresh, hnodup⟩, -, hall⟩
          refine ⟨hnodup, fun o' hmem hold => ?_⟩
          rcases List.mem_cons.mp hold with rfl | hold
          · exact hfresh hmem
          · exact hall o' hmem hold

/-- The walk from position `index` on, behind the outpoints `seen`: what it finds
occurs among those or in the part that was walked, and nothing before it does. -/
theorem firstRepeat?_eq_some : ∀ (os seen : List Outpoint) (index i : Nat),
    firstRepeat? seen index os = some i →
      ∃ k, i = index + k ∧ (∃ o, os[k]? = some o ∧ (o ∈ seen ∨ o ∈ os.take k)) ∧
        ∀ j < k, ∀ o, os[j]? = some o → o ∉ seen ∧ o ∉ os.take j
  | [], seen, index, i, h => by simp [firstRepeat?] at h
  | o :: os, seen, index, i, h => by
      rw [firstRepeat?] at h
      by_cases hseen : o ∈ seen
      · have hcontains : seen.contains o = true := by simpa using hseen
        rw [if_pos hcontains] at h
        refine ⟨0, (Option.some.inj h).symm, ⟨o, rfl, Or.inl hseen⟩, ?_⟩
        intro j hj
        exact absurd hj (Nat.not_lt_zero j)
      · have hcontains : ¬ seen.contains o = true := by simpa using hseen
        rw [if_neg hcontains] at h
        obtain ⟨k, hk, ⟨o', hat, hrepeat⟩, hbefore⟩ :=
          firstRepeat?_eq_some os (o :: seen) (index + 1) i h
        refine ⟨k + 1, by omega, ⟨o', hat, ?_⟩, ?_⟩
        · rw [List.take_succ_cons]
          -- the first outpoint counts as seen for the rest, and as one of those in front
          -- for the whole
          rcases hrepeat with hold | hnew
          · rcases List.mem_cons.mp hold with rfl | hold
            · exact Or.inr List.mem_cons_self
            · exact Or.inl hold
          · exact Or.inr (List.mem_cons_of_mem o hnew)
        · intro j hj o'' hat
          cases j with
          | zero =>
            rw [List.getElem?_cons_zero] at hat
            cases Option.some.inj hat
            exact ⟨hseen, List.not_mem_nil⟩
          | succ j =>
            rw [List.getElem?_cons_succ] at hat
            obtain ⟨hold, hnew⟩ := hbefore j (by omega) o'' hat
            rw [List.take_succ_cons]
            simp only [List.mem_cons, not_or] at hold ⊢
            exact ⟨hold.2, hold.1, hnew⟩

theorem checkDistinct_eq_ok_iff (tx : Tx) : tx.checkDistinct = .ok () ↔ tx.outpoints.Nodup := by
  have hnone := firstRepeat?_eq_none_iff tx.outpoints [] 0
  simp only [List.not_mem_nil, not_false_eq_true, implies_true, and_true] at hnone
  rw [← hnone, checkDistinct]
  split <;> simp [*]

/-- The index in the error is that of the first repetition. -/
theorem checkDistinct_of_repeat (tx : Tx) (h : ¬ tx.outpoints.Nodup) :
    ∃ i, tx.checkDistinct = .error (.duplicateInput i) ∧ IsFirstRepeat tx.outpoints i := by
  rw [← checkDistinct_eq_ok_iff, checkDistinct] at h
  rw [checkDistinct]
  cases hrepeat : firstRepeat? [] 0 tx.outpoints with
  | none => simp [hrepeat] at h
  | some i =>
    obtain ⟨k, rfl, hfound, hbefore⟩ := firstRepeat?_eq_some _ _ _ _ hrepeat
    simp only [List.not_mem_nil, false_or, not_false_eq_true, true_and] at hfound hbefore
    rw [Nat.zero_add]
    exact ⟨k, rfl, hfound, hbefore⟩

/-! ## The chain of checks -/

/-- Repetitions are looked for before any input is checked. -/
theorem checkInputs_eq_ok_iff (tx : Tx) (outputs : OutputMap) (cache : SighashCache) :
    (tx.checkInputs outputs cache).1 = .ok () ↔
      tx.outpoints.Nodup ∧ (tx.checkInputsFrom outputs tx.inputs.length 0 cache).1 = .ok () := by
  rw [← checkDistinct_eq_ok_iff, checkInputs]
  split <;> simp [*]

/-- The checks that the verifier makes, in the order in which it makes them. -/
theorem verify_eq_ok_iff (tx : Tx) (outputs : OutputMap) (cache : SighashCache) :
    (tx.verify outputs cache).1 = .ok () ↔
      tx.inputs ≠ [] ∧ tx.outputs ≠ [] ∧ tx.outpoints.Nodup ∧
        (tx.checkInputsFrom outputs tx.inputs.length 0 cache).1 = .ok () ∧
        tx.checkValues outputs = .ok () := by
  rw [← and_assoc (a := tx.outpoints.Nodup), ← checkInputs_eq_ok_iff, verify]
  by_cases hin : tx.inputs = []
  · simp [hin]
  · by_cases hout : tx.outputs = []
    · simp [hout]
    · have hfull : ¬ (tx.inputs.isEmpty || tx.outputs.isEmpty) = true := by simp [hin, hout]
      rw [if_neg hfull]
      simp only [ne_eq, hin, hout, not_false_eq_true, true_and]
      split <;> simp [*]

/-- A repeated outpoint is reported whatever the map and the scripts are. -/
theorem verify_of_repeat (tx : Tx) (outputs : OutputMap) (cache : SighashCache)
    (hin : tx.inputs ≠ []) (hout : tx.outputs ≠ []) (h : ¬ tx.outpoints.Nodup) :
    ∃ i, (tx.verify outputs cache).1 = .error (.duplicateInput i) ∧
      IsFirstRepeat tx.outpoints i := by
  obtain ⟨i, hcheck, hfirst⟩ := checkDistinct_of_repeat tx h
  refine ⟨i, ?_, hfirst⟩
  simp [verify, checkInputs, hcheck, hin, hout]

end Tx

end UtxoLedger
