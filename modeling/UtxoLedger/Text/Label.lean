/-
UtxoLedger.Text.Label — what stands behind the fixed beginning of a text.
-/

namespace UtxoLedger.Label

/-- The rest of a text behind a label; none if the text begins otherwise. -/
def behind? : (label text : List Char) → Option (List Char)
  | [], text => some text
  | _ :: _, [] => none
  | l :: label, c :: text => if l = c then behind? label text else none

theorem behind?_eq_some_iff {label text rest : List Char} :
    behind? label text = some rest ↔ text = label ++ rest := by
  induction label generalizing text with
  | nil => simp only [behind?, Option.some.injEq, List.nil_append]
  | cons l label ih =>
    cases text with
    | nil => simp only [behind?, reduceCtorEq, List.cons_append]
    | cons c text =>
      by_cases h : l = c
      · simp only [behind?, h, if_true, ih, List.cons_append, List.cons.injEq, true_and]
      · simp only [behind?, h, if_false, List.cons_append, List.cons.injEq, reduceCtorEq, false_iff,
          not_and]
        exact fun hc => absurd hc.symm h

end UtxoLedger.Label
