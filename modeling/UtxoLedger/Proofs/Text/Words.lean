/-
UtxoLedger.Proofs.Text.Words — the words of a text, and texts made of words.

A word has a character and none that is blank. `words` finds the words that a text was
joined of by single spaces (`words_intercalate`). The recursion behind `words` is on the
length of what is left, so the proof goes by its one equation, `words_eq`, and takes one
word off the front at a time (`words_append`).
-/
import Mathlib.Data.List.TakeWhile
import UtxoLedger.Text.Blank

namespace UtxoLedger.Blank

def IsWord (word : List Char) : Prop := word ≠ [] ∧ ∀ c ∈ word, isBlank c = false

/-- The same as a computation. -/
theorem isWord_of_all {word : List Char} (hne : word.isEmpty = false)
    (hall : (word.all fun c => !isBlank c) = true) : IsWord word := by
  refine ⟨List.isEmpty_eq_false_iff.mp hne, fun c hc => ?_⟩
  exact Bool.not_eq_true' _ ▸ List.all_eq_true.mp hall c hc

theorem words_eq (cs : List Char) :
    words cs =
      match cs.dropWhile isBlank with
      | [] => []
      | c :: rest => (c :: rest.takeWhile (!isBlank ·)) :: words (rest.dropWhile (!isBlank ·)) := by
  rw [words]
  split <;> rename_i h <;> simp only [h]

theorem words_nil : words [] = [] := by
  rw [words_eq]
  rfl

theorem words_of_blank {c : Char} (h : isBlank c = true) (cs : List Char) :
    words (c :: cs) = words cs := by
  rw [words_eq, words_eq cs, List.dropWhile_cons, if_pos h]

/-- A word ends where the text does, or before a blank. -/
theorem words_append {word rest : List Char} (h : IsWord word)
    (hrest : ∀ c ∈ rest.head?, isBlank c = true) : words (word ++ rest) = word :: words rest := by
  obtain ⟨hne, hword⟩ := h
  obtain ⟨c, others, rfl⟩ := List.exists_cons_of_ne_nil hne
  rw [List.forall_mem_cons] at hword
  have hothers : ∀ a ∈ others, (!isBlank a) = true := by
    intro a ha
    rw [hword.2 a ha]
    rfl
  have htake : rest.takeWhile (!isBlank ·) = [] := by
    cases rest with
    | nil => rfl
    | cons b rest => simp [hrest b (by simp)]
  have hdrop : rest.dropWhile (!isBlank ·) = rest := by
    cases rest with
    | nil => rfl
    | cons b rest => simp [hrest b (by simp)]
  rw [words_eq, List.cons_append, List.dropWhile_cons, hword.1]
  simp only [Bool.false_eq_true, if_false]
  rw [List.takeWhile_append_of_pos hothers, List.dropWhile_append_of_pos hothers, htake, hdrop,
    List.append_nil]

/-- Single spaces between words are a way to list them. -/
theorem words_intercalate : ∀ ws : List (List Char), (∀ w ∈ ws, IsWord w) →
    words (List.intercalate [' '] ws) = ws
  | [], _ => words_nil
  | [w], h => by
      rw [List.intercalate_singleton]
      have hword : words (w ++ []) = w :: words [] :=
        words_append (h w List.mem_cons_self) (by simp)
      rwa [List.append_nil, words_nil] at hword
  | w :: w' :: ws, h => by
      rw [List.forall_mem_cons] at h
      have hspace : ∀ c ∈ (' ' :: List.intercalate [' '] (w' :: ws)).head?, isBlank c = true := by
        intro c hc
        obtain rfl : ' ' = c := Option.some.inj hc
        decide
      rw [List.intercalate_cons_cons, List.append_assoc, List.singleton_append,
        words_append h.1 hspace, words_of_blank (by decide), words_intercalate (w' :: ws) h.2]

end UtxoLedger.Blank
