/-
UtxoLedger.Proofs.Json.Numbers — JSON numbers, and the naturals among them.

A number is a bare word, so it must not have a character that ends a word. The parts of a
number are taken from the front of the word one after the other; `TakesWord` says of one part
that what it takes can be in a word, and a number takes the whole word.

A natural is written by its decimal digits. They are a number because the first is not zero,
unless it is the only one (`head?_toDigits`), and they are read as the natural again.
-/
import Mathlib.Data.List.TakeWhile
import UtxoLedger.Json.Basic
import UtxoLedger.Proofs.Json.Scanning

namespace UtxoLedger.Json

open Scanner (endsWord)

/-! ## Numbers are words -/

/-- The same as the core library's digits. -/
theorem isDigit_eq (c : Char) : isDigit c = c.isDigit := by
  rw [Bool.eq_iff_iff]
  simp only [isDigit, Char.isDigit, Bool.and_eq_true, decide_eq_true_eq, UInt32.le_iff_toNat_le,
    ge_iff_le]
  rfl

/-- A digit is one of ten characters. -/
theorem endsWord_of_isDigit {c : Char} (h : isDigit c = true) : endsWord c = false := by
  have hall : ∀ d : Fin 10, endsWord (Char.ofNat (48 + d)) = false := by decide
  simp only [isDigit, Bool.and_eq_true, decide_eq_true_eq] at h
  have hc : 48 + (c.toNat - 48) = c.toNat := by omega
  have hword := hall ⟨c.toNat - 48, by omega⟩
  rwa [hc, Char.ofNat_toNat] at hword

/-- What is taken from the front of a text has no character that ends a word. -/
def TakesWord (take? : List Char → Option (List Char)) : Prop :=
  ∀ cs rest, take? cs = some rest → (∀ c ∈ rest, endsWord c = false) →
    ∀ c ∈ cs, endsWord c = false

/-- Parts one after the other take what can be in a word. -/
theorem TakesWord.bind {first second : List Char → Option (List Char)} (hfirst : TakesWord first)
    (hsecond : TakesWord second) : TakesWord fun cs => first cs >>= second := by
  intro cs rest h hrest
  obtain ⟨middle, hmiddle, hlast⟩ := Option.bind_eq_some_iff.mp h
  exact hfirst cs middle hmiddle (hsecond middle rest hlast hrest)

theorem takesWord_afterDigits? : TakesWord afterDigits? := by
  intro cs rest h hrest
  cases cs with
  | nil => cases h
  | cons c cs =>
    rw [afterDigits?] at h
    split at h
    · rename_i hc
      obtain rfl := Option.some.inj h
      intro a ha
      rw [← List.takeWhile_append_dropWhile (p := isDigit) (l := cs)] at ha
      simp only [List.mem_cons, List.mem_append] at ha
      rcases ha with rfl | ha | ha
      · exact endsWord_of_isDigit hc
      · exact endsWord_of_isDigit (List.all_eq_true.mp List.all_takeWhile a ha)
      · exact hrest a ha
    · cases h

theorem takesWord_afterInteger? : TakesWord afterInteger? := by
  intro cs rest h hrest
  unfold afterInteger? at h
  split at h
  · obtain rfl := Option.some.inj h
    exact List.forall_mem_cons.mpr ⟨by decide, hrest⟩
  · exact takesWord_afterDigits? cs rest h hrest

theorem takesWord_afterFraction? : TakesWord afterFraction? := by
  intro cs rest h hrest
  unfold afterFraction? at h
  split at h
  · exact List.forall_mem_cons.mpr ⟨by decide, takesWord_afterDigits? _ rest h hrest⟩
  · obtain rfl := Option.some.inj h
    exact hrest

theorem takesWord_afterExponent? : TakesWord afterExponent? := by
  intro cs rest h hrest
  unfold afterExponent? at h
  split at h
  · rename_i c more
    split at h
    · rename_i hletter
      have hc : endsWord c = false := by
        rcases hletter with rfl | rfl <;> decide
      split at h
      · rename_i sign digits
        split at h
        · rename_i hsign
          have hs : endsWord sign = false := by
            rcases hsign with rfl | rfl <;> decide
          exact List.forall_mem_cons.mpr ⟨hc, List.forall_mem_cons.mpr
            ⟨hs, takesWord_afterDigits? digits rest h hrest⟩⟩
        · exact List.forall_mem_cons.mpr ⟨hc, takesWord_afterDigits? _ rest h hrest⟩
      · cases h
    · obtain rfl := Option.some.inj h
      exact hrest
  · obtain rfl := Option.some.inj h
    exact hrest

/-- No number contains what would end it. -/
theorem endsWord_of_isNumber {word : List Char} (h : isNumber word = true) :
    ∀ c ∈ word, endsWord c = false := by
  have hparts := (takesWord_afterInteger?.bind takesWord_afterFraction?).bind
    takesWord_afterExponent?
  unfold isNumber at h
  dsimp only at h
  split at h
  · have hrest := hparts _ [] (eq_of_beq h) (by simp)
    exact List.forall_mem_cons.mpr ⟨by decide, hrest⟩
  · exact hparts _ [] (eq_of_beq h) (by simp)

/-- A number is read as a word, and the word is read as that number. -/
theorem stable_of_isNumber {word : List Char} (h : isNumber word = true) :
    (Token.word word).Stable := by
  refine ⟨?_, endsWord_of_isNumber h⟩
  rintro rfl
  cases h

/-- The three words with a value of their own are not numbers. -/
theorem wordValue?_of_isNumber {word : List Char} (h : isNumber word = true) :
    Parser.wordValue? word = some (.number word) := by
  have hname : ∀ name, isNumber name = false → word ≠ name := by
    rintro name hfalse rfl
    rw [h] at hfalse
    cases hfalse
  rw [Parser.wordValue?, if_neg (hname _ (by decide)), if_neg (hname _ (by decide)),
    if_neg (hname _ (by decide)), if_pos h]

/-! ## Naturals -/

theorem isDigit_of_mem_toDigits {n : Nat} {c : Char} (h : c ∈ Nat.toDigits 10 n) :
    isDigit c = true := by
  rw [isDigit_eq]
  exact Nat.isDigit_of_mem_toDigits (by decide) (by decide) h

/-- There is no leading zero, for which a number would be refused. -/
theorem head?_toDigits {n : Nat} (h : 0 < n) : (Nat.toDigits 10 n).head? ≠ some '0' := by
  induction n using Nat.strongRecOn with
  | ind n ih =>
    rcases Nat.lt_or_ge n 10 with hn | hn
    · rw [Nat.toDigits_of_lt_base hn]
      simpa using Nat.ne_of_gt h
    · have hshorter : n / 10 < n := Nat.div_lt_self h (by decide)
      have hpos : 0 < n / 10 := Nat.div_pos hn (by decide)
      have hhead := ih (n / 10) hshorter hpos
      obtain ⟨c, cs, hcs⟩ :=
        List.exists_cons_of_ne_nil (Nat.toDigits_ne_nil (n := n / 10) (b := 10))
      rw [Nat.toDigits_of_base_le (by decide) hn]
      rwa [hcs] at hhead ⊢

/-- Digits of which the first is not zero are a number. -/
theorem isNumber_of_digits {c : Char} {cs : List Char} (hc : c ≠ '0')
    (h : ∀ a ∈ c :: cs, isDigit a = true) : isNumber (c :: cs) = true := by
  rw [List.forall_mem_cons] at h
  have hsign : c ≠ '-' := by
    rintro rfl
    exact absurd h.1 (by decide)
  have hrest : cs.dropWhile isDigit = [] := List.dropWhile_eq_nil_iff.mpr h.2
  simp [isNumber, afterInteger?, afterDigits?, hc, hsign, h.1, hrest, afterFraction?,
    afterExponent?]

/-- Zero is one digit, every other natural starts with another digit. -/
theorem isNumber_toDigits (n : Nat) : isNumber (Nat.toDigits 10 n) = true := by
  rcases Nat.eq_zero_or_pos n with rfl | hn
  · rw [Nat.toDigits_zero]
    decide
  · have hhead := head?_toDigits hn
    have hdigits : ∀ a ∈ Nat.toDigits 10 n, isDigit a = true := fun a => isDigit_of_mem_toDigits
    obtain ⟨c, cs, hcs⟩ := List.exists_cons_of_ne_nil (Nat.toDigits_ne_nil (n := n) (b := 10))
    rw [hcs] at hhead hdigits ⊢
    exact isNumber_of_digits (fun hc => hhead (congrArg some hc)) hdigits

theorem natOfDigits_eq (digits : List Char) :
    natOfDigits digits = Nat.ofDigitChars 10 digits 0 := by
  rw [natOfDigits, Nat.ofDigitChars_eq_foldl]
  congr 1
  funext n c
  rw [Nat.mul_comm]
  rfl

theorem natOf?_toDigits (n : Nat) : natOf? (.number (Nat.toDigits 10 n)) = some n := by
  have hall : (Nat.toDigits 10 n).all isDigit = true :=
    List.all_eq_true.mpr fun c => isDigit_of_mem_toDigits
  rw [natOf?, if_pos hall, natOfDigits_eq, Nat.ofDigitChars_ten_toDigits]

end UtxoLedger.Json
