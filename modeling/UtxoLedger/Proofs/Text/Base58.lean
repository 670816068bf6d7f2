/-
UtxoLedger.Proofs.Text.Base58 — base 58 has one spelling for each byte string.

A byte string is a row of zero bytes and a rest that does not begin with one. Its spelling
is a row of `1`s, as many, and the digits of the number that the rest writes. The two parts
are found again because neither runs on into the other: the digits of a number do not begin
with `1` (`head?_digitsOnto`), its shortest bytes not with zero
(`BigEndian.head?_encode_byteCount`).

`valueFrom_digitsOnto` reads the digits of a number back, and `digitsOnto_of_valueFrom` says
that no other row of digits without a leading `1` has its value.
-/
import Mathlib.Data.List.Basic
import Mathlib.Data.List.TakeWhile
import UtxoLedger.Proofs.Bytes.Shortest
import UtxoLedger.Text.Base58

namespace UtxoLedger.Base58

/-! ## Digits -/

theorem length_alphabet : alphabet.length = 58 := by decide +kernel

theorem digitValue?_digit {d : Nat} (h : d < 58) : digitValue? (digit d) = some d := by
  have hall : ∀ d : Fin 58, digitValue? (digit d) = some d.val := by decide +kernel
  exact hall ⟨d, h⟩

theorem digit_of_digitValue? {c : Char} {d : Nat} (h : digitValue? c = some d) :
    d < 58 ∧ digit d = c := by
  obtain ⟨hlt, hat, -⟩ := List.idxOf?_eq_some_iff.mp h
  refine ⟨length_alphabet ▸ hlt, ?_⟩
  rw [digit, List.getD_eq_getElem?_getD, List.getElem?_eq_getElem hlt, Option.getD_some, hat]

/-- The digit zero is `1`, and no other digit is. -/
theorem digitValue?_one : digitValue? '1' = some 0 := by decide +kernel

theorem digit_zero : digit 0 = '1' := by decide +kernel

/-! ## Numbers -/

theorem digitsOnto_zero (after : List Char) : digitsOnto 0 after = after := by
  rw [digitsOnto, if_pos rfl]

/-- The digits are made from the low end, each in front of the last. -/
theorem digitsOnto_of_ne_zero {n : Nat} (h : n ≠ 0) (after : List Char) :
    digitsOnto n after = digitsOnto (n / 58) (digit (n % 58) :: after) := by
  rw [digitsOnto, if_neg h]

theorem digitsOnto_eq_append (n : Nat) (after : List Char) :
    digitsOnto n after = digitsOnto n [] ++ after := by
  induction n using Nat.strongRecOn generalizing after with
  | ind n ih =>
    by_cases h : n = 0
    · simp [h, digitsOnto_zero]
    · have hless : n / 58 < n := by omega
      rw [digitsOnto_of_ne_zero h, digitsOnto_of_ne_zero h [], ih _ hless,
        ih _ hless (digit (n % 58) :: []), List.append_assoc, List.singleton_append]

/-- One more digit. -/
theorem digitsOnto_mul_add {n d : Nat} (hd : d < 58) (h : n * 58 + d ≠ 0) :
    digitsOnto (n * 58 + d) [] = digitsOnto n [] ++ [digit d] := by
  have hdiv : (n * 58 + d) / 58 = n := by omega
  have hmod : (n * 58 + d) % 58 = d := by omega
  rw [digitsOnto_of_ne_zero h, hdiv, hmod, digitsOnto_eq_append]

/-- The number stands in front of what comes behind its digits. -/
theorem valueFrom_digitsOnto (n : Nat) (after : List Char) :
    valueFrom 0 (digitsOnto n after) = valueFrom n after := by
  induction n using Nat.strongRecOn generalizing after with
  | ind n ih =>
    by_cases h : n = 0
    · rw [h, digitsOnto_zero]
    · have hless : n / 58 < n := by omega
      have hvalue : n / 58 * 58 + n % 58 = n := by omega
      rw [digitsOnto_of_ne_zero h, ih _ hless, valueFrom, digitValue?_digit (by omega)]
      dsimp only
      rw [hvalue]

/-- The first digit is not the zero of the alphabet. -/
theorem head?_digitsOnto (n : Nat) : (digitsOnto n []).head? ≠ some '1' := by
  induction n using Nat.strongRecOn with
  | ind n ih =>
    by_cases h : n = 0
    · simp [h, digitsOnto_zero]
    · rw [digitsOnto_of_ne_zero h, digitsOnto_eq_append]
      by_cases hfirst : n / 58 = 0
      · -- the leading digit, which is `n` itself
        have hdigit := digitValue?_digit (show n % 58 < 58 by omega)
        simp only [hfirst, digitsOnto_zero, List.nil_append, List.head?_cons, ne_eq,
          Option.some.injEq]
        intro hone
        rw [hone, digitValue?_one, Option.some.injEq] at hdigit
        omega
      · have hless : n / 58 < n := by omega
        have hne : digitsOnto (n / 58) [] ≠ [] := by
          rw [digitsOnto_of_ne_zero hfirst, digitsOnto_eq_append]
          simp
        rw [List.head?_append_of_ne_nil _ hne]
        exact ih _ hless

/-- A row of digits behind the number `n` is the rest of the digits of its value, unless it
begins the number with a zero. -/
theorem digitsOnto_of_valueFrom {n v : Nat} {cs : List Char} (h : valueFrom n cs = some v)
    (hn : n ≠ 0 ∨ cs.head? ≠ some '1') : digitsOnto v [] = digitsOnto n [] ++ cs := by
  induction cs generalizing n with
  | nil =>
    obtain rfl : n = v := Option.some.inj h
    rw [List.append_nil]
  | cons c cs ih =>
    rw [valueFrom] at h
    split at h
    · rename_i d hd
      obtain ⟨hlt, rfl⟩ := digit_of_digitValue? hd
      have hmore : n * 58 + d ≠ 0 := by
        rcases hn with hn | hfirst
        · omega
        · intro hzero
          obtain rfl : d = 0 := by omega
          exact hfirst (by rw [List.head?_cons, digit_zero])
      rw [ih h (Or.inl hmore), digitsOnto_mul_add hlt hmore, List.append_assoc,
        List.singleton_append]
    · cases h

/-- Leading zeros do not count in the number. -/
theorem valueFrom_ones_append (count : Nat) (cs : List Char) :
    valueFrom 0 (List.replicate count '1' ++ cs) = valueFrom 0 cs := by
  induction count with
  | zero => rfl
  | succ count ih =>
    rw [List.replicate_succ, List.cons_append, valueFrom, digitValue?_one]
    exact ih

/-! ## The two parts -/

section

variable {α β : Type} [BEq α] [LawfulBEq α] {a : α}

/-- A list is a row of one item and a rest that does not begin with it. -/
theorem exists_leading (a : α) (xs : List α) :
    ∃ count rest, xs = List.replicate count a ++ rest ∧ rest.head? ≠ some a := by
  refine ⟨(xs.takeWhile (· == a)).length, xs.dropWhile (· == a), ?_, ?_⟩
  · have hrow : xs.takeWhile (· == a) = List.replicate (xs.takeWhile (· == a)).length a := by
      refine List.eq_replicate_iff.mpr ⟨rfl, fun b hb => ?_⟩
      have heq := List.mem_takeWhile_imp hb
      exact eq_of_beq heq
    rw [← hrow, List.takeWhile_append_dropWhile]
  · intro hhead
    have hnot := List.head?_dropWhile_not (· == a) xs
    rw [hhead] at hnot
    simp at hnot

theorem map_takeWhile_leading (count : Nat) {rest : List α} (h : rest.head? ≠ some a) (b : β) :
    ((List.replicate count a ++ rest).takeWhile (· == a)).map (fun _ => b) =
      List.replicate count b := by
  have hrest : rest.takeWhile (· == a) = [] := by
    cases rest with
    | nil => rfl
    | cons c rest =>
      rw [List.takeWhile_cons_of_neg]
      simpa using h
  rw [List.takeWhile_append_of_pos (by simp), hrest]
  simp

end

/-- Leading zero bytes are written apart from the number. -/
theorem encodeChars_zeros_append (count : Nat) {bs : Bytes} (h : bs.head? ≠ some 0) :
    encodeChars (List.replicate count 0 ++ bs) =
      List.replicate count '1' ++ digitsOnto (BigEndian.decode bs) [] := by
  rw [encodeChars, map_takeWhile_leading count h, BigEndian.decode_zeros_append]

/-- Leading ones are read apart from the number. -/
theorem decodeChars?_ones_append (count : Nat) {cs : List Char} (h : cs.head? ≠ some '1') :
    decodeChars? (List.replicate count '1' ++ cs) = (valueFrom 0 cs).map fun n =>
      List.replicate count 0 ++ BigEndian.encode (BigEndian.byteCount n) n := by
  rw [decodeChars?, valueFrom_ones_append, map_takeWhile_leading count h]
  cases valueFrom 0 cs <;> rfl

/-- **One spelling for each byte string**: a text is read as a byte string exactly when it is
the one that the byte string is written as. -/
theorem decodeChars?_eq_some_iff {cs : List Char} {bs : Bytes} :
    decodeChars? cs = some bs ↔ cs = encodeChars bs := by
  constructor
  · intro h
    obtain ⟨count, rest, rfl, hrest⟩ := exists_leading '1' cs
    rw [decodeChars?_ones_append count hrest, Option.map_eq_some_iff] at h
    obtain ⟨n, hn, rfl⟩ := h
    rw [encodeChars_zeros_append count (BigEndian.head?_encode_byteCount n),
      BigEndian.decode_encode_byteCount, digitsOnto_of_valueFrom hn (Or.inr hrest),
      digitsOnto_zero, List.nil_append]
  · rintro rfl
    obtain ⟨count, rest, rfl, hrest⟩ := exists_leading 0 bs
    have hvalue : valueFrom 0 (digitsOnto (BigEndian.decode rest) []) =
        some (BigEndian.decode rest) := valueFrom_digitsOnto _ []
    rw [encodeChars_zeros_append count hrest,
      decodeChars?_ones_append count (head?_digitsOnto _), hvalue, Option.map_some,
      BigEndian.encode_byteCount_decode hrest]

theorem toList_encode (bs : Bytes) : (encode bs).toList = encodeChars bs := String.toList_ofList

end UtxoLedger.Base58
