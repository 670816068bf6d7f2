/-
UtxoLedger.Proofs.Text.Hex — strict hexadecimal has one spelling for each byte string.

`Hex.decodeFrom_digits` reads the digits of a byte string back, and
`Hex.eq_append_of_decodeFrom` says that nothing else is read: a digit has one
character (`digit_of_digitValue?`), and two digits make one byte.
-/
import UtxoLedger.Text.Hex

namespace UtxoLedger.Hex

/-! ## Digits -/

theorem digitValue?_digit {d : Nat} (h : d < 16) : digitValue? (digit d) = some d := by
  have hall : ∀ d : Fin 16, digitValue? (digit d) = some d.val := by decide
  exact hall ⟨d, h⟩

/-- Only the characters that digits are written with are read as digits. -/
theorem digit_of_digitValue? {c : Char} {d : Nat} (h : digitValue? c = some d) :
    d < 16 ∧ digit d = c := by
  unfold digitValue? at h
  dsimp only at h
  split at h
  · rename_i hrange
    obtain rfl := Option.some.inj h
    have hcode : 48 + (c.toNat - 48) = c.toNat := by omega
    rw [digit, if_pos (by omega), hcode, Char.ofNat_toNat]
    exact ⟨by omega, rfl⟩
  · split at h
    · rename_i hrange
      obtain rfl := Option.some.inj h
      have hcode : 87 + (c.toNat - 87) = c.toNat := by omega
      rw [digit, if_neg (by omega), hcode, Char.ofNat_toNat]
      exact ⟨by omega, rfl⟩
    · cases h

/-! ## Byte strings -/

theorem digits_cons (b : UInt8) (bs : Bytes) :
    digits (b :: bs) = digit (b.toNat / 16) :: digit (b.toNat % 16) :: digits bs := rfl

/-- Two digits for each byte. -/
theorem length_digits (bs : Bytes) : (digits bs).length = 2 * bs.length := by
  induction bs with
  | nil => rfl
  | cons b bs ih =>
    rw [digits_cons, List.length_cons, List.length_cons, ih, List.length_cons]
    omega

/-- The bytes that were read stand in reverse, as the loop holds them. -/
theorem decodeFrom_digits (done bs : Bytes) :
    decodeFrom done (digits bs) = some (done.reverse ++ bs) := by
  induction bs generalizing done with
  | nil => rw [List.append_nil]; rfl
  | cons b bs ih =>
    have hb : b.toNat < 256 := b.toNat_lt
    have hbyte : UInt8.ofNat (16 * (b.toNat / 16) + b.toNat % 16) = b := by
      rw [Nat.div_add_mod, UInt8.ofNat_toNat]
    rw [digits_cons, decodeFrom, digitValue?_digit (by omega), digitValue?_digit (by omega)]
    dsimp only
    rw [hbyte, ih, List.reverse_cons, List.append_assoc, List.singleton_append]

/-- What is read as a byte string is its digits. -/
theorem eq_append_of_decodeFrom {done bs : Bytes} {cs : List Char}
    (h : decodeFrom done cs = some bs) : ∃ more, bs = done.reverse ++ more ∧ cs = digits more := by
  fun_induction decodeFrom done cs with
  | case1 done => exact ⟨[], by rw [List.append_nil, Option.some.inj h], rfl⟩
  | case2 done c => cases h
  | case3 done hi lo rest x y hy hx ih =>
    obtain ⟨more, rfl, rfl⟩ := ih h
    obtain ⟨hxlt, rfl⟩ := digit_of_digitValue? hx
    obtain ⟨hylt, rfl⟩ := digit_of_digitValue? hy
    have hbyte : (UInt8.ofNat (16 * x + y)).toNat = 16 * x + y := by
      rw [UInt8.toNat_ofNat']
      omega
    have hhigh : (16 * x + y) / 16 = x := by omega
    have hlow : (16 * x + y) % 16 = y := by omega
    refine ⟨UInt8.ofNat (16 * x + y) :: more, ?_, ?_⟩
    · rw [List.reverse_cons, List.append_assoc, List.singleton_append]
    · rw [digits_cons, hbyte, hhigh, hlow]
  | case4 done hi lo rest hnone => cases h

/-- Only digits in lower case are read, so there is one text. -/
theorem decodeFrom_nil_eq_some_iff {cs : List Char} {bs : Bytes} :
    decodeFrom [] cs = some bs ↔ cs = digits bs := by
  constructor
  · intro h
    obtain ⟨more, rfl, rfl⟩ := eq_append_of_decodeFrom h
    rfl
  · rintro rfl
    exact decodeFrom_digits [] bs

theorem toList_encode (bs : Bytes) : (encode bs).toList = digits bs := String.toList_ofList

/-- Each character of a spelling is one of the sixteen digits. -/
theorem exists_digit_of_mem {c : Char} {bs : Bytes} (h : c ∈ digits bs) :
    ∃ d < 16, c = digit d := by
  obtain ⟨b, -, hc⟩ := List.mem_flatMap.mp h
  have hb : b.toNat < 256 := b.toNat_lt
  rcases List.mem_cons.mp hc with rfl | hc
  · exact ⟨b.toNat / 16, by omega, rfl⟩
  · exact ⟨b.toNat % 16, by omega, List.mem_singleton.mp hc⟩

end UtxoLedger.Hex
