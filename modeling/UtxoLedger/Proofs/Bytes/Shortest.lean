/-
UtxoLedger.Proofs.Bytes.Shortest — the shortest big-endian form of a number.

Leading zero bytes do not change the number (`decode_zeros_append`), so many byte strings
write the same one. Exactly one of them does not begin with a zero byte: the one of
`byteCount n` bytes. `encode_byteCount_decode` and `decode_encode_byteCount` are the two
directions, and both come from `byteCount_le_iff`: `k` bytes are enough for a number
exactly when it is below 256 to the `k`.
-/
import UtxoLedger.Proofs.Codec.Reads

namespace UtxoLedger.BigEndian

theorem decode_encode {width n : Nat} (h : n < 1 <<< (8 * width)) :
    decode (encode width n) = n := by
  rw [decode_eq_reverse, encode_eq_reverse, List.reverse_reverse, LittleEndian.decode_encode h]

theorem decode_zeros_append (count : Nat) (bs : Bytes) :
    decode (List.replicate count 0 ++ bs) = decode bs := by
  induction count with
  | zero => rfl
  | succ count ih =>
    rw [List.replicate_succ, List.cons_append, decode_cons, ih]
    simp

theorem decode_eq_zero_iff (bs : Bytes) : decode bs = 0 ↔ ∀ b ∈ bs, b = 0 := by
  induction bs with
  | nil => simp [decode, decodeShort]
  | cons b bs ih =>
    have hpos : 1 <<< (8 * bs.length) ≠ 0 := by
      rw [Nat.one_shiftLeft]
      exact Nat.ne_of_gt (Nat.two_pow_pos _)
    have hb : b = 0 ↔ b.toNat = 0 := UInt8.toNat_inj.symm
    rw [decode_cons, Nat.add_eq_zero_iff, ih, List.forall_mem_cons, hb, Nat.mul_eq_zero,
      or_iff_left hpos]

/-- The number of bytes is the least width in which the number has a place. -/
theorem byteCount_le_iff {n k : Nat} : byteCount n ≤ k ↔ n < 1 <<< (8 * k) := by
  rw [Nat.one_shiftLeft, byteCount]
  split
  · rename_i hzero
    rw [hzero]
    exact ⟨fun _ => Nat.two_pow_pos _, fun _ => Nat.zero_le k⟩
  · rename_i hpos
    rw [← Nat.log2_lt hpos]
    omega

/-- Without a leading zero no byte can be left out. -/
theorem byteCount_decode {bs : Bytes} (h : bs.head? ≠ some 0) :
    byteCount (decode bs) = bs.length := by
  apply Nat.le_antisymm
  · exact byteCount_le_iff.mpr (decode_lt bs)
  · cases bs with
    | nil => exact Nat.zero_le _
    | cons b bs =>
      have hb : 0 < b.toNat := by
        apply Nat.pos_of_ne_zero
        intro hzero
        exact h (congrArg some (UInt8.toNat_inj.mp hzero))
      have hlow : 1 <<< (8 * bs.length) ≤ b.toNat * 1 <<< (8 * bs.length) :=
        Nat.le_mul_of_pos_left _ hb
      have hmore : ¬ byteCount (decode (b :: bs)) ≤ bs.length := by
        rw [byteCount_le_iff, decode_cons]
        omega
      exact Nat.lt_of_not_le hmore

/-- Bytes that do not start with zero are the shortest form of their number. -/
theorem encode_byteCount_decode {bs : Bytes} (h : bs.head? ≠ some 0) :
    encode (byteCount (decode bs)) (decode bs) = bs := by
  rw [byteCount_decode h, encode_decode]

theorem decode_encode_byteCount (n : Nat) : decode (encode (byteCount n) n) = n :=
  decode_encode (byteCount_le_iff.mp (Nat.le_refl _))

/-- The shortest form does not start with zero. For zero it is empty. -/
theorem head?_encode_byteCount (n : Nat) : (encode (byteCount n) n).head? ≠ some 0 := by
  intro hzero
  obtain ⟨bs, hbs⟩ := List.head?_eq_some_iff.mp hzero
  have hlength : byteCount n = bs.length + 1 := by
    rw [← length_encode (byteCount n) n, hbs, List.length_cons]
  have hdecode : decode bs = n := by
    rw [← decode_encode_byteCount n, hbs, decode_cons]
    simp
  have hfewer : byteCount n ≤ bs.length := byteCount_le_iff.mpr (hdecode ▸ decode_lt bs)
  omega

end UtxoLedger.BigEndian
