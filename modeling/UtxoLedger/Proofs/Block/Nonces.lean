/-
UtxoLedger.Proofs.Block.Nonces — counting nonces up is addition modulo 2^256.

The sum is made byte by byte from the low end, with one number for what is still to be
added: at first the whole count, then what a byte did not take. `decode_addLow` is the
invariant of the loop. It holds for any such number and any row of bytes, so it covers long
runs of carries, the end of the loop before the last byte, and the carry that leaves the
highest byte and is dropped.

Two counts from one start are then compared as numbers: below 2^64 they differ modulo
2^256 if they differ at all.
-/
import Mathlib.Algebra.Group.Nat.Defs
import UtxoLedger.Block.Search

namespace UtxoLedger.Nonce

/-- What is written is the sum, less what has no place in the bytes. -/
theorem decode_addLow (carry : Nat) (bs : Bytes) :
    LittleEndian.decode (addLow carry bs) =
      (LittleEndian.decode bs + carry) % 1 <<< (8 * bs.length) := by
  induction bs generalizing carry with
  | nil => simp [addLow, LittleEndian.decode, Nat.mod_one]
  | cons b bs ih =>
    rw [addLow]
    split
    · rename_i hdone
      rw [hdone, Nat.add_zero, Nat.mod_eq_of_lt (LittleEndian.decode_lt (b :: bs))]
    · -- The byte takes the sum modulo 256, and the quotient goes to the bytes above.
      have hlow : (b.toNat + 256 * LittleEndian.decode bs + carry) % 256 =
          (b.toNat + carry) % 256 := by omega
      have hhigh : (b.toNat + 256 * LittleEndian.decode bs + carry) / 256 =
          LittleEndian.decode bs + (b.toNat + carry) / 256 := by omega
      rw [LittleEndian.decode, ih, UInt8.toNat_ofNat', LittleEndian.decode, List.length_cons,
        LittleEndian.shiftLeft_byte, Nat.mod_mul, hlow, hhigh]

/-- The carry runs out at the last byte, so the sum is taken modulo 2^256. -/
theorem toNat_add (start : Digest) (i : UInt64) :
    (add start i).toNat = (start.toNat + i.toNat) % 2 ^ 256 := by
  have hlength : start.toList.reverse.length = 32 := by
    rw [List.length_reverse, start.length_toList]
  rw [Fixed.toNat, add, BigEndian.decode_eq_reverse, List.reverse_reverse, decode_addLow, hlength,
    ← BigEndian.decode_eq_reverse, Fixed.toNat, Nat.one_shiftLeft]

theorem add_eq_ofNat (start : Digest) (i : UInt64) :
    add start i = .ofNat 32 ((start.toNat + i.toNat) % 2 ^ 256) := by
  have hwritten := BigEndian.encode_decode (add start i).toList
  rw [Fixed.length_toList] at hwritten
  rw [← toNat_add]
  exact Fixed.ext hwritten.symm

/-- The two counts together must have a place in 64 bits. -/
theorem add_add (start : Digest) {i j : UInt64} (h : i.toNat + j.toNat < 2 ^ 64) :
    add (add start i) j = add start (i + j) := by
  apply Fixed.toNat_injective
  rw [toNat_add, toNat_add, toNat_add, Nat.mod_add_mod, Nat.add_assoc, UInt64.toNat_add,
    Nat.mod_eq_of_lt h]

/-- A count of 64 bits never comes around in 256. -/
theorem eq_of_add_eq {start : Digest} {i j : UInt64} (h : add start i = add start j) : i = j := by
  have hsum := congrArg Fixed.toNat h
  rw [toNat_add, toNat_add] at hsum
  have hi := i.toNat_lt
  have hj := j.toNat_lt
  apply UInt64.toNat_inj.mp
  omega

/-- **Nonces count up modulo 2^256.** The nonce `i` after a start is the big-endian form, in
32 bytes, of the start's number plus `i`, beginning again at zero behind the last one. So
counting in two steps is counting once, as long as the steps together fit in 64 bits, and
different counts give different nonces. -/
theorem counts_up_modulo (start : Digest) (i : UInt64) :
    add start i = .ofNat 32 ((start.toNat + i.toNat) % 2 ^ 256) ∧
      (∀ j : UInt64, i.toNat + j.toNat < 2 ^ 64 → add (add start i) j = add start (i + j)) ∧
      ∀ j : UInt64, i ≠ j → add start i ≠ add start j :=
  ⟨add_eq_ofNat start i, fun _ => add_add start, fun _ hne hsame => hne (eq_of_add_eq hsame)⟩

/-- A carry through all bytes, then one more step. -/
theorem counts_up_modulo_sample :
    (0xff : UInt64).toNat + (1 : UInt64).toNat < 2 ^ 64 ∧ (0xff : UInt64) ≠ 1 ∧
      add (.replicate 32 0xff) 0xff = .ofNat 32 0xfe ∧
      add (add (.replicate 32 0xff) 0xff) 1 = add (.replicate 32 0xff) 0x100 ∧
      add (.replicate 32 0xff) 0xff ≠ add (.replicate 32 0xff) 1 := by
  have hfits : (0xff : UInt64).toNat + (1 : UInt64).toNat < 2 ^ 64 := by decide
  have hne : (0xff : UInt64) ≠ 1 := by decide
  obtain ⟨-, htwice, hdiffer⟩ := counts_up_modulo (.replicate 32 0xff) 0xff
  exact ⟨hfits, hne, by decide +kernel, htwice 1 hfits, hdiffer 1 hne⟩

end UtxoLedger.Nonce
