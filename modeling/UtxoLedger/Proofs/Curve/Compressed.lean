/-
UtxoLedger.Proofs.Curve.Compressed — a compressed point is read back.

Where the field prime is 3 modulo 4, a power of a square is a root of it, so `lift?` finds
one of the two ordinates that belong to an abscissa of the curve. They are of different
parity, since their sum is the odd prime, and the tag of a compressed point tells them
apart (`lift?_val`).

A private key is a scalar between 1 and the group order, so its multiple of the generator
is not neutral and has a compressed form: every private key has a public key
(`PublicKey.exists_ofPrivate`).
-/
import UtxoLedger.Key
import UtxoLedger.Proofs.Bytes.Shortest
import UtxoLedger.Proofs.Curve.Group

namespace UtxoLedger

namespace Secp256k1

/-! ## Affine coordinates -/

theorem eq_val {a : Nat} {x : Coordinate} (ha : a < fieldPrime) (h : (a : Coordinate) = x) :
    a = x.val := by
  rw [← h, ZMod.val_cast_of_lt ha]

theorem cast_val (x : Coordinate) : (x.val : Coordinate) = x := ZMod.natCast_rightInverse x

theorem Point.Represents.affine?_eq {p : Point} {x y : Coordinate} {h : curve.Nonsingular x y}
    (hp : p.Represents (.some x y h)) : p.affine? = some (x.val, y.val) := by
  rw [Point.affine?, if_neg hp.z_ne_zero]
  cases hp with
  | affine hz hx hy =>
    have hinverse : (inverse fieldPrime p.z : Coordinate) = (p.z : Coordinate)⁻¹ :=
      cast_inverse (by decide) p.z
    dsimp only
    congr 2
    · refine eq_val (mul_lt _ _) ?_
      rw [cast_mul, cast_mul, hinverse, hx]
      field_simp
    · refine eq_val (mul_lt _ _) ?_
      rw [cast_mul, cast_mul, cast_mul, hinverse, hy]
      field_simp

/-! ## Square roots -/

theorem powMod_lt (base exponent : Nat) : powMod fieldPrime base exponent < fieldPrime := by
  rw [powMod_eq]
  exact Nat.mod_lt _ fieldPrime_pos

/-- The power that is computed as a root of a square squares to it. -/
theorem root_mul_root (y : Coordinate) :
    (y ^ 2) ^ ((fieldPrime + 1) / 4) * (y ^ 2) ^ ((fieldPrime + 1) / 4) = y ^ 2 := by
  have hexponent : 2 * ((fieldPrime + 1) / 4 + (fieldPrime + 1) / 4) = fieldPrime + 1 := by
    decide +kernel
  rw [← pow_add, ← pow_mul, hexponent, pow_succ, ZMod.pow_card, sq]

/-- The ordinate of a point is found from its abscissa and its own parity. -/
theorem lift?_val {x y : Coordinate} (h : curve.Equation x y) :
    lift? x.val (y.val % 2 == 1) = some (.ofAffine x.val y.val) := by
  have hx : x.val < fieldPrime := ZMod.val_lt x
  have hy : y.val < fieldPrime := ZMod.val_lt y
  rw [lift?, if_neg (Nat.not_le_of_lt hx)]
  dsimp only
  generalize hsquare : Secp256k1.add (mul x.val (mul x.val x.val)) 7 = square
  have hsquare_lt : square < fieldPrime := by
    rw [← hsquare]
    exact add_lt _ _
  have hcast : (square : Coordinate) = y ^ 2 := by
    rw [← hsquare, cast_add, cast_mul, cast_mul, cast_val, equation_iff.mp h, Nat.cast_ofNat]
    ring
  -- the power that is computed squares to the right side, so it is one of the two roots
  generalize hroot : powMod fieldPrime square ((fieldPrime + 1) / 4) = root
  have hroot_lt : root < fieldPrime := by
    rw [← hroot]
    exact powMod_lt _ _
  have hroots : (root : Coordinate) * root = y ^ 2 := by
    rw [← hroot, cast_powMod, hcast, root_mul_root]
  have hfound : mul root root = square := by
    rw [← cast_inj (mul_lt _ _) hsquare_lt, cast_mul, hroots, hcast]
  rw [if_neg (not_not.mpr hfound)]
  by_cases hsame : (root : Coordinate) = y
  · rw [eq_val hroot_lt hsame, beq_self_eq_true, if_pos rfl]
  · have hother : (root : Coordinate) = -y :=
      (sq_eq_sq_iff_eq_or_eq_neg.mp ((sq _).trans hroots)).resolve_left hsame
    have hpos : 0 < y.val := by
      refine Nat.pos_of_ne_zero fun hzero => hsame ?_
      rw [hother, (ZMod.val_eq_zero y).mp hzero, neg_zero]
    have hval : root = fieldPrime - y.val := by
      rw [← cast_inj hroot_lt (Nat.sub_lt fieldPrime_pos hpos), Nat.cast_sub hy.le, cast_val,
        ZMod.natCast_self, zero_sub, hother]
    -- the prime is odd, so the two roots differ in parity and the other one is taken
    have hparity : ((root % 2 == 1) == (y.val % 2 == 1)) = false := by
      have hodd : fieldPrime % 2 = 1 := by decide
      rw [beq_eq_false_iff_ne, Ne, Bool.eq_iff_iff, beq_iff_eq, beq_iff_eq]
      omega
    have hneg : sub 0 root = y.val := by
      refine eq_val (sub_lt _ _) ?_
      rw [cast_sub hroot_lt.le, hother, Nat.cast_zero, zero_sub, neg_neg]
    rw [hparity, hneg]
    rfl

/-- A point is found again from its compressed form. -/
theorem decompress?_compress {p : Point} {x y : Coordinate} {h : curve.Nonsingular x y}
    (hp : p.Represents (.some x y h)) :
    decompress? (compress p) = some (.ofAffine x.val y.val) := by
  have hdecode : BigEndian.decode (BigEndian.encode 32 x.val) = x.val :=
    BigEndian.decode_encode ((ZMod.val_lt x).trans (by decide))
  have hlift := lift?_val h.1
  unfold compress
  rw [hp.affine?_eq]
  dsimp only
  split
  · rename_i hodd
    rw [hodd, beq_self_eq_true] at hlift
    exact (congrArg (lift? · true) hdecode).trans hlift
  · rename_i heven
    rw [beq_eq_false_iff_ne.mpr heven] at hlift
    exact (congrArg (lift? · false) hdecode).trans hlift

end Secp256k1

open Secp256k1

/-- The public key of a private key is its multiple of the generator. -/
theorem PublicKey.exists_ofPrivate (key : PrivateKey) :
    ∃ publicKey, ofPrivate key = .ok publicKey ∧
      publicKey.point.Represents (key.scalar • base) := by
  have hsecret := key.valid
  rw [isSecret, Bool.and_eq_true, decide_eq_true_eq, decide_eq_true_eq] at hsecret
  have hrepresents : (multiple key.scalar).Represents (key.scalar • base) :=
    represents_multiple (hsecret.2.trans (by decide))
  have hne : key.scalar • base ≠ 0 := smul_base_ne_zero hsecret.1 hsecret.2
  generalize key.scalar • base = P at hrepresents hne ⊢
  cases P with
  | zero => exact absurd rfl hne
  | some x y h =>
    have hfound := decompress?_compress hrepresents
    have hcurve : (decompress? (compress (multiple key.scalar))).isSome = true := by
      rw [hfound, Option.isSome_some]
    refine ⟨⟨⟨_, length_compress _⟩, hcurve⟩, dif_pos hcurve, ?_⟩
    simp only [point, hfound, Option.get_some]
    exact Point.represents_ofAffine (cast_val x) (cast_val y)

end UtxoLedger
