/-
UtxoLedger.Proofs.Curve.Signatures — a signature verifies under the key of its signer.

For a secret d and a message z, a nonce k is written as the abscissa r of kG and as
s = (z + rd)/k, all modulo the group order. From these and from Q = dG the check computes
(z/s)G + (r/s)Q. That is kG again, or its opposite where the lower of s and -s was written
(`Ecdsa.signWith_eq_some`), and both have the abscissa r.

A nonce that cannot be used is passed over, and there is a limit to how often. Whether the
limit is met is a matter of the hash function, and it is the only thing that can go wrong:
a signature verifies exactly if a nonce was found (`Ecdsa.correctAt_iff`).
-/
import UtxoLedger.Proofs.Curve.Compressed
import UtxoLedger.Proofs.KeyPairs

namespace UtxoLedger

namespace Secp256k1

/-! ## Scalars -/

/-- The field of the scalars. -/
abbrev Scalar := ZMod order

theorem cast_ne_zero {a : Nat} (hpos : 0 < a) (hlt : a < order) : (a : Scalar) ≠ 0 := by
  rw [Ne, ZMod.natCast_eq_zero_iff]
  exact Nat.not_dvd_of_pos_of_lt hpos hlt

theorem order_lt : order < 2 ^ 256 := by decide

theorem order_div_two : order / 2 + order / 2 + 1 = order := by decide

/-- Multiples of the base point are told apart by their factor modulo the order. -/
theorem smul_base_eq_iff {a b : Nat} : a • base = b • base ↔ (a : Scalar) = b := by
  rw [nsmul_eq_nsmul_iff_modEq, addOrderOf_base, ZMod.natCast_eq_natCast_iff]

theorem smul_base_eq_neg {a b : Nat} (h : (a : Scalar) = -b) : a • base = -(b • base) := by
  have hsum : (a + b) • base = 0 • base := by
    rw [smul_base_eq_iff, Nat.cast_add, h, neg_add_cancel, Nat.cast_zero]
  rw [add_nsmul, zero_nsmul] at hsum
  exact eq_neg_of_add_eq_zero_left hsum

/-- A point and its opposite have one abscissa. -/
theorem Point.Represents.abscissa_eq {p q : Point} {P Q : curve.Point} (hp : p.Represents P)
    (hq : q.Represents Q) (h : Q = P ∨ Q = -P) :
    q.affine?.map Prod.fst = p.affine?.map Prod.fst := by
  have hneutral {p : Point} (hp : p.Represents 0) : p.affine? = none := by
    rw [Point.affine?, if_pos (hp.z_eq_zero_iff.mpr rfl)]
  cases P with
  | zero =>
    obtain rfl : Q = 0 := h.elim id id
    rw [hneutral hp, hneutral hq]
  | some x y hxy =>
    rcases h with rfl | rfl
    · rw [hp.affine?_eq, hq.affine?_eq]
    · rw [hp.affine?_eq, hq.affine?_eq, Option.map_some, Option.map_some]

end Secp256k1

namespace Ecdsa

open Secp256k1

/-! ## One nonce -/

/-- What one nonce is written as, with the equation on which the check depends. -/
theorem signWith_eq_some {secret message nonce r s : Nat}
    (h : signWith secret message nonce = some (r, s)) :
    nonce < order ∧ (0 < r ∧ r < order) ∧ (0 < s ∧ s ≤ order / 2) ∧
      (∃ x y, (multiple nonce).affine? = some (x, y) ∧ x % order = r) ∧
      ((s * nonce : Scalar) = message + r * secret ∨
        (s * nonce : Scalar) = -(message + r * secret)) := by
  unfold signWith at h
  split at h
  · cases h
  · rename_i hnonce
    split at h
    · cases h
    · rename_i x y hpoint
      dsimp only at h
      generalize hs₀ : inverse order nonce * (message + x % order * secret) % order = s₀ at h
      have hs₀_lt : s₀ < order := by
        rw [← hs₀]
        exact Nat.mod_lt _ prime_order.pos
      have hr_lt : x % order < order := Nat.mod_lt _ prime_order.pos
      have hnonce0 : (nonce : Scalar) ≠ 0 := cast_ne_zero (by omega) (by omega)
      -- the nonce is not zero modulo the order, so the inverse that is computed is one
      have hequation : (s₀ * nonce : Scalar) = message + (x % order : Nat) * secret := by
        have hinverse : (inverse order nonce : Scalar) = (nonce : Scalar)⁻¹ :=
          cast_inverse (by decide) nonce
        rw [← hs₀, ZMod.natCast_mod, Nat.cast_mul, Nat.cast_add, Nat.cast_mul, hinverse]
        field_simp
      have hhalves := order_div_two
      split at h
      · cases h
      · rename_i hzero
        rw [Option.some.injEq, Prod.mk.injEq] at h
        obtain ⟨rfl, rfl⟩ := h
        refine ⟨by omega, ⟨by omega, hr_lt⟩, ?_, ⟨x, y, hpoint, rfl⟩, ?_⟩
        · split <;> omega
        · split
          -- the scalar was in the upper half and was replaced by its negative
          · right
            rw [Nat.cast_sub hs₀_lt.le, ZMod.natCast_self]
            linear_combination -hequation
          · exact .inl hequation

/-- The multiple that the check computes: the nonce, or its opposite. -/
theorem checked_scalar {message secret nonce r s : Nat} (hs : 0 < s ∧ s < order)
    (hequation : (s * nonce : Scalar) = message + r * secret ∨
      (s * nonce : Scalar) = -(message + r * secret)) :
    ((message * inverse order s % order + r * inverse order s % order * secret : Nat) : Scalar) =
        nonce ∨
      ((message * inverse order s % order + r * inverse order s % order * secret : Nat) : Scalar) =
        -nonce := by
  have hs0 : (s : Scalar) ≠ 0 := cast_ne_zero hs.1 hs.2
  have hinverse : (inverse order s : Scalar) = (s : Scalar)⁻¹ := cast_inverse (by decide) s
  have hquotient : ((message * inverse order s % order +
      r * inverse order s % order * secret : Nat) : Scalar) = (message + r * secret) / s := by
    rw [Nat.cast_add, Nat.cast_mul, ZMod.natCast_mod, ZMod.natCast_mod, Nat.cast_mul,
      Nat.cast_mul, hinverse]
    ring
  rw [hquotient, div_eq_iff hs0, div_eq_iff hs0]
  refine hequation.imp (fun h => ?_) fun h => ?_
  · linear_combination -h
  · linear_combination h

/-- The point that the verifier computes is the one that was signed with, or its opposite,
where the scalar was replaced by its negative. They have one abscissa. -/
theorem verify_of_signWith {digest : Digest} {secret nonce r s : Nat} {key : Point}
    (hkey : key.Represents (secret • base))
    (h : signWith secret (scalarOf digest) nonce = some (r, s)) :
    verify digest key (encode r s) = true := by
  obtain ⟨hnonce, hr, hs, ⟨x, y, hpoint, hx⟩, hequation⟩ := signWith_eq_some h
  have hlt := order_lt
  have hhalves := order_div_two
  have hrread : BigEndian.decode ((encode r s).toList.take 32) = r := by
    rw [encode, List.take_left' (BigEndian.length_encode 32 r)]
    exact BigEndian.decode_encode (by omega)
  have hsread : BigEndian.decode ((encode r s).toList.drop 32) = s := by
    rw [encode, List.drop_left' (BigEndian.length_encode 32 r)]
    exact BigEndian.decode_encode (by omega)
  have hscalar := checked_scalar ⟨hs.1, by omega⟩ hequation
  rw [verify, hrread, hsread]
  dsimp only
  rw [if_neg (by omega)]
  generalize hu : scalarOf digest * inverse order s % order = u at hscalar
  generalize hv : r * inverse order s % order = v at hscalar
  have hu_lt : u < order := hu ▸ Nat.mod_lt _ prime_order.pos
  have hv_lt : v < order := hv ▸ Nat.mod_lt _ prime_order.pos
  -- what the verifier computes is a multiple of the base point, since the key is one
  have hsum : (Point.combine u generator v key).Represents ((u + v * secret) • base) := by
    have hcombine := represents_generator.combine (hu_lt.trans hlt) (hv_lt.trans hlt) hkey
    rwa [← mul_nsmul', ← add_nsmul] at hcombine
  have hopposite : (u + v * secret) • base = nonce • base ∨
      (u + v * secret) • base = -(nonce • base) :=
    hscalar.imp smul_base_eq_iff.mpr smul_base_eq_neg
  have habscissa := (represents_multiple (hnonce.trans hlt)).abscissa_eq hsum hopposite
  rw [hpoint, Option.map_some] at habscissa
  obtain ⟨⟨_, _⟩, hsome, rfl⟩ := Option.map_eq_some_iff.mp habscissa
  rw [hsome]
  exact beq_iff_eq.mpr hx

/-! ## The search -/

/-- The search returns only what some nonce gave. -/
theorem exists_signWith_of_search {secret message : Nat} {signature : Nat × Nat} :
    ∀ {attempts : Nat} {g : Generator}, search secret message attempts g = some signature →
      ∃ nonce, signWith secret message nonce = some signature
  | 0, _, h => nomatch h
  | attempts + 1, g, h => by
      rw [search] at h
      split at h
      · rename_i found hfound
        exact ⟨_, hfound.trans h⟩
      · exact exists_signWith_of_search h

/-- What the search for a nonce gives. -/
def found? (digest : Digest) (secret : Nat) : Option (Nat × Nat) :=
  search secret (scalarOf digest) 64 <|
    .ofSeed (BigEndian.encode 32 secret ++ BigEndian.encode 32 (scalarOf digest))

/-- If no nonce is found the signature is all zero. -/
theorem sign_cases (digest : Digest) (secret : Nat) :
    (∃ r s, found? digest secret = some (r, s) ∧ sign digest secret = encode r s) ∨
      (found? digest secret = none ∧ sign digest secret = .zero) := by
  -- Unfolded as a function: with arguments, checking this would set the search going.
  have hsign : sign = sign := rfl
  conv_rhs at hsign => delta sign
  rw [hsign, found?]
  dsimp only
  generalize search secret (scalarOf digest) 64 (.ofSeed (BigEndian.encode 32 secret ++
    BigEndian.encode 32 (scalarOf digest))) = found
  cases found with
  | none => exact .inr ⟨rfl, rfl⟩
  | some signature => exact .inl ⟨_, _, rfl, rfl⟩

/-- The all-zero signature verifies under no key. -/
theorem verify_zero (digest : Digest) (key : Point) : verify digest key .zero = false := by
  have hzero : BigEndian.decode ((Fixed.zero : Signature).toList.take 32) = 0 := by
    decide +kernel
  rw [verify, hzero]
  exact if_pos (.inl rfl)

/-- **Signatures verify.** The signature of a digest verifies under the public key of its
signer exactly if the search for a nonce comes to an end. -/
theorem correctAt_iff {key : PrivateKey} {digest : Digest} :
    CorrectAt key digest ↔ (found? digest key.scalar).isSome = true := by
  obtain ⟨publicKey, hpublic, hrepresents⟩ := PublicKey.exists_ofPrivate key
  have hcorrect_iff : CorrectAt key digest ↔
      verify digest publicKey.point (sign digest key.scalar) = true := by
    constructor
    · intro hcorrect
      exact hcorrect publicKey hpublic
    · intro hverify derived hderived
      obtain rfl : publicKey = derived := Except.ok.inj (hpublic.symm.trans hderived)
      exact hverify
  rw [hcorrect_iff]
  rcases sign_cases digest key.scalar with ⟨r, s, hfound, hsign⟩ | ⟨hfound, hsign⟩
  · obtain ⟨nonce, hnonce⟩ := exists_signWith_of_search hfound
    rw [hfound, hsign, verify_of_signWith hrepresents hnonce]
    exact iff_of_true rfl rfl
  · rw [hfound, hsign, verify_zero]
    exact iff_of_false nofun nofun

end Ecdsa

end UtxoLedger
