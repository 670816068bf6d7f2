/-
UtxoLedger.Proofs.Curve.Group — what the coordinates of points compute is the group of
the curve.

`Point.Represents p P` says that three numbers stand for a point of the curve over the
prime field, as Mathlib has it, whose addition is known to make a group. Doubling and
adding keep this (`Represents.double`, `Represents.add`), hence so does the walk over
the bits of two scalars, and `combine` gives the sum of two multiples whatever the
scalars (`Represents.combine`).

The generator times the group order is neutral, which is computed; the order is prime.
So no smaller multiple of the generator is neutral (`smul_base_ne_zero`).
-/
import Mathlib.AlgebraicGeometry.EllipticCurve.Affine.Point
import Mathlib.FieldTheory.Finite.Basic
import Mathlib.Tactic.Module
import UtxoLedger.Proofs.Curve.Primes

namespace UtxoLedger.Secp256k1

/-! ## Coordinates -/

/-- The field of the coordinates. -/
abbrev Coordinate := ZMod fieldPrime

theorem fieldPrime_pos : 0 < fieldPrime := prime_fieldPrime.pos

/-- Results are reduced, so that two of them are equal as numbers if they are as
coordinates. -/
theorem add_lt (a b : Nat) : add a b < fieldPrime := Nat.mod_lt _ fieldPrime_pos

theorem sub_lt (a b : Nat) : sub a b < fieldPrime := Nat.mod_lt _ fieldPrime_pos

theorem mul_lt (a b : Nat) : mul a b < fieldPrime := Nat.mod_lt _ fieldPrime_pos

@[simp] theorem cast_add (a b : Nat) : (add a b : Coordinate) = a + b := by
  rw [add, ZMod.natCast_mod, Nat.cast_add]

@[simp] theorem cast_mul (a b : Nat) : (mul a b : Coordinate) = a * b := by
  rw [mul, ZMod.natCast_mod, Nat.cast_mul]

/-- The subtraction adds the prime first. This is why the subtrahend must not exceed it. -/
theorem cast_sub {a b : Nat} (h : b ≤ fieldPrime) : (sub a b : Coordinate) = a - b := by
  rw [sub, ZMod.natCast_mod, Nat.cast_sub (h.trans (Nat.le_add_left _ a)), Nat.cast_add,
    ZMod.natCast_self, add_zero]

@[simp] theorem cast_sub_mul (a b c : Nat) : (sub a (mul b c) : Coordinate) = a - b * c := by
  rw [cast_sub (mul_lt b c).le, cast_mul]

@[simp] theorem cast_sub_sub (a b c : Nat) :
    (sub a (sub b c) : Coordinate) = a - (sub b c : Nat) :=
  cast_sub (sub_lt b c).le

/-- Reduced numbers are told apart by their coordinates. -/
theorem cast_inj {a b : Nat} (ha : a < fieldPrime) (hb : b < fieldPrime) :
    (a : Coordinate) = b ↔ a = b := by
  rw [ZMod.natCast_eq_natCast_iff', Nat.mod_eq_of_lt ha, Nat.mod_eq_of_lt hb]

/-- A test for zero on a reduced number is one on the coordinate. -/
theorem cast_eq_zero_iff {a : Nat} (ha : a < fieldPrime) : (a : Coordinate) = 0 ↔ a = 0 := by
  rw [← Nat.cast_zero, cast_inj ha fieldPrime_pos]

/-- Fermat: the power that is computed is the inverse. -/
theorem cast_inverse {prime : Nat} [Fact prime.Prime] (hodd : 2 < prime) (a : Nat) :
    (inverse prime a : ZMod prime) = (a : ZMod prime)⁻¹ := by
  rw [inverse, cast_powMod]
  by_cases ha : (a : ZMod prime) = 0
  · rw [ha, inv_zero, zero_pow (Nat.sub_ne_zero_of_lt hodd)]
  · refine eq_inv_of_mul_eq_one_right ?_
    have hexponent : prime - 2 + 1 = prime - 1 := by omega
    rw [← pow_succ', hexponent, ZMod.pow_card_sub_one_eq_one ha]

/-! ## The curve -/

/-- The curve y² = x³ + 7. -/
def curve : WeierstrassCurve.Affine Coordinate := ⟨0, 0, 0, 0, 7⟩

/-- The curve has no term in `x * y` and none in `y`, which makes the general formulas of
the library short. The two that follow are the same formulas for this curve. -/
theorem negY_eq (x y : Coordinate) : curve.negY x y = -y := by
  simp only [WeierstrassCurve.Affine.negY, curve, zero_mul, sub_zero]

theorem addX_eq (x₁ x₂ slope : Coordinate) : curve.addX x₁ x₂ slope = slope ^ 2 - x₁ - x₂ := by
  simp only [WeierstrassCurve.Affine.addX, curve, zero_mul, add_zero, sub_zero]

theorem addY_eq (x₁ x₂ y₁ slope : Coordinate) :
    curve.addY x₁ x₂ y₁ slope = slope * (x₁ - curve.addX x₁ x₂ slope) - y₁ := by
  rw [WeierstrassCurve.Affine.addY, WeierstrassCurve.Affine.negAddY, negY_eq]
  ring

theorem equation_iff {x y : Coordinate} : curve.Equation x y ↔ y ^ 2 = x ^ 3 + 7 := by
  rw [WeierstrassCurve.Affine.equation_iff]
  simp only [curve, zero_mul, add_zero]

/-! ## Points -/

/-- Three numbers stand for a point of the curve: for the neutral element if the last is
zero, else for x/z² and y/z³. -/
inductive Point.Represents : Point → curve.Point → Prop
  | neutral {p : Point} (hz : p.z = 0) : Represents p 0
  | affine {p : Point} {x y : Coordinate} {h : curve.Nonsingular x y}
      (hz : (p.z : Coordinate) ≠ 0) (hx : (p.x : Coordinate) = x * p.z ^ 2)
      (hy : (p.y : Coordinate) = y * p.z ^ 3) : Represents p (.some x y h)

namespace Point.Represents

variable {p q : Point} {P Q : curve.Point}

/-- The third coordinate tells the neutral element from all others. -/
theorem z_eq_zero_iff (hp : p.Represents P) : p.z = 0 ↔ P = 0 := by
  cases hp with
  | neutral hz => exact iff_of_true hz rfl
  | affine hz =>
    refine iff_of_false (fun h0 => hz ?_) (WeierstrassCurve.Affine.Point.some_ne_zero _)
    rw [h0, Nat.cast_zero]

section

variable {x₁ x₂ y₁ y₂ : Coordinate} {h₁ : curve.Nonsingular x₁ y₁} {h₂ : curve.Nonsingular x₂ y₂}

theorem z_ne_zero (hp : p.Represents (.some x₁ y₁ h₁)) : p.z ≠ 0 :=
  hp.z_eq_zero_iff.not.mpr (WeierstrassCurve.Affine.Point.some_ne_zero h₁)

/-- Two points are compared over a common denominator. -/
theorem scaledX_eq_iff (hp : p.Represents (.some x₁ y₁ h₁)) (hq : q.Represents (.some x₂ y₂ h₂)) :
    mul p.x (mul q.z q.z) = mul q.x (mul p.z p.z) ↔ x₁ = x₂ := by
  cases hp with
  | affine hz₁ hx₁ hy₁ =>
    cases hq with
    | affine hz₂ hx₂ hy₂ =>
      have hleft : (mul p.x (mul q.z q.z) : Coordinate) = x₁ * (p.z * q.z) ^ 2 := by
        rw [cast_mul, cast_mul, hx₁]
        ring
      have hright : (mul q.x (mul p.z p.z) : Coordinate) = x₂ * (p.z * q.z) ^ 2 := by
        rw [cast_mul, cast_mul, hx₂]
        ring
      rw [← cast_inj (mul_lt _ _) (mul_lt _ _), hleft, hright,
        mul_left_inj' (pow_ne_zero 2 (mul_ne_zero hz₁ hz₂))]

theorem scaledY_eq_iff (hp : p.Represents (.some x₁ y₁ h₁)) (hq : q.Represents (.some x₂ y₂ h₂)) :
    mul p.y (mul (mul q.z q.z) q.z) = mul q.y (mul (mul p.z p.z) p.z) ↔ y₁ = y₂ := by
  cases hp with
  | affine hz₁ hx₁ hy₁ =>
    cases hq with
    | affine hz₂ hx₂ hy₂ =>
      have hleft : (mul p.y (mul (mul q.z q.z) q.z) : Coordinate) = y₁ * (p.z * q.z) ^ 3 := by
        rw [cast_mul, cast_mul, cast_mul, hy₁]
        ring
      have hright : (mul q.y (mul (mul p.z p.z) p.z) : Coordinate) = y₂ * (p.z * q.z) ^ 3 := by
        rw [cast_mul, cast_mul, cast_mul, hy₂]
        ring
      rw [← cast_inj (mul_lt _ _) (mul_lt _ _), hleft, hright,
        mul_left_inj' (pow_ne_zero 3 (mul_ne_zero hz₁ hz₂))]

/-- A sum, from the slope of the line through the two points. -/
theorem of_slope (hxy : ¬(x₁ = x₂ ∧ y₁ = curve.negY x₂ y₂)) {slope : Coordinate}
    (hslope : curve.slope x₁ x₂ y₁ y₂ = slope) (hz : (p.z : Coordinate) ≠ 0)
    (hx : (p.x : Coordinate) = (slope ^ 2 - x₁ - x₂) * p.z ^ 2)
    (hy : (p.y : Coordinate) = (slope * (x₁ - (slope ^ 2 - x₁ - x₂)) - y₁) * p.z ^ 3) :
    p.Represents (.some x₁ y₁ h₁ + .some x₂ y₂ h₂) := by
  rw [WeierstrassCurve.Affine.Point.add_some hxy]
  refine .affine hz ?_ ?_
  · rw [addX_eq, hslope, hx]
  · rw [addY_eq, addX_eq, hslope, hy]

/-- The tangent. What is computed has the coordinates of the sum times powers of 2yz. -/
theorem double_of_ne (hp : p.Represents (.some x₁ y₁ h₁)) (hne : y₁ ≠ curve.negY x₁ y₁) :
    p.double.Represents (.some x₁ y₁ h₁ + .some x₁ y₁ h₁) := by
  rw [Point.double, if_neg hp.z_ne_zero]
  cases hp with
  | affine hz hx hy =>
    have hy0 : 2 * y₁ ≠ 0 := by
      intro h0
      refine hne ?_
      rw [negY_eq]
      linear_combination h0
    -- the slope as an equation without a division, for the combinations below
    have hslope : curve.slope x₁ x₁ y₁ y₁ * (2 * y₁) = 3 * x₁ ^ 2 := by
      rw [WeierstrassCurve.Affine.slope_of_Y_ne rfl hne, negY_eq, sub_neg_eq_add, ← two_mul,
        div_mul_cancel₀ _ hy0]
      simp only [curve, zero_mul, mul_zero, add_zero, sub_zero]
    have hz' : (mul 2 (mul p.y p.z) : Coordinate) = 2 * y₁ * p.z ^ 4 := by
      rw [cast_mul, cast_mul, hy, Nat.cast_ofNat]
      ring
    refine .of_slope (fun h => hne h.2) rfl ?_ ?_ ?_
    · rw [hz']
      exact mul_ne_zero hy0 (pow_ne_zero 4 hz)
    · rw [hz']
      simp only [cast_sub_mul, cast_mul, hx, hy, Nat.cast_ofNat]
      linear_combination
        -(p.z : Coordinate) ^ 8 * (curve.slope x₁ x₁ y₁ y₁ * 2 * y₁ + 3 * x₁ ^ 2) * hslope
    · rw [hz']
      simp only [cast_sub_mul, cast_sub_sub, cast_mul, hx, hy, Nat.cast_ofNat]
      linear_combination
        -(p.z : Coordinate) ^ 12 * (12 * x₁ * y₁ ^ 2 - (9 * x₁ ^ 4 +
          6 * x₁ ^ 2 * y₁ * curve.slope x₁ x₁ y₁ y₁ + 4 * y₁ ^ 2 * curve.slope x₁ x₁ y₁ y₁ ^ 2)) *
          hslope

/-- The chord. -/
theorem add_of_ne (hp : p.Represents (.some x₁ y₁ h₁)) (hq : q.Represents (.some x₂ y₂ h₂))
    (hne : x₁ ≠ x₂) : (p.add q).Represents (.some x₁ y₁ h₁ + .some x₂ y₂ h₂) := by
  rw [Point.add, if_neg hp.z_ne_zero, if_neg hq.z_ne_zero]
  dsimp only
  rw [if_neg ((hp.scaledX_eq_iff hq).not.mpr hne)]
  cases hp with
  | affine hz₁ hx₁ hy₁ =>
    cases hq with
    | affine hz₂ hx₂ hy₂ =>
      -- the slope as an equation without a division, for the combinations below
      have hslope : curve.slope x₁ x₂ y₁ y₂ * (x₁ - x₂) = y₁ - y₂ := by
        rw [WeierstrassCurve.Affine.slope_of_X_ne hne, div_mul_cancel₀ _ (sub_ne_zero.mpr hne)]
      have hz' : (mul (sub (mul q.x (mul p.z p.z)) (mul p.x (mul q.z q.z))) (mul p.z q.z) :
          Coordinate) = (x₂ - x₁) * (p.z * q.z) ^ 3 := by
        rw [cast_mul, cast_sub_mul, cast_mul, cast_mul, cast_mul, cast_mul, hx₁, hx₂]
        ring
      refine .of_slope (fun h => hne h.1) rfl ?_ ?_ ?_
      · rw [hz']
        exact mul_ne_zero (sub_ne_zero.mpr (Ne.symm hne)) (pow_ne_zero 3 (mul_ne_zero hz₁ hz₂))
      · rw [hz']
        simp only [cast_sub_mul, cast_mul, hx₁, hx₂, hy₁, hy₂, Nat.cast_ofNat]
        linear_combination (p.z * q.z : Coordinate) ^ 6 *
          (y₂ - y₁ + curve.slope x₁ x₂ y₁ y₂ * (x₂ - x₁)) * hslope
      · rw [hz']
        simp only [cast_sub_mul, cast_sub_sub, cast_mul, hx₁, hx₂, hy₁, hy₂, Nat.cast_ofNat]
        linear_combination (p.z * q.z : Coordinate) ^ 9 * ((x₂ - x₁) ^ 2 * (2 * x₁ + x₂) -
          ((y₂ - y₁) ^ 2 + (y₂ - y₁) * (curve.slope x₁ x₂ y₁ y₂ * (x₂ - x₁)) +
            (curve.slope x₁ x₂ y₁ y₂ * (x₂ - x₁)) ^ 2)) * hslope

end

/-- Doubling by the slope of the tangent, unless the tangent is vertical. Then the second
coordinate is zero, the point is its own negative, and the formula gives a third coordinate
of zero. -/
theorem double (hp : p.Represents P) : p.double.Represents (P + P) := by
  cases hp with
  | neutral hz =>
    rw [Point.double, if_pos hz, add_zero]
    exact .neutral rfl
  | @affine x y h hz hx hy =>
    have hp : p.Represents (.some x y h) := .affine hz hx hy
    by_cases hopposite : y = curve.negY x y
    · rw [WeierstrassCurve.Affine.Point.add_self_of_Y_eq hopposite, Point.double,
        if_neg hp.z_ne_zero]
      refine .neutral ((cast_eq_zero_iff (mul_lt _ _)).mp ?_)
      rw [negY_eq] at hopposite
      rw [cast_mul, cast_mul, hy, Nat.cast_ofNat]
      linear_combination (p.z : Coordinate) ^ 4 * hopposite
    · exact hp.double_of_ne hopposite

/-- Adding by the slope of the chord. The points may also be equal or opposite, which shows in
the scaled coordinates, or one of them may be neutral, which shows in the third. -/
theorem add (hp : p.Represents P) (hq : q.Represents Q) : (p.add q).Represents (P + Q) := by
  cases P with
  | zero =>
    rw [Point.add, if_pos (hp.z_eq_zero_iff.mpr rfl), ← WeierstrassCurve.Affine.Point.zero_def,
      zero_add]
    exact hq
  | some x₁ y₁ h₁ =>
    cases Q with
    | zero =>
      rw [Point.add, if_neg hp.z_ne_zero, if_pos (hq.z_eq_zero_iff.mpr rfl),
        ← WeierstrassCurve.Affine.Point.zero_def, add_zero]
      exact hp
    | some x₂ y₂ h₂ =>
      by_cases hx : x₁ = x₂
      · have hsame := (hp.scaledX_eq_iff hq).mpr hx
        have hiff := hp.scaledY_eq_iff hq
        rw [Point.add, if_neg hp.z_ne_zero, if_neg hq.z_ne_zero]
        dsimp only
        rw [if_pos hsame]
        subst hx
        by_cases hy : y₁ = y₂
        · rw [if_pos (hiff.mpr hy)]
          subst hy
          exact hp.double
        -- equal first coordinates and different second ones: the points are opposite
        · have hopposite : y₁ = curve.negY x₁ y₂ :=
            (WeierstrassCurve.Affine.Y_eq_of_X_eq h₁.1 h₂.1 rfl).resolve_left hy
          rw [if_neg (hiff.not.mpr hy), WeierstrassCurve.Affine.Point.add_of_Y_eq rfl hopposite]
          exact .neutral rfl
      · exact hp.add_of_ne hq hx

/-- The walk over the low bits of two scalars, by induction on how many there are. -/
theorem combineFrom {u v : Nat} {pq : Point} (hp : p.Represents P) (hq : q.Represents Q)
    (hpq : pq.Represents (P + Q)) : ∀ (bits : Nat) {acc : Point} {A : curve.Point},
    acc.Represents A → (Point.combineFrom u v p q pq bits acc).Represents
      (2 ^ bits • A + ((u % 2 ^ bits) • P + (v % 2 ^ bits) • Q))
  | 0, acc, A, h => by
      simp only [pow_zero, Nat.mod_one, zero_nsmul, one_nsmul, add_zero]
      exact h
  | bits + 1, acc, A, h => by
      have hrest {acc : Point} {B : curve.Point} (hacc : acc.Represents B) :=
        combineFrom (u := u) (v := v) hp hq hpq bits hacc
      rw [Point.combineFrom, Nat.mod_pow_succ, ← Nat.toNat_testBit, Nat.mod_pow_succ,
        ← Nat.toNat_testBit]
      cases u.testBit bits <;> cases v.testBit bits <;>
        simp only [Bool.toNat_true, Bool.toNat_false, mul_zero, mul_one, add_zero]
      · convert hrest h.double using 1
        module
      · convert hrest (h.double.add hq) using 1
        module
      · convert hrest (h.double.add hp) using 1
        module
      · convert hrest (h.double.add hpq) using 1
        module

theorem combine {u v : Nat} (hu : u < 2 ^ 256) (hv : v < 2 ^ 256) (hp : p.Represents P)
    (hq : q.Represents Q) : (Point.combine u p v q).Represents (u • P + v • Q) := by
  have h := combineFrom (u := u) (v := v) hp hq (hp.add hq) 256 (.neutral (p := .neutral) rfl)
  rwa [nsmul_zero, zero_add, Nat.mod_eq_of_lt hu, Nat.mod_eq_of_lt hv] at h

end Point.Represents

/-! ## The generator -/

theorem Point.represents_ofAffine {a b : Nat} {x y : Coordinate} {h : curve.Nonsingular x y}
    (hx : (a : Coordinate) = x) (hy : (b : Coordinate) = y) :
    (ofAffine a b).Represents (.some x y h) := by
  have hz : ((ofAffine a b).z : Coordinate) = 1 := Nat.cast_one
  refine .affine ?_ ?_ ?_
  · rw [hz]
    exact one_ne_zero
  · rw [hz, one_pow, mul_one]
    exact hx
  · rw [hz, one_pow, mul_one]
    exact hy

/-- The generator is on the curve. This is a computation with two large numbers. -/
theorem nonsingular_generator : curve.Nonsingular generator.x generator.y := by
  have hsquare : mul generator.y generator.y =
      add (mul generator.x (mul generator.x generator.x)) 7 := by decide +kernel
  have hequation := congrArg (Nat.cast : Nat → Coordinate) hsquare
  rw [cast_add, cast_mul, cast_mul, cast_mul, Nat.cast_ofNat] at hequation
  refine (WeierstrassCurve.Affine.nonsingular_iff _ _).mpr ⟨equation_iff.mpr ?_, .inr fun hy => ?_⟩
  · linear_combination hequation
  · have hdouble : (mul 2 generator.y : Coordinate) = 0 := by
      simp only [curve, zero_mul, sub_zero] at hy
      rw [cast_mul, Nat.cast_ofNat]
      linear_combination hy
    exact absurd ((cast_eq_zero_iff (mul_lt _ _)).mp hdouble) (by decide +kernel)

/-- The generator as a point of the curve. -/
def base : curve.Point := .some _ _ nonsingular_generator

theorem represents_generator : generator.Represents base := Point.represents_ofAffine rfl rfl

/-- Multiples of the generator, for scalars of 256 bits. -/
theorem represents_multiple {scalar : Nat} (h : scalar < 2 ^ 256) :
    (multiple scalar).Represents (scalar • base) := by
  have hcombine := represents_generator.combine h (v := 0) (by decide)
    (.neutral (p := .neutral) rfl)
  rwa [nsmul_zero, add_zero] at hcombine

/-- The ladder itself computes this multiple, and its result has a third coordinate of zero. -/
theorem order_smul_base : order • base = 0 :=
  (represents_multiple (by decide +kernel)).z_eq_zero_iff.mp (by decide +kernel)

/-- The generator has the order of the group. -/
theorem addOrderOf_base : addOrderOf base = order :=
  addOrderOf_eq_prime order_smul_base (WeierstrassCurve.Affine.Point.some_ne_zero _)

/-- The order is a prime, so no smaller multiple vanishes. -/
theorem smul_base_ne_zero {scalar : Nat} (hpos : 0 < scalar) (hlt : scalar < order) :
    scalar • base ≠ 0 := by
  rw [Ne, ← addOrderOf_dvd_iff_nsmul_eq_zero, addOrderOf_base]
  exact Nat.not_dvd_of_pos_of_lt hpos hlt

end UtxoLedger.Secp256k1
