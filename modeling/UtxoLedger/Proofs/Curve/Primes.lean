/-
UtxoLedger.Proofs.Curve.Primes — the field prime and the group order are primes.

A number p is prime if some residue has the order p - 1 modulo p, which is seen from
the powers of the residue once the prime factors of p - 1 are known (Lucas). For the
two numbers here there are large primes among these factors, so that each of them is
tested before it is used. The powers are computed by `powMod`, with which the field
takes its inverses and its roots.
-/
import Mathlib.NumberTheory.LucasPrimality
import Mathlib.Tactic.NormNum.Prime
import UtxoLedger.Curve.Secp256k1

namespace UtxoLedger.Secp256k1

/-- Squaring computes the power. -/
theorem powMod_eq (modulus base exponent : Nat) :
    powMod modulus base exponent = base ^ exponent % modulus := by
  induction exponent using Nat.strong_induction_on with
  | h exponent ih =>
    rw [powMod]
    split
    · next hzero => rw [hzero, pow_zero]
    · next hpos =>
      have hhalf := ih (exponent / 2) (Nat.div_lt_self (Nat.pos_of_ne_zero hpos) one_lt_two)
      have hsquare : powMod modulus base (exponent / 2) * powMod modulus base (exponent / 2)
          % modulus = base ^ (2 * (exponent / 2)) % modulus := by
        rw [hhalf, ← Nat.mul_mod, ← pow_add, two_mul]
      dsimp only
      rw [hsquare]
      split
      · next hodd =>
        rw [Nat.mod_mul_mod, ← pow_succ, ← hodd, Nat.div_add_mod]
      · next heven =>
        rw [Nat.mul_div_cancel' (Nat.dvd_of_mod_eq_zero (Nat.mod_two_ne_one.mp heven))]

/-- In the ring of residues, where it needs no remainder. -/
theorem cast_powMod (modulus base exponent : Nat) :
    (powMod modulus base exponent : ZMod modulus) = (base : ZMod modulus) ^ exponent := by
  rw [powMod_eq, ZMod.natCast_mod, Nat.cast_pow]

/-! ## Lucas's test -/

/-- A number, a residue that is to have the greatest order modulo it, and the prime
factors of the number less one, each as often as it occurs. -/
structure LucasTest where
  number : Nat
  residue : Nat
  factors : List Nat

namespace LucasTest

/-- The test, with the primes that are known before it. -/
def passes (known : List Nat) (test : LucasTest) : Bool :=
  test.factors.prod + 1 == test.number &&
    powMod test.number test.residue (test.number - 1) == 1 &&
    test.factors.all fun q =>
      known.contains q && powMod test.number test.residue ((test.number - 1) / q) != 1

/-- The test has a primitive root in it, and lists the prime factors of the number less one,
which must be known already. -/
theorem prime_of_passes {known : List Nat} {test : LucasTest}
    (hknown : ∀ q ∈ known, q.Prime) (h : test.passes known = true) : test.number.Prime := by
  obtain ⟨p, residue, factors⟩ := test
  simp only [passes, Bool.and_eq_true, beq_iff_eq, List.all_eq_true, bne_iff_ne,
    List.contains_iff_mem] at h
  obtain ⟨⟨hproduct, hone⟩, hfactors⟩ := h
  have hsmall : 1 % p = 1 := by
    rw [← hone, powMod_eq, Nat.mod_mod]
  refine lucas_primality p (residue : ZMod p) ?_ fun q hq hdvd hpow => ?_
  · rw [← cast_powMod, hone, Nat.cast_one]
  · have hmem : q ∈ factors := by
      rw [← hproduct, Nat.add_sub_cancel] at hdvd
      obtain ⟨r, hr, hqr⟩ := (Prime.dvd_prod_iff hq.prime).mp hdvd
      rwa [(Nat.prime_dvd_prime_iff_eq hq (hknown r (hfactors r hr).1)).mp hqr]
    have hmod := (ZMod.natCast_eq_natCast_iff' _ _ p).mp
      ((Nat.cast_pow residue _).trans (hpow.trans Nat.cast_one.symm))
    refine (hfactors q hmem).2 ?_
    rw [powMod_eq, hmod, hsmall]

/-- Tests one after another, where each may use the numbers that were tested before. -/
def allPass (known : List Nat) : List LucasTest → Bool
  | [] => true
  | test :: tests => test.passes known && allPass (test.number :: known) tests

/-- Each number that passes is known to the tests behind it. -/
theorem prime_of_allPass : ∀ {known : List Nat} {tests : List LucasTest},
    (∀ q ∈ known, q.Prime) → allPass known tests = true → ∀ p ∈ tests.map number, p.Prime
  | _, [], _, _, _, hmem => absurd hmem List.not_mem_nil
  | known, test :: tests, hknown, h, p, hmem => by
      rw [allPass, Bool.and_eq_true] at h
      have hprime : test.number.Prime := prime_of_passes hknown h.1
      rcases List.mem_cons.mp hmem with rfl | hmem
      · exact hprime
      · exact prime_of_allPass (List.forall_mem_cons.mpr ⟨hprime, hknown⟩) h.2 p hmem

end LucasTest

/-! ## The two primes -/

/-- Primes that are found by division. -/
def smallPrimes : List Nat := [
  2, 3, 5, 7, 11, 17, 29, 31, 41, 53, 59, 97, 109, 149, 293, 461, 631, 797, 971, 1373, 1627, 2011,
  2621, 2657, 4051, 4423, 5323, 7723, 9349, 13441, 16699, 24809, 28181, 41201, 85831, 96557, 120233,
  305873, 1206781, 1627771]

theorem prime_of_mem_smallPrimes : ∀ q ∈ smallPrimes, q.Prime := by
  norm_num [smallPrimes]

/-- The tests for the field prime and for the group order. -/
def primeTests : List LucasTest := [
  ⟨13331831, 13, [2, 5, 971, 1373]⟩,
  ⟨173378833005251801, 6, [2, 2, 2, 5, 5, 2621, 24809, 13331831]⟩,
  ⟨22149492674086928081353, 5, [2, 2, 2, 3, 5323, 173378833005251801]⟩,
  ⟨132896956044521568488119, 6, [2, 3, 22149492674086928081353]⟩,
  ⟨7240687, 3, [2, 3, 1206781]⟩,
  ⟨107590001, 3, [2, 2, 2, 2, 5, 5, 5, 5, 7, 29, 53]⟩,
  ⟨255515944373312847190720520512484175977, 3,
    [2, 2, 2, 7, 7, 11, 1627, 2657, 4423, 41201, 96557, 7240687, 107590001]⟩,
  ⟨205115282021455665897114700593932402728804164701536103180137503955397371, 10,
    [2, 3, 5, 29, 29, 31, 7723, 132896956044521568488119,
      255515944373312847190720520512484175977]⟩,
  ⟨fieldPrime, 3,
    [2, 3, 7, 13441, 205115282021455665897114700593932402728804164701536103180137503955397371]⟩,
  ⟨4681609, 23, [2, 2, 2, 3, 97, 2011]⟩,
  ⟨107361793816595537, 3, [2, 2, 2, 2, 16699, 85831, 4681609]⟩,
  ⟨44706919, 6, [2, 3, 797, 9349]⟩,
  ⟨174723607534414371449, 3, [2, 2, 2, 17, 59, 4051, 120233, 44706919]⟩,
  ⟨545358713, 5, [2, 2, 2, 41, 59, 28181]⟩,
  ⟨297159362677, 2, [2, 2, 3, 3, 11, 461, 1627771]⟩,
  ⟨29047611873442575647497758179, 2, [2, 293, 305873, 545358713, 297159362677]⟩,
  ⟨341948486974166000522343609283189, 2,
    [2, 2, 3, 3, 3, 109, 29047611873442575647497758179]⟩,
  ⟨order, 7,
    [2, 2, 2, 2, 2, 2, 3, 149, 631, 107361793816595537, 174723607534414371449,
      341948486974166000522343609283189]⟩]

theorem allPass_primeTests : LucasTest.allPass smallPrimes primeTests = true := by
  decide +kernel

theorem prime_fieldPrime : fieldPrime.Prime :=
  LucasTest.prime_of_allPass prime_of_mem_smallPrimes allPass_primeTests _ (by decide +kernel)

theorem prime_order : order.Prime :=
  LucasTest.prime_of_allPass prime_of_mem_smallPrimes allPass_primeTests _ (by decide +kernel)

instance : Fact fieldPrime.Prime := ⟨prime_fieldPrime⟩

instance : Fact order.Prime := ⟨prime_order⟩

end UtxoLedger.Secp256k1
