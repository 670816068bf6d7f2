/-
UtxoLedger.Curve.Secp256k1 — the group of points on y² = x³ + 7 over a prime field.

Coordinates are natural numbers below the field prime. A point is held as
(x, y, z) standing for (x/z², y/z³), and z = 0 stands for the neutral element;
so a sum needs no inversion, and one inversion at the end gives the affine
point. `combine` walks the bits of two scalars together, which is the whole of
a signature check. `lift?` finds the point with a given x and parity of y, the
content of a compressed public key.
-/
import UtxoLedger.Bytes.Basic

namespace UtxoLedger.Secp256k1

/-! ## The field and the scalars -/

/-- The prime of the coordinate field. -/
def fieldPrime : Nat := 0xfffffffffffffffffffffffffffffffffffffffffffffffffffffffefffffc2f

/-- The prime order of the group. -/
def order : Nat := 0xfffffffffffffffffffffffffffffffebaaedce6af48a03bbfd25e8cd0364141

/-- `base` to a power modulo `modulus`, by squaring. -/
def powMod (modulus base exponent : Nat) : Nat :=
  if exponent = 0 then 1 % modulus
  else
    let root := powMod modulus base (exponent / 2)
    let square := root * root % modulus
    if exponent % 2 = 1 then square * base % modulus else square
termination_by exponent
decreasing_by omega

/-- The inverse of a non-zero residue modulo a prime. -/
def inverse (prime a : Nat) : Nat := powMod prime a (prime - 2)

def add (a b : Nat) : Nat := (a + b) % fieldPrime

def sub (a b : Nat) : Nat := (a + fieldPrime - b) % fieldPrime

def mul (a b : Nat) : Nat := a * b % fieldPrime

/-! ## Points -/

/-- The point (x/z², y/z³), or the neutral element when `z` is zero. -/
structure Point where
  x : Nat
  y : Nat
  z : Nat
  deriving DecidableEq, Repr

namespace Point

def neutral : Point := ⟨1, 1, 0⟩

def ofAffine (x y : Nat) : Point := ⟨x, y, 1⟩

/-- The affine coordinates; the neutral element has none. -/
def affine? (p : Point) : Option (Nat × Nat) :=
  if p.z = 0 then none
  else
    let i := inverse fieldPrime p.z
    let i2 := mul i i
    some (mul p.x i2, mul p.y (mul i2 i))

def double (p : Point) : Point :=
  if p.z = 0 then neutral
  else
    let y2 := mul p.y p.y
    let s := mul 4 (mul p.x y2)
    let m := mul 3 (mul p.x p.x)
    let x := sub (mul m m) (mul 2 s)
    ⟨x, sub (mul m (sub s x)) (mul 8 (mul y2 y2)), mul 2 (mul p.y p.z)⟩

def add (p q : Point) : Point :=
  if p.z = 0 then q
  else if q.z = 0 then p
  else
    let pz2 := mul p.z p.z
    let qz2 := mul q.z q.z
    let u1 := mul p.x qz2
    let u2 := mul q.x pz2
    let s1 := mul p.y (mul qz2 q.z)
    let s2 := mul q.y (mul pz2 p.z)
    -- with one first coordinate the points are equal or opposite
    if u1 = u2 then
      if s1 = s2 then double p else neutral
    else
      let h := sub u2 u1
      let r := sub s2 s1
      let h2 := mul h h
      let h3 := mul h h2
      let v := mul u1 h2
      let x := sub (sub (mul r r) h3) (mul 2 v)
      ⟨x, sub (mul r (sub v x)) (mul s1 h3), mul h (mul p.z q.z)⟩

/-- Continues the double-and-add walk over the low `bits` bits of two scalars,
with `pq` the sum of the two points. -/
def combineFrom (u v : Nat) (p q pq : Point) : (bits : Nat) → Point → Point
  | 0, acc => acc
  | bits + 1, acc =>
    let acc := acc.double
    let acc :=
      match u.testBit bits, v.testBit bits with
      | true, true => acc.add pq
      | true, false => acc.add p
      | false, true => acc.add q
      | false, false => acc
    combineFrom u v p q pq bits acc

/-- `u` times `p` plus `v` times `q`, for scalars of at most 256 bits. -/
def combine (u : Nat) (p : Point) (v : Nat) (q : Point) : Point :=
  combineFrom u v p q (p.add q) 256 neutral

end Point

/-- The generator of the group. -/
def generator : Point :=
  .ofAffine 0x79be667ef9dcbbac55a06295ce870b07029bfcdb2dce28d959f2815b16f81798
    0x483ada7726a3c4655da4fbfc0e1108a8fd17b448a68554199c47d08ffb10d4b8

/-- The multiple of the generator. -/
def multiple (scalar : Nat) : Point := .combine scalar generator 0 .neutral

/-! ## Compressed points -/

/-- The point with this x and with y odd or even, if x is on the curve. -/
def lift? (x : Nat) (odd : Bool) : Option Point :=
  if fieldPrime ≤ x then none
  else
    let square := add (mul x (mul x x)) 7
    -- the prime is 3 modulo 4, so this power is a root if there is one
    let root := powMod fieldPrime square ((fieldPrime + 1) / 4)
    if mul root root ≠ square then none
    else
      let isOdd := root % 2 == 1
      some (.ofAffine x (if isOdd == odd then root else sub 0 root))

/-- Reads a tag byte 2 (even y) or 3 (odd y) and the 32 bytes of x. -/
def decompress? : Bytes → Option Point
  | 2 :: x => lift? (BigEndian.decode x) false
  | 3 :: x => lift? (BigEndian.decode x) true
  | _ => none

/-- The 33 bytes of a point; the neutral element is written as 33 zeros. -/
def compress (p : Point) : Bytes :=
  match p.affine? with
  | some (x, y) => (if y % 2 = 1 then 3 else 2) :: BigEndian.encode 32 x
  | none => List.replicate 33 0

theorem length_compress (p : Point) : (compress p).length = 33 := by
  unfold compress
  split
  · rw [List.length_cons, BigEndian.length_encode]
  · rw [List.length_replicate]

end UtxoLedger.Secp256k1
