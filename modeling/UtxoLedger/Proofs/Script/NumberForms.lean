/-
UtxoLedger.Proofs.Script.NumberForms — the shortest form of a script number.

A byte string of some length writes a number between minus half and half of 256 to that
length (`fitsIn_decode`), and each such number in one way (`eq_of_decode_eq`). So what
there is to say about the shortest form is about lengths: `encode z` has at most `k` bytes
exactly when `z` lies in the range of `k` bytes (`length_encode_le_iff`). No bytes at all
have a range as well, with zero in it and nothing else, so zero is no exception.

The sign is the first bit. For the arithmetic it is read off the unsigned number that the
bytes write, which is compared with half of the range (`decode_eq`): this is linear.
-/
import UtxoLedger.Proofs.Bytes.Shortest
import UtxoLedger.Script.Number

namespace UtxoLedger.Number

theorem pow2_byte (bytes : Nat) : pow2 (8 * (bytes + 1)) = 256 * pow2 (8 * bytes) := by
  rw [pow2, pow2, LittleEndian.shiftLeft_byte]

theorem pow2_pos (bits : Nat) : 0 < pow2 bits := by
  rw [pow2, Nat.one_shiftLeft]
  exact Nat.two_pow_pos bits

/-! ## What the bytes of a length can write -/

/-- The number is one of those that so many bytes can write. -/
def FitsIn (bytes : Nat) (z : Int) : Prop :=
  -(pow2 (8 * bytes) : Int) ≤ 2 * z ∧ 2 * z < pow2 (8 * bytes)

theorem decode_lt (bs : Bytes) : BigEndian.decode bs < pow2 (8 * bs.length) :=
  BigEndian.decode_lt bs

/-- What stands behind a digit counts for less than one more of it. -/
theorem digit_lt_iff {q r p k : Nat} (hr : r < p) : q * p + r < k * p ↔ q < k := by
  constructor
  · intro h
    rcases Nat.lt_or_ge q k with hlt | hge
    · exact hlt
    · have hmul := Nat.mul_le_mul_right p hge
      omega
  · intro h
    have hmul := Nat.mul_le_mul_right p (Nat.succ_le_of_lt h)
    rw [Nat.succ_mul] at hmul
    omega

theorem bigEndian_cons (b : UInt8) (bs : Bytes) :
    BigEndian.decode (b :: bs) = b.toNat * pow2 (8 * bs.length) + BigEndian.decode bs :=
  BigEndian.decode_cons b bs

/-- The sign bit is set from half of the range on. -/
theorem sign_iff (b : UInt8) (bs : Bytes) :
    128 ≤ b.toNat ↔ pow2 (8 * (bs.length + 1)) ≤ 2 * BigEndian.decode (b :: bs) := by
  have hdigit := digit_lt_iff (q := b.toNat) (k := 128) (decode_lt bs)
  rw [pow2_byte, bigEndian_cons]
  omega

/-- The number is negative exactly where the first bit is set. -/
theorem decode_eq (bs : Bytes) :
    decode bs =
      if pow2 (8 * bs.length) ≤ 2 * BigEndian.decode bs
      then (BigEndian.decode bs : Int) - pow2 (8 * bs.length) else BigEndian.decode bs := by
  cases bs with
  | nil => decide +kernel
  | cons b bs =>
    rw [decode, List.length_cons]
    simp only [sign_iff b bs]

/-- What is read from so many bytes fits in them. -/
theorem fitsIn_decode (bs : Bytes) : FitsIn bs.length (decode bs) := by
  have hlt := decode_lt bs
  unfold FitsIn
  rw [decode_eq]
  split <;> omega

/-- Byte strings of one length that write one number are the same. -/
theorem eq_of_decode_eq {bs cs : Bytes} (hlength : bs.length = cs.length)
    (h : decode bs = decode cs) : bs = cs := by
  have hb := decode_lt bs
  have hc := decode_lt cs
  rw [decode_eq, decode_eq, ← hlength] at h
  rw [← hlength] at hc
  refine BigEndian.eq_of_decode_eq hlength ?_
  split at h <;> split at h <;> omega

/-- Without bytes there is only zero. -/
theorem fitsIn_zero_iff {z : Int} : FitsIn 0 z ↔ z = 0 := by
  have hone : pow2 (8 * 0) = 1 := rfl
  rw [FitsIn, hone]
  omega

/-- Zero is written by zero bytes, as many as there are, and by nothing else. -/
theorem decode_eq_zero_iff (bs : Bytes) : decode bs = 0 ↔ ∀ b ∈ bs, b = 0 := by
  have hlt := decode_lt bs
  have hpos := pow2_pos (8 * bs.length)
  rw [← BigEndian.decode_eq_zero_iff, decode_eq]
  split <;> omega

/-! ## How many bytes a number needs -/

/-- The bits of the value, or of its complement for a negative one. -/
def magnitude (z : Int) : Nat := if 0 ≤ z then z.toNat else (-z - 1).toNat

/-- The width is the least in which the number and its sign have a place. -/
theorem width_le_iff {z : Int} {bytes : Nat} :
    width z ≤ bytes + 1 ↔ 2 * magnitude z < pow2 (8 * (bytes + 1)) := by
  have hhalf : pow2 (8 * (bytes + 1)) = 2 * 2 ^ (8 * bytes + 7) := by
    rw [pow2, Nat.one_shiftLeft, ← Nat.pow_succ', Nat.mul_succ]
  have hbits : width z =
      (if magnitude z = 0 then 0 else (magnitude z).log2 + 1) / 8 + 1 := rfl
  rw [hbits, hhalf]
  by_cases hzero : magnitude z = 0
  · have hpos := Nat.two_pow_pos (8 * bytes + 7)
    rw [if_pos hzero]
    omega
  · have hlog := Nat.log2_lt (k := 8 * bytes + 7) hzero
    rw [if_neg hzero]
    omega

/-- **The shortest form has the fewest bytes that can write the number.** -/
theorem length_encode_le_iff {z : Int} {bytes : Nat} :
    (encode z).length ≤ bytes ↔ FitsIn bytes z := by
  have hpos := pow2_pos (8 * bytes)
  unfold encode FitsIn
  by_cases hzero : z = 0
  · rw [if_pos hzero, hzero, List.length_nil]
    omega
  · rw [if_neg hzero, BigEndian.length_encode]
    cases bytes with
    | zero =>
      have hone : pow2 (8 * 0) = 1 := rfl
      have hwidth : 1 ≤ width z := Nat.le_add_left 1 _
      omega
    | succ bytes =>
      rw [width_le_iff, pow2_byte]
      unfold magnitude
      split <;> omega

/-- No number is changed by being written. -/
theorem decode_encode (z : Int) : decode (encode z) = z := by
  have hfits : FitsIn (encode z).length z := length_encode_le_iff.mp (Nat.le_refl _)
  by_cases hzero : z = 0
  · rw [hzero]
    rfl
  · rw [encode, if_neg hzero] at hfits ⊢
    rw [BigEndian.length_encode] at hfits
    obtain ⟨hlow, hhigh⟩ := hfits
    dsimp only
    rw [decode_eq, BigEndian.length_encode, BigEndian.decode_encode]
    · split <;> split <;> omega
    · show _ < pow2 (8 * width z)
      split <;> omega

theorem length_encode_decode_le (bs : Bytes) : (encode (decode bs)).length ≤ bs.length :=
  length_encode_le_iff.mpr (fitsIn_decode bs)

/-- A byte string is the shortest form unless fewer bytes can write its number. -/
theorem encode_decode_eq_iff_length {bs : Bytes} :
    encode (decode bs) = bs ↔ bs.length ≤ (encode (decode bs)).length := by
  constructor
  · intro h
    exact Nat.le_of_eq (congrArg List.length h.symm)
  · intro hlength
    exact eq_of_decode_eq (Nat.le_antisymm (length_encode_decode_le bs) hlength)
      (decode_encode (decode bs))

/-- A natural below 2^64 is a count. -/
theorem toCount?_natCast {n : Nat} (h : n < 18446744073709551616) :
    toCount? (n : Int) = some n := by
  have hrange : 0 ≤ (n : Int) ∧ (n : Int) < 18446744073709551616 := by omega
  rw [toCount?, toUInt64?, if_pos hrange]
  simp [UInt64.toNat_ofNat', Nat.mod_eq_of_lt h]

/-! ## Redundant bytes -/

/-- The first byte cannot be left out. It could if it were zero and stood at the end or
before a clear top bit, or if it were 0xff and stood before a set top bit. -/
def IsMinimal : Bytes → Prop
  | [] => True
  | [b] => b ≠ 0
  | b :: c :: _ => ¬ (b = 0 ∧ c.toNat < 128) ∧ ¬ (b = 0xff ∧ 128 ≤ c.toNat)

instance : DecidablePred IsMinimal
  | [] => .isTrue trivial
  | [b] => inferInstanceAs (Decidable (b ≠ 0))
  | b :: c :: _ =>
    inferInstanceAs (Decidable (¬ (b = 0 ∧ c.toNat < 128) ∧ ¬ (b = 0xff ∧ 128 ≤ c.toNat)))

/-- When one byte less could write what is written with two bytes in front. -/
theorem fitsIn_tail_iff (b c : UInt8) (bs : Bytes) :
    FitsIn (bs.length + 1) (decode (b :: c :: bs)) ↔
      (b = 0 ∧ c.toNat < 128) ∨ (b = 0xff ∧ 128 ≤ c.toNat) := by
  have hb := b.toNat_lt
  have hc := c.toNat_lt
  have hzero : b = 0 ↔ b.toNat = 0 := UInt8.toNat_inj.symm
  have hones : b = 0xff ↔ b.toNat = 255 := UInt8.toNat_inj.symm
  have hvalue : BigEndian.decode (b :: c :: bs) =
      (b.toNat * 256 + c.toNat) * pow2 (8 * bs.length) + BigEndian.decode bs := by
    rw [bigEndian_cons, bigEndian_cons, List.length_cons, pow2_byte, Nat.add_mul, Nat.mul_assoc,
      Nat.add_assoc]
  -- The bytes in front count in units of what stands behind them. One byte less writes the
  -- numbers from -128 to 128 units, and two bytes that write -128 are 65408 without the sign.
  have hpositive := digit_lt_iff (q := b.toNat * 256 + c.toNat) (k := 128) (decode_lt bs)
  have hnegative := digit_lt_iff (q := b.toNat * 256 + c.toNat) (k := 65408) (decode_lt bs)
  have hall := digit_lt_iff (q := b.toNat * 256 + c.toNat) (k := 65536) (decode_lt bs)
  rw [← hvalue] at hpositive hnegative hall
  unfold FitsIn
  rw [hzero, hones, decode_eq]
  simp only [List.length_cons, pow2_byte]
  split <;> omega

theorem isMinimal_iff_length (bs : Bytes) :
    IsMinimal bs ↔ bs.length ≤ (encode (decode bs)).length := by
  match bs with
  | [] => simp [IsMinimal]
  | [b] =>
    have hzero : (encode (decode [b])).length ≤ 0 ↔ b = 0 := by
      rw [length_encode_le_iff, fitsIn_zero_iff, decode_eq_zero_iff]
      simp
    rw [IsMinimal, ne_eq, ← hzero, List.length_singleton]
    omega
  | b :: c :: rest =>
    have htail := fitsIn_tail_iff b c rest
    rw [← length_encode_le_iff] at htail
    rw [IsMinimal, ← not_or, ← htail, List.length_cons, List.length_cons]
    omega

/-- Reading and writing again gives back the shortest form and changes every other. -/
theorem encode_decode_eq_iff (bs : Bytes) : encode (decode bs) = bs ↔ IsMinimal bs := by
  rw [encode_decode_eq_iff_length, isMinimal_iff_length]

/-- **One form for each number.** Every number is read back from its shortest form. Of the
byte strings that write one number that form has the fewest bytes, and it is the one that
is minimal; to write it anew changes it no more. -/
theorem shortest_form_is_canonical :
    (∀ z, decode (encode z) = z) ∧
      ∀ bs, (encode (decode bs)).length ≤ bs.length ∧
        (encode (decode bs) = bs ↔ IsMinimal bs) ∧
        encode (decode (encode (decode bs))) = encode (decode bs) := by
  refine ⟨decode_encode, fun bs => ⟨length_encode_decode_le bs, encode_decode_eq_iff bs, ?_⟩⟩
  rw [decode_encode]

/-- A sign byte of its own comes with the first number whose top bit would tell the wrong sign. -/
example : encode 127 = [0x7f] ∧ encode 128 = [0, 0x80] ∧ encode (-128) = [0x80] ∧
    encode (-129) = [0xff, 0x7f] ∧ decode [0, 0, 0x7f] = 127 := by decide +kernel

end UtxoLedger.Number
