/-
UtxoLedger.Bytes.Basic — byte strings and the numbers they write.

  `Bytes`                 a byte string, as the list of its bytes. Everything
                          that is hashed, signed, stored or put on a script
                          stack is one of these.
  `LittleEndian.encode`   a number in a fixed count of bytes, least significant
                          first: the form of every fixed-width field.
  `BigEndian.encode`      the same with the most significant byte first: the
                          form of digests, nonces, scalars and script numbers.

Both readers are total, so a decoder checks the length before it calls one.
`encodeOnto_eq` and `decode_eq_reverse` say that the two byte orders are each
other's reverse, so a law of one is a law of the other.

Fields are short, script numbers need not be. The big-endian functions therefore
split a long string into halves, and only the halves of a few bytes are handled
byte by byte: a long number then takes part in few operations.
-/

namespace UtxoLedger

/-- A byte string. -/
abbrev Bytes := List UInt8

/-- Consecutive pieces of `size + 1` bytes; the last one may be shorter, and
the empty string has none. -/
def Bytes.pieces (size : Nat) : Bytes → List Bytes
  | [] => []
  | b :: bs => (b :: bs.take size) :: Bytes.pieces size (bs.drop size)
termination_by bs => bs.length
decreasing_by simp only [List.length_drop, List.length_cons]; omega

/-! ## Least significant byte first -/

namespace LittleEndian

/-- The `width` low bytes of `n`, least significant first. -/
def encode : (width n : Nat) → Bytes
  | 0, _ => []
  | width + 1, n => UInt8.ofNat n :: encode width (n / 256)

/-- The number whose bytes these are, least significant first. -/
def decode : Bytes → Nat
  | [] => 0
  | b :: bs => b.toNat + 256 * decode bs

@[simp] theorem length_encode (width n : Nat) : (encode width n).length = width := by
  induction width generalizing n with
  | zero => rfl
  | succ width ih => simp only [encode, List.length_cons, ih]

/-- Writing back what was read, at the width it was read from, gives the bytes. -/
theorem encode_decode (bs : Bytes) : encode bs.length (decode bs) = bs := by
  induction bs with
  | nil => rfl
  | cons b bs ih =>
    have hb : b.toNat < 256 := b.toNat_lt
    have hdiv : (b.toNat + 256 * decode bs) / 256 = decode bs := by omega
    have hmod : UInt8.ofNat (b.toNat + 256 * decode bs) = b := by
      apply UInt8.toNat_inj.mp
      rw [UInt8.toNat_ofNat']
      omega
    rw [List.length_cons, decode, encode, hdiv, hmod, ih]

theorem shiftLeft_byte (n k : Nat) : n <<< (8 * (k + 1)) = 256 * n <<< (8 * k) := by
  have h : n <<< (8 * k) <<< 8 = n <<< (8 * k) * 256 := Nat.shiftLeft_eq _ 8
  rw [Nat.mul_add, Nat.shiftLeft_add, h, Nat.mul_comm]

theorem shiftRight_byte (n k : Nat) : n >>> (8 * (k + 1)) = (n / 256) >>> (8 * k) := by
  have h : n >>> 8 = n / 256 := Nat.shiftRight_eq_div_pow n 8
  rw [Nat.mul_add, Nat.add_comm, Nat.shiftRight_add, h]

theorem decode_append (as bs : Bytes) :
    decode (as ++ bs) = decode as + decode bs <<< (8 * as.length) := by
  induction as with
  | nil => rw [List.nil_append, decode, List.length_nil, Nat.shiftLeft_zero, Nat.zero_add]
  | cons a as ih =>
    rw [List.cons_append, decode, ih, decode, List.length_cons, shiftLeft_byte]
    omega

theorem decode_lt (bs : Bytes) : decode bs < 1 <<< (8 * bs.length) := by
  induction bs with
  | nil => exact Nat.one_pos
  | cons b bs ih =>
    have hb : b.toNat < 256 := b.toNat_lt
    rw [decode, List.length_cons, shiftLeft_byte]
    omega

theorem encode_add (j k n : Nat) : encode (j + k) n = encode j n ++ encode k (n >>> (8 * j)) := by
  induction j generalizing n with
  | zero => rw [Nat.zero_add, encode, List.nil_append, Nat.mul_zero, Nat.shiftRight_zero]
  | succ j ih =>
    rw [Nat.succ_add, encode, ih, encode, List.cons_append, shiftRight_byte]

/-- Bytes beyond the width do not count. -/
theorem encode_mod (k n : Nat) : encode k (n % 1 <<< (8 * k)) = encode k n := by
  induction k generalizing n with
  | zero => rfl
  | succ k ih =>
    have hlow : UInt8.ofNat (n % (256 * 1 <<< (8 * k))) = UInt8.ofNat n := by
      apply UInt8.toNat_inj.mp
      rw [UInt8.toNat_ofNat', UInt8.toNat_ofNat']
      exact Nat.mod_mul_right_mod n 256 _
    rw [shiftLeft_byte, encode, encode, hlow, Nat.mod_mul_right_div_self, ih]

end LittleEndian

/-! ## Most significant byte first -/

namespace BigEndian

/-- Writes `width` more bytes of `n` in front of `after`, one by one. -/
def encodeShort : (width n : Nat) → (after : Bytes) → Bytes
  | 0, _, after => after
  | width + 1, n, after => encodeShort width (n / 256) (UInt8.ofNat n :: after)

/-- The number whose bytes these are, most significant first, one by one. -/
def decodeShort (bs : Bytes) : Nat := bs.foldl (fun n b => n * 256 + b.toNat) 0

/-- How many bytes are handled one by one. -/
def short : Nat := 32

/-- Writes `width` more bytes of `n` in front of `after`. -/
def encodeOnto (width n : Nat) (after : Bytes) : Bytes :=
  if width ≤ short then encodeShort width n after
  else
    let back := width / 2
    encodeOnto (width - back) (n >>> (8 * back)) (encodeOnto back (n % 1 <<< (8 * back)) after)
termination_by width
decreasing_by all_goals (rw [short] at *; omega)

/-- The `width` low bytes of `n`, most significant first. -/
def encode (width n : Nat) : Bytes := encodeOnto width n []

/-- The number whose bytes these are, most significant first. -/
def decode (bs : Bytes) : Nat :=
  if bs.length ≤ short then decodeShort bs
  else
    let back := bs.length / 2
    let front := bs.length - back
    decode (bs.take front) <<< (8 * back) + decode (bs.drop front)
termination_by bs.length
decreasing_by
  · rw [short] at *; rw [List.length_take]; omega
  · rw [short] at *; rw [List.length_drop]; omega

/-- The inner loop writes the bytes from the low end to the front. -/
theorem encodeShort_eq (width n : Nat) (after : Bytes) :
    encodeShort width n after = (LittleEndian.encode width n).reverse ++ after := by
  induction width generalizing n after with
  | zero => rfl
  | succ width ih =>
    rw [encodeShort, LittleEndian.encode, ih, List.reverse_cons, List.append_assoc,
      List.singleton_append]

/-- Cutting the width in two does not change what is written. -/
theorem encodeOnto_eq (width n : Nat) (after : Bytes) :
    encodeOnto width n after = (LittleEndian.encode width n).reverse ++ after := by
  fun_induction encodeOnto width n after with
  | case1 width n after => exact encodeShort_eq width n after
  | case2 width n after _ back ihBack _ ihFront =>
    have hw : width = back + (width - back) := by omega
    rw [ihFront, ihBack, LittleEndian.encode_mod, ← List.append_assoc, ← List.reverse_append,
      ← LittleEndian.encode_add, ← hw]

/-- Through this every fact about one order is one about the other. -/
theorem encode_eq_reverse (width n : Nat) :
    encode width n = (LittleEndian.encode width n).reverse := by
  rw [encode, encodeOnto_eq, List.append_nil]

theorem decodeShort_eq_reverse (bs : Bytes) :
    decodeShort bs = LittleEndian.decode bs.reverse := by
  suffices h : ∀ bs : Bytes, bs.foldr (fun b n => n * 256 + b.toNat) 0 = LittleEndian.decode bs by
    rw [decodeShort, ← List.foldr_reverse, h]
  intro bs
  induction bs with
  | nil => rfl
  | cons b bs ih =>
    rw [List.foldr_cons, ih, LittleEndian.decode]
    omega

theorem decode_eq_reverse (bs : Bytes) : decode bs = LittleEndian.decode bs.reverse := by
  fun_induction decode bs with
  | case1 bs => exact decodeShort_eq_reverse bs
  | case2 bs _ back front ihFront ihBack =>
    have hback : (bs.drop front).reverse.length = back := by
      rw [List.length_reverse, List.length_drop]
      omega
    have hsplit : bs.reverse = (bs.drop front).reverse ++ (bs.take front).reverse := by
      rw [← List.reverse_append, List.take_append_drop]
    rw [hsplit, LittleEndian.decode_append, hback, ihFront, ihBack, Nat.add_comm]

@[simp] theorem length_encode (width n : Nat) : (encode width n).length = width := by
  rw [encode_eq_reverse, List.length_reverse, LittleEndian.length_encode]

theorem encode_decode (bs : Bytes) : encode bs.length (decode bs) = bs := by
  rw [decode_eq_reverse, encode_eq_reverse, ← List.length_reverse, LittleEndian.encode_decode,
    List.reverse_reverse]

/-- Two byte strings of one length that write the same number are the same. -/
theorem eq_of_decode_eq {as bs : Bytes} (hlen : as.length = bs.length)
    (h : decode as = decode bs) : as = bs := by
  rw [← encode_decode as, h, hlen, encode_decode]

theorem decode_lt (bs : Bytes) : decode bs < 1 <<< (8 * bs.length) := by
  have h := LittleEndian.decode_lt bs.reverse
  rwa [List.length_reverse, ← decode_eq_reverse] at h

theorem decode_cons (b : UInt8) (bs : Bytes) :
    decode (b :: bs) = b.toNat * 1 <<< (8 * bs.length) + decode bs := by
  rw [decode_eq_reverse, List.reverse_cons, LittleEndian.decode_append, decode_eq_reverse,
    List.length_reverse, LittleEndian.decode, LittleEndian.decode, Nat.mul_zero, Nat.add_zero,
    Nat.shiftLeft_eq, Nat.shiftLeft_eq, Nat.one_mul, Nat.add_comm]

/-- A digit counts for more than all digits behind it. -/
theorem compare_digits {a b x y p : Nat} (hx : x < p) (hy : y < p) :
    compare (a * p + x) (b * p + y) = (compare a b).then (compare x y) := by
  rcases Nat.lt_trichotomy a b with h | h | h
  · have := Nat.mul_le_mul_right p h
    rw [Nat.succ_mul] at this
    rw [Nat.compare_eq_lt.2 h, Nat.compare_eq_lt.2 (by omega)]
    rfl
  · have hadd : compare (b * p + x) (b * p + y) = compare x y := by
      simp only [compare, compareOfLessAndEq, Nat.add_lt_add_iff_left, Nat.add_left_cancel_iff]
    rw [h, hadd, Nat.compare_eq_eq.2 rfl]
    rfl
  · have := Nat.mul_le_mul_right p h
    rw [Nat.succ_mul] at this
    rw [Nat.compare_eq_gt.2 h, Nat.compare_eq_gt.2 (by omega)]
    rfl

/-- Among byte strings of one length the first difference decides. -/
theorem compare_decode {as bs : Bytes} (hlen : as.length = bs.length) :
    compare (decode as) (decode bs) = compare as bs := by
  induction as generalizing bs with
  | nil =>
    cases bs with
    | nil => rw [Nat.compare_eq_eq.2 rfl]; rfl
    | cons b bs => cases hlen
  | cons a as ih =>
    cases bs with
    | nil => cases hlen
    | cons b bs =>
      have hlen : as.length = bs.length := Nat.succ.inj hlen
      have hab : compare a b = compare a.toNat b.toNat := by
        simp only [compare, compareOfLessAndEq, UInt8.lt_iff_toNat_lt, UInt8.toNat_inj]
      rw [List.compare_cons_cons, ← ih hlen, decode_cons, decode_cons, hlen, hab,
        compare_digits (hlen ▸ decode_lt as) (decode_lt bs)]

/-- The fewest bytes that hold `n`: none for zero. -/
def byteCount (n : Nat) : Nat := if n = 0 then 0 else n.log2 / 8 + 1

end BigEndian

end UtxoLedger
