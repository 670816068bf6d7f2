/-
UtxoLedger.Proofs.Codec.Reads — readers find what encoders wrote.

`Reads item bs a` says that a reader takes exactly the bytes `bs` off the front,
whatever stands behind them, and makes `a` of them. It holds of each reader at the
encoding of each value, and a reader made of smaller ones inherits it
(`Reads.bind`, `Reads.map`).

An encoding that is read back cannot be confused with another one, also when more
bytes follow: `Reads.unique` is why a concatenation of fields has one parse, and
`eq_of_flatMap_eq` why a list of records needs no count in front to be told from
another list.
-/
import UtxoLedger.Codec.VarInt

namespace UtxoLedger

namespace LittleEndian

theorem decode_encode {width n : Nat} (h : n < 1 <<< (8 * width)) :
    decode (encode width n) = n := by
  induction width generalizing n with
  | zero =>
    rw [Nat.mul_zero, Nat.shiftLeft_zero] at h
    rw [encode, decode]
    omega
  | succ width ih =>
    rw [shiftLeft_byte] at h
    rw [encode, decode, ih (by omega), UInt8.toNat_ofNat']
    omega

end LittleEndian

namespace Reader

variable {α β : Type}

/-- The reader makes `a` of the bytes `bs` at the front and leaves all others. -/
def Reads (item : Reader α) (bs : Bytes) (a : α) : Prop :=
  ∀ rest, item (bs ++ rest) = .ok (a, rest)

namespace Reads

variable {item : Reader α} {bs cs : Bytes} {a b : α}

/-- Two values that are read from one place are the same, and so is what is behind them. -/
theorem unique (ha : Reads item bs a) (hb : Reads item cs b) {rest rest' : Bytes}
    (h : bs ++ rest = cs ++ rest') : a = b ∧ rest = rest' := by
  have hread := ha rest
  rw [h, hb rest'] at hread
  injection hread with hread
  injection hread with hvalue hrest
  exact ⟨hvalue.symm, hrest.symm⟩

/-- What is read one after the other is written one after the other. -/
theorem bind {next : α → Reader β} {b : β} (ha : Reads item bs a) (hb : Reads (next a) cs b) :
    Reads (item >>= next) (bs ++ cs) b := by
  intro rest
  show item (bs ++ cs ++ rest) >>= (fun read => next read.1 read.2) = .ok (b, rest)
  rw [List.append_assoc, ha]
  exact hb rest

theorem pure (a : α) : Reads (Pure.pure a) [] a := fun _ => rfl

/-- A last step that takes no bytes. -/
theorem bind_pure {next : α → Reader β} {b : β} (ha : Reads item bs a)
    (hb : Reads (next a) [] b) : Reads (item >>= next) bs b := by
  have hboth := ha.bind hb
  rwa [List.append_nil] at hboth

theorem map (f : α → β) (ha : Reads item bs a) : Reads (f <$> item) bs (f a) :=
  show Reads (item >>= fun a => Pure.pure (f a)) bs (f a) from ha.bind_pure (.pure (f a))

/-- Another error is reported only where there would be one. -/
theorem orFail (error : Error) (ha : Reads item bs a) : Reads (orFail item error) bs a := by
  intro rest
  rw [Reader.orFail, ha]

end Reads

/-! ## Fields of fixed width -/

theorem reads_fixed {n : Nat} (a : Fixed n) : Reads (fixed n) a.toList a := by
  intro rest
  have htake : (a.toList ++ rest).take n = a.toList := List.take_left' a.length_toList
  have hdrop : (a.toList ++ rest).drop n = rest := List.drop_left' a.length_toList
  have hlength : ((a.toList ++ rest).take n).length = n := by rw [htake, a.length_toList]
  simp only [fixed, dif_pos hlength, hdrop]
  exact congrArg (fun front => Except.ok (front, rest)) (Fixed.ext htake)

theorem reads_bytes (bs : Bytes) : Reads (bytes bs.length) bs bs :=
  (reads_fixed ⟨bs, rfl⟩).map Fixed.toList

/-- A number that has no place in the width would be cut. -/
theorem reads_littleEndian (width : Nat) {n : Nat} (h : n < 1 <<< (8 * width)) :
    Reads (littleEndian width) (LittleEndian.encode width n) n := by
  have hread := (reads_bytes (LittleEndian.encode width n)).map LittleEndian.decode
  rwa [LittleEndian.length_encode, LittleEndian.decode_encode h] at hread

theorem reads_uint8 (b : UInt8) : Reads uint8 [b] b := by
  have hread := (reads_littleEndian 1 b.toNat_lt).map UInt8.ofNat
  rwa [UInt8.ofNat_toNat, LittleEndian.encode, UInt8.ofNat_toNat] at hread

theorem reads_uint32 (v : UInt32) : Reads uint32 (encodeUInt32 v) v := by
  have hread := (reads_littleEndian 4 v.toNat_lt).map UInt32.ofNat
  rwa [UInt32.ofNat_toNat] at hread

theorem reads_uint64 (v : UInt64) : Reads uint64 (encodeUInt64 v) v := by
  have hread := (reads_littleEndian 8 v.toNat_lt).map UInt64.ofNat
  rwa [UInt64.ofNat_toNat] at hread

theorem encodeUInt32_ne_nil (v : UInt32) : encodeUInt32 v ≠ [] := List.cons_ne_nil _ _

theorem encodeUInt64_ne_nil (v : UInt64) : encodeUInt64 v ≠ [] := List.cons_ne_nil _ _

/-! ## Records without a count -/

/-- Records that are read back, none of them empty, are told apart one by one. -/
theorem eq_of_flatMap_eq {item : Reader α} {encode : α → Bytes} : ∀ {as bs : List α},
    (∀ a ∈ as, Reads item (encode a) a ∧ encode a ≠ []) →
    (∀ b ∈ bs, Reads item (encode b) b ∧ encode b ≠ []) →
    as.flatMap encode = bs.flatMap encode → as = bs
  | [], [], _, _, _ => rfl
  | [], b :: bs, _, hbs, h => by
      rw [List.flatMap_nil, List.flatMap_cons] at h
      exact absurd (List.append_eq_nil_iff.mp h.symm).1 (hbs b List.mem_cons_self).2
  | a :: as, [], has, _, h => by
      rw [List.flatMap_nil, List.flatMap_cons] at h
      exact absurd (List.append_eq_nil_iff.mp h).1 (has a List.mem_cons_self).2
  | a :: as, b :: bs, has, hbs, h => by
      rw [List.forall_mem_cons] at has hbs
      rw [List.flatMap_cons, List.flatMap_cons] at h
      obtain ⟨rfl, hrest⟩ := has.1.1.unique hbs.1.1 h
      rw [eq_of_flatMap_eq has.2 hbs.2 hrest]

end Reader

/-! ## Variable length -/

namespace VarInt

open Reader

/-- Behind its marker, a number that no narrower form can write. -/
theorem reads_readWide (width : Nat) {least n : Nat} (hleast : least ≤ n)
    (hwidth : n < 1 <<< (8 * width)) :
    Reads (readWide width least) (LittleEndian.encode width n) (UInt64.ofNat n) := by
  refine (reads_littleEndian width hwidth).bind_pure ?_
  rw [if_neg (by omega)]
  exact .pure _

/-- A small number is its own byte. -/
theorem ofNat_of_le {v : UInt64} (h : v.toNat ≤ 0xfc) :
    UInt8.ofNat v.toNat ≤ 0xfc ∧ (UInt8.ofNat v.toNat).toUInt64 = v := by
  have hbyte : (UInt8.ofNat v.toNat).toNat = v.toNat := by
    rw [UInt8.toNat_ofNat']
    omega
  constructor
  · rw [UInt8.le_iff_toNat_le, hbyte]
    exact h
  · rw [← UInt64.toNat_inj, UInt8.toNat_toUInt64, hbyte]

/-- The width that is written is the one that the first byte announces, and no narrower one
would do. -/
theorem reads_read (v : UInt64) : Reads read (encode v) v := by
  have hv : v.toNat < 1 <<< (8 * 8) := v.toNat_lt
  have hof : UInt64.ofNat v.toNat = v := UInt64.ofNat_toNat
  unfold encode
  dsimp only
  by_cases h1 : v.toNat ≤ 0xfc
  · rw [if_pos h1]
    refine (reads_uint8 _).bind_pure ?_
    obtain ⟨hmarker, hvalue⟩ := ofNat_of_le h1
    rw [if_pos hmarker, hvalue]
    exact .pure v
  · rw [if_neg h1]
    by_cases h2 : v.toNat ≤ 0xffff
    · rw [if_pos h2]
      have hwide := reads_readWide 2 (Nat.lt_of_not_le h1) (by omega)
      rw [hof] at hwide
      exact (reads_uint8 0xfd).bind hwide
    · rw [if_neg h2]
      by_cases h4 : v.toNat ≤ 0xffffffff
      · rw [if_pos h4]
        have hwide := reads_readWide 4 (Nat.lt_of_not_le h2) (by omega)
        rw [hof] at hwide
        exact (reads_uint8 0xfe).bind hwide
      · rw [if_neg h4]
        have hwide := reads_readWide 8 (Nat.lt_of_not_le h4) hv
        rw [hof] at hwide
        exact (reads_uint8 0xff).bind hwide

/-- A count is a length, which has a place in 64 bits. -/
theorem reads_readCount {count : Nat} (h : count < 18446744073709551616) :
    Reads readCount (encodeCount count) count := by
  have hread := (reads_read (UInt64.ofNat count)).map UInt64.toNat
  rwa [UInt64.toNat_ofNat', Nat.mod_eq_of_lt h] at hread

end VarInt

/-- A byte string whose length fits in front of it. -/
theorem VarBytes.reads_read {bs : Bytes} (h : bs.length < 18446744073709551616) :
    Reader.Reads VarBytes.read (VarBytes.encode bs) bs :=
  (VarInt.reads_readCount h).bind (Reader.reads_bytes bs)

end UtxoLedger
