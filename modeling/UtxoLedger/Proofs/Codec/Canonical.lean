/-
UtxoLedger.Proofs.Codec.Canonical — readers that take nothing but what the encoder
writes.

`Reads` (`UtxoLedger.Proofs.Codec.Reads`) says that a reader finds a value again. A
reader that does only this may accept other bytes for the same value as well.
`Canonical` adds the other direction: whatever the reader makes a value of is that
value's encoding, so each value has one byte form. Reading then succeeds with `a` and
leaves `rest` on `encode a ++ rest` and nowhere else (`Canonical.eq_ok_iff`).

Not every list can be written: a count has 64 bits. `Fits` is what a type's values
have to satisfy for it, and a value that was read always does.

The second half says it of whole types: `Codec.IsCanonical` lists what follows for
`Codec.decode`, for encodings that begin alike and for encodings that are equal.
-/
import UtxoLedger.Proofs.Codec.Reads

namespace UtxoLedger

namespace Reader

variable {α β : Type}

/-! ## What a result came from -/

theorem bind_of_ok {item : Reader α} {next : α → Reader β} {bs mid : Bytes} {a : α}
    (h : item bs = .ok (a, mid)) : (item >>= next) bs = next a mid := by
  show (item bs >>= fun read => next read.1 read.2) = next a mid
  rw [h]
  rfl

/-- Two readers in a row succeed if both do, the second on what the first has left. -/
theorem bind_eq_ok {item : Reader α} {next : α → Reader β} {bs rest : Bytes} {b : β} :
    (item >>= next) bs = .ok (b, rest) ↔
      ∃ a mid, item bs = .ok (a, mid) ∧ next a mid = .ok (b, rest) := by
  show (item bs >>= fun read => next read.1 read.2) = .ok (b, rest) ↔ _
  cases item bs with
  | error error =>
    constructor
    · intro h
      cases h
    · rintro ⟨a, mid, h, -⟩
      cases h
  | ok read =>
    obtain ⟨a, mid⟩ := read
    constructor
    · intro h
      exact ⟨a, mid, rfl, h⟩
    · rintro ⟨a', mid', h, hnext⟩
      cases h
      exact hnext

/-- The first fault is the one that is reported. -/
theorem bind_eq_error {item : Reader α} {next : α → Reader β} {bs : Bytes} {error : Error} :
    (item >>= next) bs = .error error ↔
      item bs = .error error ∨ ∃ a mid, item bs = .ok (a, mid) ∧ next a mid = .error error := by
  show (item bs >>= fun read => next read.1 read.2) = .error error ↔ _
  cases item bs with
  | error cause =>
    constructor
    · intro h
      cases h
      exact .inl rfl
    · rintro (h | ⟨a, mid, h, -⟩)
      · cases h
        rfl
      · cases h
  | ok read =>
    obtain ⟨a, mid⟩ := read
    constructor
    · intro h
      exact .inr ⟨a, mid, rfl, h⟩
    · rintro (h | ⟨a', mid', h, hnext⟩)
      · cases h
      · cases h
        exact hnext

theorem pure_eq_ok {a b : α} {bs rest : Bytes} :
    (pure a : Reader α) bs = .ok (b, rest) ↔ a = b ∧ bs = rest := by
  constructor
  · intro h
    cases h
    exact ⟨rfl, rfl⟩
  · rintro ⟨rfl, rfl⟩
    rfl

theorem map_eq_ok {item : Reader α} {f : α → β} {bs rest : Bytes} {b : β} :
    (f <$> item) bs = .ok (b, rest) ↔ ∃ a, item bs = .ok (a, rest) ∧ f a = b := by
  show (item >>= fun a => pure (f a)) bs = .ok (b, rest) ↔ _
  rw [bind_eq_ok]
  constructor
  · rintro ⟨a, mid, hitem, h⟩
    obtain ⟨hb, rfl⟩ := pure_eq_ok.mp h
    exact ⟨a, hitem, hb⟩
  · rintro ⟨a, hitem, rfl⟩
    exact ⟨a, rest, hitem, rfl⟩

theorem map_eq_error {item : Reader α} {f : α → β} {bs : Bytes} {error : Error} :
    (f <$> item) bs = .error error ↔ item bs = .error error := by
  show (item >>= fun a => pure (f a)) bs = .error error ↔ _
  rw [bind_eq_error]
  constructor
  · rintro (h | ⟨a, mid, -, h⟩)
    · exact h
    · cases h
  · exact .inl

/-- Another name for a failure does not change what succeeds. -/
theorem orFail_eq_ok {item : Reader α} {error : Error} {bs rest : Bytes} {a : α} :
    orFail item error bs = .ok (a, rest) ↔ item bs = .ok (a, rest) := by
  unfold orFail
  cases item bs with
  | error _ => simp
  | ok result => exact Iff.rfl

theorem eq_of_orFail_eq_error {item : Reader α} {error cause : Error} {bs : Bytes}
    (h : orFail item error bs = .error cause) : cause = error := by
  unfold orFail at h
  cases hitem : item bs with
  | error _ =>
    rw [hitem] at h
    exact (Except.error.inj h).symm
  | ok result =>
    rw [hitem] at h
    cases h

/-! ## Canonical readers -/

/-- The reader takes exactly the encodings of the values that fit. -/
structure Canonical (item : Reader α) (encode : α → Bytes) (Fits : α → Prop) : Prop where
  reads : ∀ a, Fits a → Reads item (encode a) a
  recovers : ∀ {bs a rest}, item bs = .ok (a, rest) → Fits a ∧ bs = encode a ++ rest

namespace Canonical

variable {item : Reader α} {encode : α → Bytes} {Fits : α → Prop}

/-- Both halves as one equivalence. This is the form in which a claim about a reader is
stated. -/
theorem eq_ok_iff (h : Canonical item encode Fits) (bs : Bytes) (a : α) (rest : Bytes) :
    item bs = .ok (a, rest) ↔ Fits a ∧ bs = encode a ++ rest := by
  constructor
  · exact h.recovers
  · rintro ⟨hfits, rfl⟩
    exact h.reads a hfits rest

/-- Encodings that begin alike are of one value: where one ends, so does the other. -/
theorem eq_of_append_eq (h : Canonical item encode Fits) {a b : α} (ha : Fits a) (hb : Fits b)
    {rest rest' : Bytes} (hsame : encode a ++ rest = encode b ++ rest') : a = b :=
  ((h.reads a ha).unique (h.reads b hb) hsame).1

end Canonical

/-! ### Fields of fixed width -/

theorem canonical_fixed (n : Nat) : Canonical (fixed n) Fixed.toList fun _ => True where
  reads a _ := reads_fixed a
  recovers := by
    intro bs a rest h
    unfold fixed at h
    dsimp only at h
    split at h
    · cases h
      exact ⟨trivial, (List.take_append_drop n bs).symm⟩
    · cases h

/-- The count that is asked for is the length of what arrives. -/
theorem bytes_eq_ok {n : Nat} {bs data rest : Bytes} :
    bytes n bs = .ok (data, rest) ↔ data.length = n ∧ bs = data ++ rest := by
  constructor
  · intro h
    obtain ⟨a, hfixed, rfl⟩ := map_eq_ok.mp h
    exact ⟨a.length_toList, ((canonical_fixed n).recovers hfixed).2⟩
  · rintro ⟨rfl, rfl⟩
    exact reads_bytes data rest

/-- With enough bytes at hand the front of them is taken. -/
theorem bytes_of_le {n : Nat} {bs : Bytes} (h : n ≤ bs.length) :
    bytes n bs = .ok (bs.take n, bs.drop n) :=
  bytes_eq_ok.mpr ⟨List.length_take_of_le h, (List.take_append_drop n bs).symm⟩

/-- Bytes that end too early are all that can be wrong. -/
theorem bytes_eq_error {n : Nat} {bs : Bytes} {error : Error} :
    bytes n bs = .error error ↔ bs.length < n ∧ error = .notEnoughData := by
  have hlength : (bs.take n).length = n ↔ n ≤ bs.length := by
    rw [List.length_take]
    omega
  rw [bytes, map_eq_error]
  unfold fixed
  dsimp only
  split
  · rename_i hfits
    simp [Nat.not_lt.mpr (hlength.mp hfits)]
  · rename_i hfew
    rw [hlength, Nat.not_le] at hfew
    simp [hfew, eq_comm]

/-- A number that fits in the field has one form there, since the width is fixed. -/
theorem canonical_littleEndian (width : Nat) :
    Canonical (littleEndian width) (LittleEndian.encode width) (· < 1 <<< (8 * width)) where
  reads _ h := reads_littleEndian width h
  recovers := by
    intro bs n rest h
    obtain ⟨data, hdata, rfl⟩ := map_eq_ok.mp h
    obtain ⟨rfl, rfl⟩ := bytes_eq_ok.mp hdata
    exact ⟨LittleEndian.decode_lt data, by rw [LittleEndian.encode_decode]⟩

theorem canonical_uint8 : Canonical uint8 ([·]) fun _ => True where
  reads b _ := reads_uint8 b
  recovers := by
    intro bs b rest h
    obtain ⟨n, hn, rfl⟩ := map_eq_ok.mp h
    exact ⟨trivial, ((canonical_littleEndian 1).recovers hn).2⟩

/-- A word fills its field: any number that the field can hold is one word, and only one. -/
theorem canonical_word {width : Nat} {ofNat : Nat → α} {toNat : α → Nat}
    (hlt : ∀ v, toNat v < 1 <<< (8 * width)) (hback : ∀ v, ofNat (toNat v) = v)
    (hvalue : ∀ n < 1 <<< (8 * width), toNat (ofNat n) = n) :
    Canonical (ofNat <$> littleEndian width) (fun v => LittleEndian.encode width (toNat v))
      fun _ => True where
  reads v _ := by
    have hread := (reads_littleEndian width (hlt v)).map ofNat
    rwa [hback] at hread
  recovers := by
    intro bs v rest h
    obtain ⟨n, hn, rfl⟩ := map_eq_ok.mp h
    obtain ⟨hn, hbs⟩ := (canonical_littleEndian width).recovers hn
    rw [hvalue n hn]
    exact ⟨trivial, hbs⟩

theorem canonical_uint32 : Canonical uint32 encodeUInt32 fun _ => True :=
  canonical_word UInt32.toNat_lt (fun _ => UInt32.ofNat_toNat) fun _ => UInt32.toNat_ofNat_of_lt'

theorem canonical_uint64 : Canonical uint64 encodeUInt64 fun _ => True :=
  canonical_word UInt64.toNat_lt (fun _ => UInt64.ofNat_toNat) fun _ => UInt64.toNat_ofNat_of_lt'

end Reader

/-! ## Variable length -/

open Reader

namespace VarInt

/-- No field is wider than a word. -/
theorem toNat_ofNat_of_field {width n : Nat} (hwidth : width ≤ 8) (h : n < 1 <<< (8 * width)) :
    (UInt64.ofNat n).toNat = n := by
  have hword : 1 <<< (8 * width) ≤ 1 <<< (8 * 8) := by
    rw [Nat.one_shiftLeft, Nat.one_shiftLeft]
    exact Nat.pow_le_pow_right (by omega) (by omega)
  exact UInt64.toNat_ofNat_of_lt' (Nat.lt_of_lt_of_le h hword)

/-- A wide form is accepted only for a number that needs it. -/
theorem readWide_eq_ok {width least : Nat} (hwidth : width ≤ 8) {bs rest : Bytes} {v : UInt64}
    (h : readWide width least bs = .ok (v, rest)) :
    least ≤ v.toNat ∧ v.toNat < 1 <<< (8 * width) ∧
      bs = LittleEndian.encode width v.toNat ++ rest := by
  obtain ⟨n, mid, hn, hwide⟩ := bind_eq_ok.mp h
  obtain ⟨hlt, hbs⟩ := (canonical_littleEndian width).recovers hn
  split at hwide
  · cases hwide
  · rename_i hleast
    obtain ⟨rfl, rfl⟩ := pure_eq_ok.mp hwide
    rw [toNat_ofNat_of_field hwidth hlt]
    exact ⟨Nat.not_lt.mp hleast, hlt, hbs⟩

/-- Beyond the values of one byte there are three markers. -/
theorem eq_widest {marker : UInt8} (h1 : ¬ marker ≤ 0xfc) (h2 : marker ≠ 0xfd)
    (h4 : marker ≠ 0xfe) : marker = 0xff := by
  have hbyte : marker.toNat < 256 := marker.toNat_lt
  have h1 : ¬ marker.toNat ≤ 0xfc := fun h => h1 (UInt8.le_iff_toNat_le.mpr h)
  have h2 : marker.toNat ≠ 0xfd := fun h => h2 (UInt8.toNat_inj.mp h)
  have h4 : marker.toNat ≠ 0xfe := fun h => h4 (UInt8.toNat_inj.mp h)
  exact UInt8.toNat_inj.mp (show marker.toNat = 0xff by omega)

/-- **A number is read from its shortest form only.** By the marker, and behind each marker
by what a narrower form could have held: the reader refuses it, and the writer uses the
narrower form. -/
theorem canonical_read : Canonical read encode fun _ => True where
  reads v _ := reads_read v
  recovers := by
    intro bs v rest h
    obtain ⟨marker, mid, hmarker, hread⟩ := bind_eq_ok.mp h
    obtain ⟨-, hbs⟩ := canonical_uint8.recovers hmarker
    refine ⟨trivial, hbs.trans ?_⟩
    unfold encode
    dsimp only
    by_cases h1 : marker ≤ 0xfc
    · rw [if_pos h1] at hread
      obtain ⟨rfl, rfl⟩ := pure_eq_ok.mp hread
      have h1 : marker.toNat ≤ 0xfc := UInt8.le_iff_toNat_le.mp h1
      rw [UInt8.toNat_toUInt64, if_pos h1, UInt8.ofNat_toNat]
    · rw [if_neg h1] at hread
      by_cases h2 : marker = 0xfd
      · rw [if_pos h2] at hread
        -- the bounds behind the marker send the writer down the same branch
        obtain ⟨hleast, hlt, rfl⟩ := readWide_eq_ok (by omega) hread
        rw [if_neg (by omega), if_pos (by omega), h2]
        rfl
      · rw [if_neg h2] at hread
        by_cases h4 : marker = 0xfe
        · rw [if_pos h4] at hread
          obtain ⟨hleast, hlt, rfl⟩ := readWide_eq_ok (by omega) hread
          rw [if_neg (by omega), if_neg (by omega), if_pos (by omega), h4]
          rfl
        · rw [if_neg h4] at hread
          obtain ⟨hleast, hlt, rfl⟩ := readWide_eq_ok (by omega) hread
          rw [if_neg (by omega), if_neg (by omega), if_neg (by omega), eq_widest h1 h2 h4]
          rfl

theorem canonical_readCount : Canonical readCount encodeCount (· < 18446744073709551616) where
  reads _ h := reads_readCount h
  recovers := by
    intro bs count rest h
    obtain ⟨v, hv, rfl⟩ := map_eq_ok.mp h
    rw [encodeCount, UInt64.ofNat_toNat]
    exact ⟨v.toNat_lt, (canonical_read.recovers hv).2⟩

end VarInt

/-- The length stands in front and says where the data end. -/
theorem VarBytes.canonical_read :
    Canonical VarBytes.read VarBytes.encode (·.length < 18446744073709551616) where
  reads _ h := VarBytes.reads_read h
  recovers := by
    intro bs data rest h
    obtain ⟨length, mid, hlength, hdata⟩ := bind_eq_ok.mp h
    obtain ⟨hlt, hbs⟩ := VarInt.canonical_readCount.recovers hlength
    obtain ⟨rfl, rfl⟩ := bytes_eq_ok.mp hdata
    exact ⟨hlt, hbs.trans (List.append_assoc _ _ _).symm⟩

/-! ## Lists -/

namespace Reader

variable {α : Type} {item : Reader α} {encode : α → Bytes} {Fits : α → Prop}

/-- Values that are read back one by one are read back in a row, whatever follows the last. -/
theorem reads_many (h : Canonical item encode Fits) : ∀ as : List α, (∀ a ∈ as, Fits a) →
    Reads (many item as.length) (as.flatMap encode) as
  | [], _ => .pure []
  | a :: as, hfits => by
      rw [List.forall_mem_cons] at hfits
      exact (h.reads a hfits.1).bind ((reads_many h as hfits.2).bind_pure (.pure (a :: as)))

theorem many_eq_ok (h : Canonical item encode Fits) : ∀ {count : Nat} {bs rest : Bytes}
    {as : List α}, many item count bs = .ok (as, rest) →
      as.length = count ∧ (∀ a ∈ as, Fits a) ∧ bs = as.flatMap encode ++ rest
  | 0, bs, rest, as, hread => by
      obtain ⟨rfl, rfl⟩ := pure_eq_ok.mp hread
      exact ⟨rfl, fun a ha => absurd ha List.not_mem_nil, rfl⟩
  | count + 1, bs, rest, as, hread => by
      obtain ⟨first, mid, hfirst, hread⟩ := bind_eq_ok.mp hread
      obtain ⟨others, mid', hothers, hread⟩ := bind_eq_ok.mp hread
      obtain ⟨rfl, rfl⟩ := pure_eq_ok.mp hread
      obtain ⟨hfits, rfl⟩ := h.recovers hfirst
      obtain ⟨rfl, hall, rfl⟩ := many_eq_ok h hothers
      refine ⟨rfl, List.forall_mem_cons.mpr ⟨hfits, hall⟩, ?_⟩
      rw [List.flatMap_cons, List.append_assoc]

end Reader

/-- A list of values that fit, with a number of them that fits in front. -/
def VarList.Fits {α : Type} (Fits : α → Prop) (as : List α) : Prop :=
  as.length < 18446744073709551616 ∧ ∀ a ∈ as, Fits a

/-- The count in front says how many values follow, so that nothing need be known about
where one of them ends. -/
theorem VarList.canonical_read {α : Type} [Codec α] {Fits : α → Prop}
    (h : Canonical (Codec.read : Reader α) Codec.encode Fits) :
    Canonical (VarList.read : Reader (List α)) VarList.encode (VarList.Fits Fits) where
  reads as hfits := (VarInt.reads_readCount hfits.1).bind (reads_many h as hfits.2)
  recovers := by
    intro bs as rest hread
    obtain ⟨count, mid, hcount, hitems⟩ := bind_eq_ok.mp hread
    obtain ⟨hlt, hbs⟩ := VarInt.canonical_readCount.recovers hcount
    obtain ⟨rfl, hall, rfl⟩ := many_eq_ok h hitems
    exact ⟨⟨hlt, hall⟩, hbs.trans (List.append_assoc _ _ _).symm⟩

/-- Each item of a list has one byte at least, so a list with few bytes has few items. -/
theorem VarList.fits_of_length {α : Type} [Codec α] {Fits : α → Prop}
    (hne : ∀ a : α, Codec.encode a ≠ [])
    (hitem : ∀ a : α, (Codec.encode a).length < 18446744073709551616 → Fits a) (as : List α)
    (h : (VarList.encode as).length < 18446744073709551616) : VarList.Fits Fits as := by
  rw [VarList.encode, List.length_append] at h
  refine ⟨?_, fun a ha => hitem a ?_⟩
  · have hcount : as.length ≤ (as.flatMap Codec.encode).length := by
      clear h
      induction as with
      | nil => exact Nat.le_refl 0
      | cons a as ih =>
        have hpos := List.length_pos_iff.mpr (hne a)
        rw [List.length_cons, List.flatMap_cons, List.length_append]
        omega
    omega
  · have hsub : (Codec.encode a).length ≤ (as.flatMap Codec.encode).length := by
      rw [List.flatMap_def]
      exact (List.sublist_flatten_of_mem (List.mem_map_of_mem ha)).length_le
    omega

/-! ## Whole types -/

namespace Reader

theorem whole_eq_ok {α : Type} {item : Reader α} {bs : Bytes} {a : α} :
    whole item bs = .ok a ↔ item bs = .ok (a, []) := by
  unfold whole
  cases item bs with
  | error _ => simp
  | ok read =>
    obtain ⟨b, rest⟩ := read
    cases rest <;> simp

end Reader

namespace Codec

variable {α : Type} [Codec α]

/-- **One byte form for each value.** Every value that can be in a memory fits: all
that `Fits` asks for is that each count has a place in 64 bits. -/
structure IsCanonical (Fits : α → Prop) : Prop where
  read_iff : ∀ (bs : Bytes) (a : α) (rest : Bytes),
    read bs = .ok (a, rest) ↔ Fits a ∧ bs = encode a ++ rest
  fits_of_length : ∀ a, (encode a).length < 18446744073709551616 → Fits a
  decode_encode : ∀ a, Fits a → decode (encode a) = .ok a
  encode_of_decode : ∀ (bs : Bytes) (a : α), decode bs = .ok a → encode a = bs
  eq_of_isPrefix : ∀ a b, Fits a → Fits b → encode a <+: encode b → a = b
  eq_of_encode_eq : ∀ a b, Fits a → Fits b → encode a = encode b → a = b

/-- What `Canonical` says about the reader, for whole byte strings. -/
theorem isCanonical {Fits : α → Prop} (h : Canonical (read : Reader α) encode Fits)
    (hshort : ∀ a, (encode a).length < 18446744073709551616 → Fits a) : IsCanonical Fits where
  read_iff := h.eq_ok_iff
  fits_of_length := hshort
  decode_encode a ha := by
    have hread := h.reads a ha []
    rw [List.append_nil] at hread
    exact whole_eq_ok.mpr hread
  encode_of_decode bs a hdecode := by
    obtain ⟨-, hbs⟩ := h.recovers (whole_eq_ok.mp hdecode)
    rw [hbs, List.append_nil]
  eq_of_isPrefix a b ha hb := by
    rintro ⟨rest, hsame⟩
    exact h.eq_of_append_eq ha hb (hsame.trans (List.append_nil _).symm)
  eq_of_encode_eq a b ha hb hsame :=
    h.eq_of_append_eq ha hb (congrArg (· ++ []) hsame)

end Codec

end UtxoLedger
