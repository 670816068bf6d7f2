/-
UtxoLedger.Proofs.Codec.VarIntForms — the forms of a number, and the one that is read.

A marker announces a field of two, four or eight bytes, and a number that a narrow field
holds is held by a wider one as well. `Form` is every way to write a number so, the long
ones included; `VarInt.encode` picks one of them.

What the reader does with a form is one equation (`read_form`): it gives the number if the
form is as short as the encoding, and complains of its width otherwise. The limits of the
three fields come in at a single place, `exists_least`. The other answers follow, since
bytes either begin with a whole form or end before the form does (`form_or_cutShort`).

Behind a length any number of bytes may be announced, up to 2^64 - 1. They are there, or
there are too few (`VarBytes.read_encode_append`).
-/
import Mathlib.Tactic.SplitIfs
import UtxoLedger.Proofs.Codec.Canonical

namespace UtxoLedger

open Reader

namespace VarInt

/-! ## Forms -/

/-- The markers, and how many bytes stand behind each. -/
def fields : List (UInt8 × Nat) := [(0xfd, 2), (0xfe, 4), (0xff, 8)]

/-- The ways to write a number: as a byte of its own, or in a field that holds it. -/
inductive Form : UInt64 → Bytes → Prop where
  | byte {b : UInt8} (h : b ≤ 0xfc) : Form b.toUInt64 [b]
  | wide {marker : UInt8} {field : Bytes} (h : (marker, field.length) ∈ fields) :
      Form (UInt64.ofNat (LittleEndian.decode field)) (marker :: field)

/-- A whole form stands in front, and the number has a shorter one. -/
def Overlong (bs : Bytes) : Prop :=
  ∃ v form rest, Form v form ∧ bs = form ++ rest ∧ (encode v).length < form.length

/-- The bytes end before the form that they begin. -/
def CutShort (bs : Bytes) : Prop := ∃ v form, Form v form ∧ bs <+: form ∧ bs ≠ form

theorem length_encode (v : UInt64) :
    (encode v).length = if v.toNat ≤ 0xfc then 1 else if v.toNat ≤ 0xffff then 3
      else if v.toNat ≤ 0xffffffff then 5 else 9 := by
  simp only [encode, apply_ite List.length, List.length_cons, List.length_nil,
    LittleEndian.length_encode]

/-- A field that holds a number writes it, wide as it may be. -/
theorem form_of_field {v : UInt64} {marker : UInt8} {width : Nat} (h : (marker, width) ∈ fields)
    (hlt : v.toNat < 1 <<< (8 * width)) :
    Form v (marker :: LittleEndian.encode width v.toNat) := by
  have hform : Form _ (marker :: LittleEndian.encode width v.toNat) :=
    .wide (by rwa [LittleEndian.length_encode])
  rwa [LittleEndian.decode_encode hlt, UInt64.ofNat_toNat] at hform

theorem form_encode (v : UInt64) : Form v (encode v) := by
  unfold encode
  dsimp only
  split
  · rename_i hsmall
    obtain ⟨hbyte, hvalue⟩ := ofNat_of_le hsmall
    have hform := Form.byte hbyte
    rwa [hvalue] at hform
  · split
    · exact form_of_field (by decide) (by omega)
    · split
      · exact form_of_field (by decide) (by omega)
      · exact form_of_field (by decide) v.toNat_lt

/-! ## Reading a form -/

/-- A byte that is no number by itself is a marker. -/
theorem exists_field {marker : UInt8} (h : ¬ marker ≤ 0xfc) :
    ∃ width, (marker, width) ∈ fields := by
  by_cases h2 : marker = 0xfd
  · exact ⟨2, by rw [h2]; decide⟩
  · by_cases h4 : marker = 0xfe
    · exact ⟨4, by rw [h4]; decide⟩
    · exact ⟨8, by rw [eq_widest h h2 h4]; decide⟩

/-- The reader's limit for a field is the least number that no shorter form can write. -/
theorem exists_least {marker : UInt8} {width : Nat} (h : (marker, width) ∈ fields) :
    width ≤ 8 ∧ ∃ least, (∀ bs, read (marker :: bs) = readWide width least bs) ∧
      ∀ v : UInt64, v.toNat < 1 <<< (8 * width) →
        (v.toNat < least ↔ (encode v).length < width + 1) := by
  have hread : ∀ bs, read (marker :: bs) = _ := fun bs => bind_of_ok (reads_uint8 marker bs)
  simp only [fields, List.mem_cons, List.not_mem_nil, or_false, Prod.mk.injEq] at h
  rcases h with ⟨rfl, rfl⟩ | ⟨rfl, rfl⟩ | ⟨rfl, rfl⟩
  · refine ⟨by decide, 0xfd, hread, fun v hv => ?_⟩
    rw [length_encode]
    split_ifs <;> omega
  · refine ⟨by decide, 0x10000, hread, fun v hv => ?_⟩
    rw [length_encode]
    split_ifs <;> omega
  · refine ⟨by decide, 0x100000000, hread, fun v hv => ?_⟩
    rw [length_encode]
    split_ifs <;> omega

theorem readWide_of_short {width : Nat} (least : Nat) {bs : Bytes} (h : bs.length < width) :
    readWide width least bs = .error .notEnoughData :=
  bind_eq_error.mpr (.inl (map_eq_error.mpr (bytes_eq_error.mpr ⟨h, rfl⟩)))

theorem readWide_append (least : Nat) (field rest : Bytes) :
    readWide field.length least (field ++ rest) =
      if LittleEndian.decode field < least then .error .nonMinimalEncoding
      else .ok (UInt64.ofNat (LittleEndian.decode field), rest) := by
  have hfield := (reads_bytes field).map LittleEndian.decode rest
  unfold readWide
  rw [littleEndian, bind_of_ok hfield]
  split <;> rfl

/-- **A form is read if no form of the number is shorter,** and is too long otherwise. -/
theorem read_form {v : UInt64} {form : Bytes} (h : Form v form) (rest : Bytes) :
    read (form ++ rest) =
      if (encode v).length < form.length then .error .nonMinimalEncoding else .ok (v, rest) := by
  cases h with
  | @byte b hb =>
    have hlength : ¬ (encode b.toUInt64).length < 1 := by
      rw [length_encode]
      split_ifs <;> omega
    have hread : read (b :: rest) = _ := bind_of_ok (reads_uint8 b rest)
    rw [if_pos hb] at hread
    rw [List.length_singleton, if_neg hlength]
    exact hread
  | @wide marker field hmem =>
    obtain ⟨hwidth, least, hread, hleast⟩ := exists_least hmem
    have hlt := LittleEndian.decode_lt field
    have hvalue := toNat_ofNat_of_field hwidth hlt
    have hshort := hleast (UInt64.ofNat (LittleEndian.decode field)) (by rwa [hvalue])
    rw [hvalue] at hshort
    rw [List.cons_append, hread, readWide_append, List.length_cons]
    simp only [hshort]

theorem read_of_cutShort {bs : Bytes} (h : CutShort bs) : read bs = .error .notEnoughData := by
  obtain ⟨v, form, hform, hfront, hne⟩ := h
  cases hform with
  | byte hb =>
    rcases List.prefix_cons_iff.mp hfront with rfl | ⟨part, rfl, hpart⟩
    · rfl
    · rw [List.prefix_nil.mp hpart] at hne
      exact absurd rfl hne
  | @wide marker field hmem =>
    rcases List.prefix_cons_iff.mp hfront with rfl | ⟨part, rfl, hpart⟩
    · rfl
    · obtain ⟨-, least, hread, -⟩ := exists_least hmem
      have hshort : part.length < field.length := by
        refine Nat.lt_of_le_of_ne hpart.length_le fun hlength => hne ?_
        rw [hpart.eq_of_length hlength]
      rw [hread, readWide_of_short least hshort]

/-- Whatever the bytes are, they begin with a form or are the beginning of one. -/
theorem form_or_cutShort (bs : Bytes) :
    CutShort bs ∨ ∃ v form rest, Form v form ∧ bs = form ++ rest := by
  cases bs with
  | nil => exact .inl ⟨_, [0], .byte (by decide), List.nil_prefix, (List.cons_ne_nil 0 []).symm⟩
  | cons marker part =>
    by_cases hb : marker ≤ 0xfc
    · exact .inr ⟨_, [marker], part, .byte hb, rfl⟩
    · obtain ⟨width, hmem⟩ := exists_field hb
      by_cases hle : width ≤ part.length
      · have hfield : (part.take width).length = width := List.length_take_of_le hle
        refine .inr ⟨_, marker :: part.take width, part.drop width, .wide (by rwa [hfield]), ?_⟩
        rw [List.cons_append, List.take_append_drop]
      · -- Any bytes make a field of what is there, zeros for instance.
        let more : Bytes := List.replicate (width - part.length) 0
        have hfield : (part ++ more).length = width := by
          rw [List.length_append, List.length_replicate]
          omega
        refine .inl ⟨_, marker :: (part ++ more), .wide (by rwa [hfield]), ?_, ?_⟩
        · exact List.prefix_cons_inj marker |>.mpr (List.prefix_append part more)
        · intro hsame
          rw [← (List.cons.inj hsame).2] at hfield
          omega

/-! ## Errors -/

theorem read_cases (bs : Bytes) :
    (CutShort bs ∧ read bs = .error .notEnoughData) ∨
      (Overlong bs ∧ read bs = .error .nonMinimalEncoding) ∨
      ∃ v rest, read bs = .ok (v, rest) := by
  rcases form_or_cutShort bs with hcut | ⟨v, form, rest, hform, rfl⟩
  · exact .inl ⟨hcut, read_of_cutShort hcut⟩
  · by_cases hlong : (encode v).length < form.length
    · have hread := read_form hform rest
      rw [if_pos hlong] at hread
      exact .inr (.inl ⟨⟨v, form, rest, hform, rfl, hlong⟩, hread⟩)
    · have hread := read_form hform rest
      rw [if_neg hlong] at hread
      exact .inr (.inr ⟨v, rest, hread⟩)

theorem error_of_read {bs : Bytes} {error : Error} (h : read bs = .error error) :
    error = .nonMinimalEncoding ∨ error = .notEnoughData := by
  rcases read_cases bs with ⟨-, hread⟩ | ⟨-, hread⟩ | ⟨v, rest, hread⟩
  · exact .inr (Except.error.inj (h.symm.trans hread))
  · exact .inl (Except.error.inj (h.symm.trans hread))
  · cases h.symm.trans hread

theorem read_eq_nonMinimal_iff (bs : Bytes) :
    read bs = .error .nonMinimalEncoding ↔ Overlong bs := by
  constructor
  · intro h
    rcases read_cases bs with ⟨-, hread⟩ | ⟨hlong, -⟩ | ⟨v, rest, hread⟩
    · cases hread.symm.trans h
    · exact hlong
    · cases hread.symm.trans h
  · rintro ⟨v, form, rest, hform, rfl, hlong⟩
    rw [read_form hform, if_pos hlong]

theorem read_eq_notEnough_iff (bs : Bytes) : read bs = .error .notEnoughData ↔ CutShort bs := by
  constructor
  · intro h
    rcases read_cases bs with ⟨hcut, -⟩ | ⟨-, hread⟩ | ⟨v, rest, hread⟩
    · exact hcut
    · cases hread.symm.trans h
    · cases hread.symm.trans h
  · exact read_of_cutShort

/-- The encoding is the one form that is read, and it is shorter than all others. -/
theorem Form.eq_or_longer {v : UInt64} {form : Bytes} (h : Form v form) :
    form = encode v ∨ (encode v).length < form.length := by
  by_cases hlong : (encode v).length < form.length
  · exact .inr hlong
  · have hread := read_form h []
    rw [if_neg hlong] at hread
    have hsame := (canonical_read.recovers hread).2
    rw [List.append_nil, List.append_nil] at hsame
    exact .inl hsame

end VarInt

/-! ## Data behind its length -/

namespace VarBytes

/-- **Any length may be announced.** As many bytes follow, or there are too few. -/
theorem read_encode_append (v : UInt64) (tail : Bytes) :
    read (VarInt.encode v ++ tail) =
      if v.toNat ≤ tail.length then .ok (tail.take v.toNat, tail.drop v.toNat)
      else .error .notEnoughData := by
  have hcount := (VarInt.reads_read v).map UInt64.toNat tail
  unfold read VarInt.readCount
  rw [bind_of_ok hcount]
  split
  · rename_i hle
    exact bytes_of_le hle
  · rename_i hlt
    exact bytes_eq_error.mpr ⟨Nat.lt_of_not_le hlt, rfl⟩

/-- What can be wrong with the length is reported as it is, and else the data can be cut short. -/
theorem read_eq_error_iff (bs : Bytes) (error : Error) :
    read bs = .error error ↔ VarInt.read bs = .error error ∨
      (error = .notEnoughData ∧
        ∃ v tail, bs = VarInt.encode v ++ tail ∧ tail.length < v.toNat) := by
  constructor
  · intro h
    rcases bind_eq_error.mp h with hcount | ⟨length, tail, hcount, hdata⟩
    · exact .inl (map_eq_error.mp hcount)
    · obtain ⟨v, hv, rfl⟩ := map_eq_ok.mp hcount
      obtain ⟨hfew, rfl⟩ := bytes_eq_error.mp hdata
      exact .inr ⟨rfl, v, tail, (VarInt.canonical_read.recovers hv).2, hfew⟩
  · rintro (hcount | ⟨rfl, v, tail, rfl, hfew⟩)
    · exact bind_eq_error.mpr (.inl (map_eq_error.mpr hcount))
    · rw [read_encode_append, if_neg (Nat.not_le.mpr hfew)]

theorem error_of_read {bs : Bytes} {error : Error} (h : read bs = .error error) :
    error = .nonMinimalEncoding ∨ error = .notEnoughData := by
  rcases (read_eq_error_iff bs error).mp h with hlength | ⟨hfew, -⟩
  · exact VarInt.error_of_read hlength
  · exact .inr hfew

end VarBytes

/-- **Only the shortest form of a number is read.** Every number has one form that is
shorter than its others. The reader takes that form, whatever stands behind it, and leaves
the rest. Bytes that begin with a longer form are refused as not minimal, bytes that end
before their form does as too few, and there is no other answer. Data behind a length that
fits in 64 bits are read back as well and nothing else is read as them, for every length
that can be announced; the length is refused like any number, and the data can be too few. -/
theorem VarInt.only_shortest_form_is_read :
    (∀ v, Form v (encode v) ∧
      ∀ form, Form v form → form = encode v ∨ (encode v).length < form.length) ∧
    (∀ bs v rest, read bs = .ok (v, rest) ↔ bs = encode v ++ rest) ∧
    (∀ bs, read bs = .error .nonMinimalEncoding ↔ Overlong bs) ∧
    (∀ bs, read bs = .error .notEnoughData ↔ CutShort bs) ∧
    (∀ bs error, read bs = .error error →
      error = .nonMinimalEncoding ∨ error = .notEnoughData) ∧
    (∀ bs data rest, VarBytes.read bs = .ok (data, rest) ↔
      data.length < 18446744073709551616 ∧ bs = VarBytes.encode data ++ rest) ∧
    (∀ v tail, VarBytes.read (encode v ++ tail) =
      if v.toNat ≤ tail.length then .ok (tail.take v.toNat, tail.drop v.toNat)
      else .error .notEnoughData) ∧
    (∀ bs, VarBytes.read bs = .error .nonMinimalEncoding ↔ Overlong bs) ∧
    (∀ bs, VarBytes.read bs = .error .notEnoughData ↔
      CutShort bs ∨ ∃ v tail, bs = encode v ++ tail ∧ tail.length < v.toNat) ∧
    (∀ bs error, VarBytes.read bs = .error error →
      error = .nonMinimalEncoding ∨ error = .notEnoughData) := by
  refine ⟨fun v => ⟨form_encode v, fun form => Form.eq_or_longer⟩, fun bs v rest => ?_,
    read_eq_nonMinimal_iff, read_eq_notEnough_iff, fun bs error => error_of_read,
    VarBytes.canonical_read.eq_ok_iff, VarBytes.read_encode_append, fun bs => ?_, fun bs => ?_,
    fun bs error => VarBytes.error_of_read⟩
  · simpa using canonical_read.eq_ok_iff bs v rest
  · simp [VarBytes.read_eq_error_iff, read_eq_nonMinimal_iff]
  · simp [VarBytes.read_eq_error_iff, read_eq_notEnough_iff]

/-- A form that is cut short is not judged by its width. -/
example : VarInt.read [0xfd, 0x01] = .error .notEnoughData ∧
    VarInt.read [0xfd, 0x01, 0x00] = .error .nonMinimalEncoding ∧
    VarInt.read [0xfd, 0xfd, 0x00] = .ok (0xfd, []) :=
  ⟨rfl, rfl, rfl⟩

end UtxoLedger
