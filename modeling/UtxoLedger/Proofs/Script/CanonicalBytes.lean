/-
UtxoLedger.Proofs.Script.CanonicalBytes — scripts have one byte form, and bytes
that are none are malformed.

`Chunk.canonical_read` goes by what the first byte means. Behind an opcode that
announces data the length field has to be the narrowest for the length
(`LengthWidth.eq_narrowest`), so the opcode that the chunk is written with is the one
that was read.

A chunk is looked for only while bytes are left. So its first byte is never missing,
and whatever goes wrong behind it is a fault of the script: the field or the data are
cut short, or a narrower field would have done (`Chunk.fault_of_read`). The length of
data that a field announces is never out of range.
-/
import UtxoLedger.Proofs.Codec.Canonical
import UtxoLedger.Proofs.Script.Decoding

namespace UtxoLedger

open Reader

/-! ## Length fields -/

theorem LengthWidth.eq_narrowest {width : LengthWidth} {length : Nat}
    (hleast : width.least ≤ length) (hfits : length < 1 <<< (8 * width.bytes)) :
    width = .narrowest length := by
  cases width with
  | one =>
    have hlt : length < 0x100 := hfits
    rw [narrowest, if_pos (by omega)]
  | two =>
    have hlt : length < 0x10000 := hfits
    have hle : 0x100 ≤ length := hleast
    rw [narrowest, if_neg (by omega), if_pos (by omega)]
  | four =>
    have hle : 0x10000 ≤ length := hleast
    rw [narrowest, if_neg (by omega), if_neg (by omega)]

theorem Opcode.eq_pushData {code : Opcode} {width : LengthWidth}
    (h : code.lengthWidth? = some width) : code = .pushData width := by
  cases code <;> simp_all [lengthWidth?]

/-! ## Chunks -/

/-- What can be wrong with bytes that are read as a script. -/
def ScriptFault.OfBytes : ScriptFault → Prop
  | .pushTruncated => True
  | .pushNotMinimal length width => length < width.least
  | _ => False

namespace Chunk

/-- Data stand behind an opcode that announces them and behind no other, and that
opcode is the one for their length. -/
def WellFormed (chunk : Chunk) : Prop :=
  match chunk.data? with
  | none => chunk.byte ≠ 0x4c ∧ chunk.byte ≠ 0x4d ∧ chunk.byte ≠ 0x4e
  | some data =>
    (chunk.byte = 0x4c ∧ 1 ≤ data.length ∧ data.length ≤ 255) ∨
      (chunk.byte = 0x4d ∧ 256 ≤ data.length ∧ data.length ≤ 65535) ∨
      (chunk.byte = 0x4e ∧ 65536 ≤ data.length ∧ data.length ≤ 4294967295)

/-- A byte that announces data is defined, and it is no other opcode's. -/
theorem byte_ne_pushData {chunk : Chunk} (h : chunk.data? = none) (width : LengthWidth) :
    chunk.byte ≠ (Opcode.pushData width).toByte := by
  intro hbyte
  cases chunk with
  | op code noData =>
    rw [Opcode.toByte_injective hbyte] at noData
    cases noData
  | unknown byte undefined =>
    have hbyte : byte = (Opcode.pushData width).toByte := hbyte
    rw [hbyte, Opcode.ofByte?_toByte] at undefined
    cases undefined
  | push data pushable => cases h

theorem wellFormed (chunk : Chunk) : chunk.WellFormed := by
  unfold WellFormed
  cases hdata : chunk.data? with
  | none => exact ⟨byte_ne_pushData hdata .one, byte_ne_pushData hdata .two,
      byte_ne_pushData hdata .four⟩
  | some data =>
    cases chunk with
    | op code noData => cases hdata
    | unknown byte undefined => cases hdata
    | push data' pushable =>
      obtain rfl : data' = data := Option.some.inj hdata
      -- the width is the narrowest, which bounds the length from both sides
      obtain ⟨hleast, hfits⟩ := length_of_pushable pushable
      dsimp only [byte]
      generalize LengthWidth.narrowest data'.length = width at hleast hfits
      cases width with
      | one =>
        have hlt : data'.length < 0x100 := hfits
        exact .inl ⟨rfl, hleast, by omega⟩
      | two =>
        have hlt : data'.length < 0x10000 := hfits
        exact .inr (.inl ⟨rfl, hleast, by omega⟩)
      | four =>
        have hlt : data'.length < 0x100000000 := hfits
        exact .inr (.inr ⟨rfl, hleast, by omega⟩)

/-- Data that were read are written back with the opcode and the field that stood in front
of them. -/
theorem readPush_eq_ok {width : LengthWidth} {bs rest : Bytes} {chunk : Chunk}
    (h : readPush width bs = .ok (chunk, rest)) :
    (Opcode.pushData width).toByte :: bs = chunk.encode ++ rest := by
  obtain ⟨field, mid, hfield, hafter⟩ := bind_eq_ok.mp h
  obtain ⟨-, rfl⟩ := (canonical_fixed width.bytes).recovers (orFail_eq_ok.mp hfield)
  split at hafter
  · cases hafter
  · rename_i hshort
    obtain ⟨data, mid', hdata, hlast⟩ := bind_eq_ok.mp hafter
    obtain ⟨-, rfl⟩ := (canonical_fixed _).recovers (orFail_eq_ok.mp hdata)
    obtain ⟨rfl, rfl⟩ := pure_eq_ok.mp hlast
    have hwritten := LittleEndian.encode_decode field.toList
    rw [field.length_toList] at hwritten
    -- the field was not too wide for its number, so the writer takes the same width
    rw [encode, data.length_toList,
      ← LengthWidth.eq_narrowest (Nat.not_lt.mp hshort) field.decode_lt, hwritten,
      List.cons_append, List.append_assoc]

/-- The field or the data are missing in part, or a narrower field would have done. There is
no third fault: a length that was read is never out of range. -/
theorem fault_of_readPush {width : LengthWidth} {bs : Bytes} {error : Error}
    (h : readPush width bs = .error error) :
    ∃ fault : ScriptFault, fault.OfBytes ∧ error = .malformedScript fault := by
  rcases bind_eq_error.mp h with hfield | ⟨field, mid, -, hafter⟩
  · exact ⟨.pushTruncated, trivial, eq_of_orFail_eq_error hfield⟩
  · split at hafter
    · rename_i hshort
      exact ⟨.pushNotMinimal _ width, hshort, (Except.error.inj hafter).symm⟩
    · rcases bind_eq_error.mp hafter with hdata | ⟨data, mid', -, hlast⟩
      · exact ⟨.pushTruncated, trivial, eq_of_orFail_eq_error hdata⟩
      · cases hlast

theorem read_pushData (width : LengthWidth) (bs : Bytes) :
    read ((Opcode.pushData width).toByte :: bs) = readPush width bs := by
  have hbyte : uint8 ((Opcode.pushData width).toByte :: bs) =
      .ok ((Opcode.pushData width).toByte, bs) := reads_uint8 _ bs
  unfold read
  rw [bind_of_ok hbyte]
  refine congrFun ?_ bs
  split
  · rename_i h
    rw [Opcode.ofByte?_toByte] at h
    cases h
  · rename_i code h
    rw [Opcode.ofByte?_toByte] at h
    cases h
    rfl

/-- The first byte is the whole chunk, or it announces data. -/
theorem read_cons (byte : UInt8) (bs : Bytes) :
    (∃ chunk : Chunk, chunk.encode = [byte] ∧ read (byte :: bs) = .ok (chunk, bs)) ∨
      ∃ width : LengthWidth, byte = (Opcode.pushData width).toByte ∧
        read (byte :: bs) = readPush width bs := by
  cases hcode : Opcode.ofByte? byte with
  | none => exact .inl ⟨.unknown byte hcode, rfl, reads_read (.unknown byte hcode) bs⟩
  | some code =>
    obtain rfl := Opcode.toByte_of_ofByte? hcode
    cases hwidth : code.lengthWidth? with
    | none => exact .inl ⟨.op code hwidth, rfl, reads_read (.op code hwidth) bs⟩
    | some width =>
      obtain rfl := Opcode.eq_pushData hwidth
      exact .inr ⟨width, rfl, read_pushData width bs⟩

/-- **A chunk is read from its own bytes and from no others.** -/
theorem canonical_read : Canonical read encode fun _ => True where
  reads chunk _ := chunk.reads_read
  recovers := by
    intro bs chunk rest h
    obtain ⟨byte, mid, hbyte, -⟩ := bind_eq_ok.mp h
    obtain ⟨-, rfl⟩ := canonical_uint8.recovers hbyte
    refine ⟨trivial, ?_⟩
    rcases read_cons byte mid with ⟨chunk', hencode, hread⟩ | ⟨width, rfl, hread⟩
    · cases hread.symm.trans h
      rw [hencode]
    · exact readPush_eq_ok (hread.symm.trans h)

/-- Where a byte is left, what goes wrong is a fault of the script. -/
theorem fault_of_read {bs : Bytes} (hbs : bs ≠ []) {error : Error}
    (h : read bs = .error error) :
    ∃ fault : ScriptFault, fault.OfBytes ∧ error = .malformedScript fault := by
  obtain ⟨byte, mid, rfl⟩ := List.exists_cons_of_ne_nil hbs
  rcases read_cons byte mid with ⟨chunk, -, hread⟩ | ⟨width, -, hread⟩
  · cases hread.symm.trans h
  · exact fault_of_readPush (hread.symm.trans h)

end Chunk

/-! ## Scripts -/

namespace Script

theorem eq_append_of_decodeFrom {done : List Chunk} {bs : Bytes} {chunks : List Chunk}
    (h : decodeFrom done bs = .ok chunks) :
    ∃ more, chunks = done.reverse ++ more ∧ bs = more.flatMap Chunk.encode := by
  fun_induction decodeFrom done bs with
  | case1 done bs hnil =>
    exact ⟨[], by rw [List.append_nil, Except.ok.inj h], List.isEmpty_iff.mp hnil⟩
  | case2 done bs hcons error hread => cases h
  | case3 done bs hcons chunk rest hread hshorter ih =>
    obtain ⟨more, hchunks, rfl⟩ := ih h
    obtain ⟨-, rfl⟩ := Chunk.canonical_read.recovers hread
    refine ⟨chunk :: more, ?_, rfl⟩
    rw [hchunks, List.reverse_cons, List.append_assoc, List.singleton_append]

theorem fault_of_decodeFrom {done : List Chunk} {bs : Bytes} {error : Error}
    (h : decodeFrom done bs = .error error) :
    ∃ fault : ScriptFault, fault.OfBytes ∧ error = .malformedScript fault := by
  fun_induction decodeFrom done bs with
  | case1 done bs hnil => cases h
  | case2 done bs hcons cause hread =>
    obtain rfl := Except.error.inj h
    exact Chunk.fault_of_read (fun hnil => hcons (List.isEmpty_iff.mpr hnil)) hread
  | case3 done bs hcons chunk rest hread hshorter ih => exact ih h

theorem encode_of_decode {bs : Bytes} {script : Script} (h : decode bs = .ok script) :
    script.encode = bs := by
  unfold decode at h
  cases hchunks : decodeFrom [] bs with
  | error error =>
    rw [hchunks] at h
    cases h
  | ok chunks =>
    rw [hchunks] at h
    obtain rfl := Except.ok.inj h
    obtain ⟨more, rfl, rfl⟩ := eq_append_of_decodeFrom hchunks
    rfl

theorem decode_eq_ok_iff {bs : Bytes} {script : Script} :
    decode bs = .ok script ↔ bs = script.encode := by
  constructor
  · intro h
    exact (encode_of_decode h).symm
  · rintro rfl
    exact decode_encode script

theorem fault_of_decode {bs : Bytes} {error : Error} (h : decode bs = .error error) :
    ∃ fault : ScriptFault, fault.OfBytes ∧ error = .malformedScript fault := by
  unfold decode at h
  cases hchunks : decodeFrom [] bs with
  | error cause =>
    rw [hchunks] at h
    obtain rfl := Except.error.inj h
    exact fault_of_decodeFrom hchunks
  | ok chunks =>
    rw [hchunks] at h
    cases h

/-- **The byte form of scripts.** Every script is read back from its bytes. Bytes that
are read are those of the script, whose chunks are well formed; all others are a
malformed script, and what is wrong with them is one of the two faults of a push. -/
theorem byte_form_is_canonical :
    (∀ script : Script, decode script.encode = .ok script) ∧
      (∀ (bs : Bytes) (script : Script), decode bs = .ok script →
        script.encode = bs ∧ ∀ chunk ∈ script.chunks, chunk.WellFormed) ∧
      ∀ bs : Bytes, (∀ script : Script, script.encode ≠ bs) →
        ∃ fault : ScriptFault, fault.OfBytes ∧ decode bs = .error (.malformedScript fault) := by
  refine ⟨decode_encode, ?_, ?_⟩
  · intro bs script h
    exact ⟨encode_of_decode h, fun chunk _ => chunk.wellFormed⟩
  · intro bs hnone
    cases h : decode bs with
    | ok script => exact absurd (encode_of_decode h) (hnone script)
    | error error =>
      obtain ⟨fault, hfault, rfl⟩ := fault_of_decode h
      exact ⟨fault, hfault, rfl⟩

end Script

end UtxoLedger
