/-
UtxoLedger.Proofs.Script.Payloads — data stand behind the opcode for their length, on
every way in which chunks are made.

A chunk shows a first byte and, if it pushes data, a payload (`Chunk.parts`). Not every such
pair is one of a chunk. What keeps the others out is the type, so the ways of making chunks
are described by the pairs they give: an opcode, a byte, data or a small number by itself, the
bytes of a chunk or a script, script text and its JSON form, and the standard scripts. A pair
determines its chunk (`parts_injective`), so each description says exactly what is made and
when.

`encodeParts` writes any pair, and for pairs at large it loses something: a length that is too
long for its field is cut, and a payload behind another opcode is left out. For a chunk it
loses nothing (`encode_eq_encodeParts`).
-/
import UtxoLedger.Json.Form
import UtxoLedger.Proofs.Script.CanonicalBytes
import UtxoLedger.Proofs.Script.TextForm
import UtxoLedger.Script.Template

namespace UtxoLedger

/-! ## Bytes that announce data -/

/-- The length field that the byte announces, if it announces data. -/
def LengthWidth.ofByte? (byte : UInt8) : Option LengthWidth :=
  (Opcode.ofByte? byte).bind Opcode.lengthWidth?

namespace LengthWidth

theorem ofByte?_toByte (code : Opcode) : ofByte? code.toByte = code.lengthWidth? := by
  rw [ofByte?, Opcode.ofByte?_toByte, Option.bind_some]

theorem ofByte?_eq_some_iff {byte : UInt8} {width : LengthWidth} :
    ofByte? byte = some width ↔ byte = (Opcode.pushData width).toByte := by
  constructor
  · intro h
    obtain ⟨code, hcode, hwidth⟩ := Option.bind_eq_some_iff.mp h
    rw [← Opcode.eq_pushData hwidth, Opcode.toByte_of_ofByte? hcode]
  · rintro rfl
    exact ofByte?_toByte (.pushData width)

/-- Three bytes announce data. -/
theorem ofByte?_eq_none_iff {byte : UInt8} :
    ofByte? byte = none ↔ byte ∉ [0x4c, 0x4d, 0x4e] := by
  simp only [Option.eq_none_iff_forall_ne_some, ne_eq, ofByte?_eq_some_iff, List.mem_cons,
    List.not_mem_nil, or_false, not_or]
  constructor
  · intro h
    exact ⟨h .one, h .two, h .four⟩
  · rintro ⟨hone, htwo, hfour⟩ width
    cases width with
    | one => exact hone
    | two => exact htwo
    | four => exact hfour

end LengthWidth

namespace Chunk

/-! ## Parts -/

/-- What a chunk shows of itself: its first byte and its payload. -/
def parts (chunk : Chunk) : UInt8 × Option Bytes := (chunk.byte, chunk.data?)

/-- Writes a first byte and a payload that need not fit each other. The field takes the low
bytes of the length, and a payload that was not announced is left out. -/
def encodeParts : UInt8 × Option Bytes → Bytes
  | (byte, none) => [byte]
  | (byte, some data) =>
    match LengthWidth.ofByte? byte with
    | some width => byte :: (LittleEndian.encode width.bytes data.length ++ data)
    | none => [byte]

/-- What it comes to that a chunk's payload fits its opcode: the pair is well formed, the
payload is announced, and the field that is announced has room for the whole length. -/
structure PayloadFits (chunk : Chunk) : Prop where
  wellFormed : chunk.WellFormed
  encode_eq : chunk.encode = encodeParts chunk.parts
  announced : ∀ data, chunk.data? = some data → ∃ width,
    LengthWidth.ofByte? chunk.byte = some width ∧
      LittleEndian.decode (LittleEndian.encode width.bytes data.length) = data.length

/-- The byte form is the parts in a row. Where there are data, the width of the length field
is read off the first byte, as a writer does that has only the parts. -/
theorem encode_eq_encodeParts (chunk : Chunk) : chunk.encode = encodeParts chunk.parts := by
  cases chunk with
  | op code noData => rfl
  | unknown byte undefined => rfl
  | push data pushable =>
    simp only [encode, parts, byte, data?, encodeParts, LengthWidth.ofByte?_toByte,
      Opcode.lengthWidth?]

/-- By the type: the opcode of pushed data is computed from their length, and the other
chunks have none. -/
theorem payloadFits (chunk : Chunk) : chunk.PayloadFits where
  wellFormed := chunk.wellFormed
  encode_eq := chunk.encode_eq_encodeParts
  announced := by
    intro data hdata
    cases chunk with
    | op code noData => cases hdata
    | unknown byte undefined => cases hdata
    | push data' pushable =>
      obtain rfl : data' = data := Option.some.inj hdata
      exact ⟨.narrowest data'.length, LengthWidth.ofByte?_toByte (.pushData _),
        LittleEndian.decode_encode (length_of_pushable pushable).2⟩

/-- A chunk is determined by its first byte and its payload. -/
theorem parts_injective : Function.Injective parts := by
  intro chunk chunk' h
  have hencode : chunk.encode ++ [] = chunk'.encode ++ [] := by
    rw [encode_eq_encodeParts, encode_eq_encodeParts, h]
  exact (chunk.reads_read.unique chunk'.reads_read hencode).1

theorem eq_iff_parts_eq {chunk made : Chunk} : made = chunk ↔ chunk.parts = made.parts := by
  rw [parts_injective.eq_iff, eq_comm]

/-! ## One chunk -/

theorem ofOpcode_eq_ok_iff {code : Opcode} {chunk : Chunk} :
    ofOpcode code = .ok chunk ↔ code.lengthWidth? = none ∧ chunk.parts = (code.toByte, none) := by
  unfold ofOpcode
  split
  · rename_i width hwidth
    simp [hwidth]
  · rename_i noData
    rw [Except.ok.injEq, eq_iff_parts_eq]
    exact (and_iff_right noData).symm

/-- A byte makes a chunk whether it is defined or not, unless it announces data. -/
theorem ofByte_eq_ok_iff {byte : UInt8} {chunk : Chunk} :
    ofByte byte = .ok chunk ↔ byte ∉ [0x4c, 0x4d, 0x4e] ∧ chunk.parts = (byte, none) := by
  rw [← LengthWidth.ofByte?_eq_none_iff]
  unfold ofByte
  split
  · rename_i code hcode
    obtain rfl := Opcode.toByte_of_ofByte? hcode
    rw [LengthWidth.ofByte?_toByte, ofOpcode_eq_ok_iff]
  · rename_i undefined
    have hnone : LengthWidth.ofByte? byte = none := by
      rw [LengthWidth.ofByte?, undefined, Option.bind_none]
    rw [Except.ok.injEq, eq_iff_parts_eq]
    exact (and_iff_right hnone).symm

/-- What data are pushed by. -/
def pushParts (data : Bytes) : UInt8 × Option Bytes :=
  if data = [] then (0x00, none)
  else ((Opcode.pushData (.narrowest data.length)).toByte, some data)

/-- The limit is that of the widest length field, and empty data are no payload. -/
theorem ofData_eq_ok_iff {data : Bytes} {chunk : Chunk} :
    ofData data = .ok chunk ↔ data.length ≤ 4294967295 ∧ chunk.parts = pushParts data := by
  unfold ofData
  split
  · rename_i pushable
    have hparts : pushParts data = (push data pushable).parts :=
      if_neg (List.length_pos_iff.mp pushable.1)
    rw [Except.ok.injEq, eq_iff_parts_eq, hparts]
    exact (and_iff_right (Nat.le_of_lt_succ pushable.2)).symm
  · rename_i hnot
    split
    · rename_i hempty
      obtain rfl := List.isEmpty_iff.mp hempty
      rw [Except.ok.injEq, eq_iff_parts_eq]
      exact (and_iff_right (Nat.zero_le _)).symm
    · rename_i hsome
      rw [List.isEmpty_iff, ← List.length_eq_zero_iff] at hsome
      unfold Pushable at hnot
      simp only [reduceCtorEq, false_iff, not_and]
      omega

/-- The byte that pushes a number from -1 to 16. -/
def smallByte (z : Int) : UInt8 :=
  if z < 0 then 0x4f else if z = 0 then 0x00 else 0x50 + UInt8.ofNat z.toNat

theorem parts_smallNat {n : Nat} (h : n ≤ 16) : (smallNat n h).parts = (smallByte n, none) := by
  have hall : ∀ n : Fin 17,
      (smallNat n.val (Nat.le_of_lt_succ n.isLt)).parts = (smallByte n.val, none) := by
    decide
  exact hall ⟨n, Nat.lt_succ_of_le h⟩

/-- Numbers outside the range have no opcode of their own. -/
theorem ofSmallInt?_eq_some_iff {z : Int} {chunk : Chunk} :
    ofSmallInt? z = some chunk ↔ (-1 ≤ z ∧ z ≤ 16) ∧ chunk.parts = (smallByte z, none) := by
  unfold ofSmallInt?
  split
  · rename_i hneg
    subst hneg
    rw [Option.some.injEq, eq_iff_parts_eq]
    exact (and_iff_right (by decide)).symm
  · rename_i hneg
    split
    · rename_i hrange
      have hparts := parts_smallNat (n := z.toNat) (by omega)
      rw [Int.toNat_of_nonneg hrange.1] at hparts
      rw [Option.some.injEq, eq_iff_parts_eq, hparts]
      exact (and_iff_right (by omega)).symm
    · simp only [reduceCtorEq, false_iff, not_and]
      omega

/-- A chunk is read exactly where its parts stand. -/
theorem read_eq_ok_iff {bs rest : Bytes} {chunk : Chunk} :
    read bs = .ok (chunk, rest) ↔ bs = encodeParts chunk.parts ++ rest := by
  rw [canonical_read.eq_ok_iff, encode_eq_encodeParts, true_and]

/-! ## Tokens -/

/-- The three ways in which a token makes a chunk. -/
inductive MadeOf : List Char → Chunk → Prop where
  | data {bs : Bytes} {chunk : Chunk} (h : ofData bs = .ok chunk) :
      MadeOf ("0x".toList ++ Hex.digits bs) chunk
  | unknown {byte : UInt8} {chunk : Chunk} (undefined : Opcode.ofByte? byte = none)
      (h : ofByte byte = .ok chunk) : MadeOf (unknownLabel.toList ++ Hex.digits [byte]) chunk
  | name {code : Opcode} {chunk : Chunk} (h : ofOpcode code = .ok chunk) :
      MadeOf code.name.toList chunk

/-- One case for each way in which a token makes a chunk. -/
theorem ofToken_of_madeOf {token : List Char} {chunk : Chunk} (h : MadeOf token chunk) :
    ofToken token = .ok chunk := by
  cases h with
  | @data bs _ h =>
    have htext := text_of_ofData h
    split at htext
    · rename_i hempty
      subst hempty
      exact h
    · have htoken : "0x".toList ++ Hex.digits bs = chunk.text.toList := by
        rw [htext, String.toList_append, Hex.toList_encode]
      rw [htoken, ofToken_text]
  | @unknown byte _ undefined h =>
    obtain rfl : Chunk.unknown byte undefined = chunk := by
      rw [eq_iff_parts_eq]
      exact (ofByte_eq_ok_iff.mp h).2
    rw [← toList_text_unknown byte undefined, ofToken_text]
  | @name code _ h =>
    obtain ⟨noData, rfl⟩ := of_ofOpcode h
    exact ofToken_text (.op code noData)

/-- And there is no other way: the reader makes three tests, in the order in which the ways are
listed. -/
theorem ofToken_eq_ok_iff {token : List Char} {chunk : Chunk} :
    ofToken token = .ok chunk ↔ MadeOf token chunk := by
  refine ⟨fun h => ?_, ofToken_of_madeOf⟩
  unfold ofToken at h
  split at h
  · rename_i digits hdigits
    obtain rfl := Label.behind?_eq_some_iff.mp hdigits
    split at h
    · rename_i bs hbs
      obtain rfl := Hex.decodeFrom_nil_eq_some_iff.mp hbs
      exact .data h
    · cases h
  · dsimp only at h
    split at h
    · rename_i digits hdigits
      obtain rfl := Label.behind?_eq_some_iff.mp hdigits
      split at h
      · rename_i made hmade
        obtain rfl := Except.ok.inj h
        obtain ⟨byte, undefined, rfl, rfl⟩ := ofUnknownDigits?_eq_some_iff.mp hmade
        refine .unknown undefined (ofByte_eq_ok_iff.mpr ⟨?_, rfl⟩)
        rw [← LengthWidth.ofByte?_eq_none_iff, LengthWidth.ofByte?, undefined, Option.bind_none]
      · cases h
    · split at h
      · rename_i code hcode
        rw [← String.toList_ofList (l := token), ← Opcode.name_of_ofName? hcode]
        exact .name h
      · cases h

end Chunk

/-! ## Scripts -/

namespace Script

open Chunk (encodeParts parts smallByte MadeOf)

/-- A script is read exactly where the parts of its chunks stand in a row. -/
theorem decode_eq_ok_iff_parts {bs : Bytes} {script : Script} :
    decode bs = .ok script ↔ bs = script.chunks.flatMap fun chunk => encodeParts chunk.parts := by
  rw [decode_eq_ok_iff, encode, funext Chunk.encode_eq_encodeParts]

/-- Words and chunks go in step. -/
theorem ofText_eq_ok_iff {text : String} {script : Script} :
    ofText text = .ok script ↔
      List.Forall₂ MadeOf (Blank.words text.toList) script.chunks := by
  have hchunks : ofText text = .ok script ↔
      (Blank.words text.toList).mapM Chunk.ofToken = .ok script.chunks := by
    refine ⟨chunks_of_ofText, fun h => ?_⟩
    rw [ofText, h]
    rfl
  rw [hchunks, mapM_eq_ok_iff]
  simp only [Chunk.ofToken_eq_ok_iff]

/-- In JSON a script is its text. -/
theorem read?_eq_some_iff {json : String} {script : Script} :
    JsonForm.read? Script json = some script ↔
      ∃ value text, Json.parse? json = some value ∧ value.text? = some text ∧
        ofText text = .ok script := by
  have hform : ∀ value : Json, JsonForm.ofJson? value = some script ↔
      ∃ text, value.text? = some text ∧ ofText text = .ok script := by
    intro value
    show (value.text?.bind fun text => (ofText text).toOption) = some script ↔ _
    rw [Option.bind_eq_some_iff]
    refine exists_congr fun text => and_congr_right fun _ => ?_
    cases ofText text <;> simp [Except.toOption]
  simp only [JsonForm.read?, Option.bind_eq_some_iff, hform, exists_and_left]

/-! ## The standard scripts -/

theorem eq_iff_map_parts_eq {script made : Script} :
    made = script ↔ script.chunks.map parts = made.chunks.map parts := by
  rw [(List.map_injective_iff.mpr Chunk.parts_injective).eq_iff, eq_comm]
  cases script
  cases made
  rw [Script.mk.injEq]

/-- Short data of a length that is known from their type: the opcode is known as well. -/
theorem parts_push_fixed {n : Nat} (bs : Fixed n) (h : 0 < n ∧ n < 4294967296) (hshort : n ≤ 255) :
    (Chunk.push bs.toList (bs.pushable h)).parts = (0x4c, some bs.toList) := by
  have hwidth : LengthWidth.narrowest bs.toList.length = .one := by
    rw [bs.length_toList]
    exact if_pos hshort
  simp only [parts, Chunk.byte, hwidth]
  rfl

theorem parts_ofKey (key : PublicKey) :
    (Chunk.ofKey key).parts = (0x4c, some key.bytes.toList) :=
  parts_push_fixed key.bytes (by decide) (by decide)

theorem parts_ofSignature (sig : TxSignature) :
    (Chunk.ofSignature sig).parts = (0x4c, some sig.encode) :=
  parts_push_fixed sig.toFixed (by decide) (by decide)

theorem parts_payToKeyHash (hash : KeyHash) : (payToKeyHash hash).chunks.map parts =
    [(0x76, none), (0xa7, none), (0x4c, some hash.digest.toList), (0x88, none), (0xac, none)] := by
  have hhash : (Chunk.ofKeyHash hash).parts = (0x4c, some hash.digest.toList) :=
    parts_push_fixed hash.digest (by decide) (by decide)
  simp only [payToKeyHash, List.map_cons, List.map_nil, hhash]
  rfl

theorem parts_unlockKeyHash (sig : TxSignature) (key : PublicKey) :
    (unlockKeyHash sig key).chunks.map parts =
      [(0x4c, some sig.encode), (0x4c, some key.bytes.toList)] := by
  simp only [unlockKeyHash, List.map_cons, List.map_nil, parts_ofSignature, parts_ofKey]

/-- The number of signatures asked for, the keys, their number, and the check. -/
def payToKeysParts (m : Nat) (keys : List PublicKey) : List (UInt8 × Option Bytes) :=
  (smallByte m, none) :: keys.map (fun key => (0x4c, some key.bytes.toList)) ++
    [(smallByte keys.length, none), (0xae, none)]

/-- The keys are the payloads. The two counts have opcodes of their own, which is why there
are at most sixteen keys. -/
theorem payToKeys_eq_ok_iff_parts {m : Nat} {keys : List PublicKey} {script : Script} :
    payToKeys m keys = .ok script ↔ (m ≤ keys.length ∧ keys.length ≤ 16) ∧
      script.chunks.map parts = payToKeysParts m keys := by
  unfold payToKeys
  split
  · rename_i hn
    split
    · rename_i hm
      have hparts : List.map parts (.smallNat m (Nat.le_trans hm hn) :: keys.map Chunk.ofKey ++
          [.smallNat keys.length hn, .op .checkMultiSig rfl]) = payToKeysParts m keys := by
        have hfirst := Chunk.parts_smallNat (Nat.le_trans hm hn)
        have hlast := Chunk.parts_smallNat hn
        simp only [List.map_append, List.map_cons, List.map_nil, List.map_map,
          Function.comp_def, hfirst, hlast, parts_ofKey]
        rfl
      rw [Except.ok.injEq, eq_iff_map_parts_eq, hparts]
      exact (and_iff_right ⟨hm, hn⟩).symm
    · rename_i hm
      simp [hm]
  · rename_i hn
    have hmany : ¬ keys.length ≤ 16 := hn
    simp [hmany]

theorem parts_unlockKeys (sigs : List TxSignature) :
    (unlockKeys sigs).chunks.map parts = sigs.map fun sig => (0x4c, some sig.encode) := by
  simp only [unlockKeys, List.map_map, Function.comp_def, parts_ofSignature]

end Script

/-! ## Every way to make a chunk -/

namespace Chunk

/-- What each way of making chunks gives, and when it gives anything. A chunk is told by its
parts; those of a script in text are told by its tokens, which are made into chunks in the
ways before. -/
structure RouteLaws : Prop where
  ofOpcode : ∀ code chunk, ofOpcode code = .ok chunk ↔
    code.lengthWidth? = none ∧ chunk.parts = (code.toByte, none)
  ofByte : ∀ byte chunk, ofByte byte = .ok chunk ↔
    byte ∉ [0x4c, 0x4d, 0x4e] ∧ chunk.parts = (byte, none)
  ofData : ∀ data chunk, ofData data = .ok chunk ↔
    data.length ≤ 4294967295 ∧ chunk.parts = pushParts data
  ofSmallInt? : ∀ z chunk, ofSmallInt? z = some chunk ↔
    (-1 ≤ z ∧ z ≤ 16) ∧ chunk.parts = (smallByte z, none)
  read : ∀ bs chunk rest, read bs = .ok (chunk, rest) ↔ bs = encodeParts chunk.parts ++ rest
  decode : ∀ bs script, Script.decode bs = .ok script ↔
    bs = script.chunks.flatMap fun chunk => encodeParts chunk.parts
  ofText : ∀ text script, Script.ofText text = .ok script ↔
    List.Forall₂ MadeOf (Blank.words text.toList) script.chunks
  ofJson : ∀ json script, JsonForm.read? Script json = some script ↔
    ∃ value text, Json.parse? json = some value ∧ value.text? = some text ∧
      Script.ofText text = .ok script
  payToKeyHash : ∀ hash, (Script.payToKeyHash hash).chunks.map parts =
    [(0x76, none), (0xa7, none), (0x4c, some hash.digest.toList), (0x88, none), (0xac, none)]
  unlockKeyHash : ∀ sig key, (Script.unlockKeyHash sig key).chunks.map parts =
    [(0x4c, some sig.encode), (0x4c, some key.bytes.toList)]
  payToKeys : ∀ m keys script, Script.payToKeys m keys = .ok script ↔
    (m ≤ keys.length ∧ keys.length ≤ 16) ∧
      script.chunks.map parts = Script.payToKeysParts m keys
  unlockKeys : ∀ sigs, (Script.unlockKeys sigs).chunks.map parts =
    sigs.map fun sig => (0x4c, some sig.encode)

/-- **Payloads fit their opcodes, however a chunk was made.** Data stand behind the opcode for
their length and behind no other, so that no length is cut when a chunk is written and no
payload is left out. Each way of making chunks gives the chunks with the parts that its input
says, and fails where no chunk has them. -/
theorem payload_fits_on_every_route : (∀ chunk : Chunk, chunk.PayloadFits) ∧ RouteLaws :=
  ⟨payloadFits,
   { ofOpcode := fun _ _ => ofOpcode_eq_ok_iff
     ofByte := fun _ _ => ofByte_eq_ok_iff
     ofData := fun _ _ => ofData_eq_ok_iff
     ofSmallInt? := fun _ _ => ofSmallInt?_eq_some_iff
     read := fun _ _ _ => read_eq_ok_iff
     decode := fun _ _ => Script.decode_eq_ok_iff_parts
     ofText := fun _ _ => Script.ofText_eq_ok_iff
     ofJson := fun _ _ => Script.read?_eq_some_iff
     payToKeyHash := Script.parts_payToKeyHash
     unlockKeyHash := Script.parts_unlockKeyHash
     payToKeys := fun _ _ _ => Script.payToKeys_eq_ok_iff_parts
     unlockKeys := Script.parts_unlockKeys }⟩

/-- Parts that are those of no chunk: the field is too narrow, or there is none. -/
example : encodeParts (0x4c, some (List.replicate 257 7)) = 0x4c :: 1 :: List.replicate 257 7 ∧
    encodeParts (0x51, some [7]) = [0x51] := by
  decide +kernel

end Chunk

end UtxoLedger
