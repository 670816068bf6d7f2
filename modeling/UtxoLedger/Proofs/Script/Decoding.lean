/-
UtxoLedger.Proofs.Script.Decoding — scripts are read back from their bytes.

`Chunk.reads_read` goes by the kinds of chunk: the first byte tells whether data
follow, and the length field tells how many bytes. Chunks are not empty, so the
loop that decodes a script takes them off one after another until nothing is left
(`Script.decodeFrom_encode`), and a script as a field of a larger value is read
back from behind its length.
-/
import UtxoLedger.Proofs.Codec.Reads
import UtxoLedger.Tx.Basic

namespace UtxoLedger

open Reader

namespace Chunk

/-! ## Chunks -/

/-- A length in range fits in the narrowest field that can carry it, and in no
narrower one. -/
theorem length_of_pushable {data : Bytes} (h : Pushable data) :
    (LengthWidth.narrowest data.length).least ≤ data.length ∧
      data.length < 1 <<< (8 * (LengthWidth.narrowest data.length).bytes) := by
  obtain ⟨hpos, hlt⟩ := h
  unfold LengthWidth.narrowest
  split
  · exact ⟨hpos, by simp only [LengthWidth.bytes]; omega⟩
  · split
    · exact ⟨by simp only [LengthWidth.least]; omega, by simp only [LengthWidth.bytes]; omega⟩
    · exact ⟨by simp only [LengthWidth.least]; omega, by simp only [LengthWidth.bytes]; omega⟩

/-- The narrowest width is used, so the length is not below the least one that the width is
for, and the push is not found to be padded. -/
theorem reads_readPush {data : Bytes} (pushable : Pushable data) :
    Reads (readPush (.narrowest data.length))
      (LittleEndian.encode (LengthWidth.narrowest data.length).bytes data.length ++ data)
      (.push data pushable) := by
  obtain ⟨hleast, hfits⟩ := length_of_pushable pushable
  let field : Fixed (LengthWidth.narrowest data.length).bytes :=
    ⟨LittleEndian.encode _ data.length, LittleEndian.length_encode _ _⟩
  have hlength : data.length = LittleEndian.decode field.toList :=
    (LittleEndian.decode_encode hfits).symm
  refine ((reads_fixed field).orFail _).bind ?_
  dsimp only
  rw [dif_neg (Nat.not_lt.mpr (hlength ▸ hleast))]
  exact ((reads_fixed ⟨data, hlength⟩).orFail _).bind_pure (.pure _)

/-- The first byte decides what the reader does, so there is a case for each kind of chunk. -/
theorem reads_read (chunk : Chunk) : Reads read chunk.encode chunk := by
  cases chunk with
  | op code noData =>
    refine (reads_uint8 code.toByte).bind_pure ?_
    split
    · rename_i h
      rw [Opcode.ofByte?_toByte] at h
      cases h
    · rename_i code' h
      rw [Opcode.ofByte?_toByte] at h
      cases h
      split
      · rename_i width h
        rw [noData] at h
        cases h
      · exact .pure _
  | unknown byte undefined =>
    refine (reads_uint8 byte).bind_pure ?_
    split
    · exact .pure _
    · rename_i code h
      rw [undefined] at h
      cases h
  | push data pushable =>
    refine (reads_uint8 _).bind ?_
    split
    · rename_i h
      rw [Opcode.ofByte?_toByte] at h
      cases h
    · rename_i code h
      rw [Opcode.ofByte?_toByte] at h
      cases h
      exact reads_readPush pushable

theorem encode_ne_nil (chunk : Chunk) : chunk.encode ≠ [] := by
  cases chunk <;> exact List.cons_ne_nil _ _

end Chunk

namespace Script

/-! ## Scripts -/

/-- The induction is on the chunks that are left. Those that were read stand in reverse, as
the loop holds them. -/
theorem decodeFrom_encode (chunks done : List Chunk) :
    decodeFrom done (chunks.flatMap Chunk.encode) = .ok (done.reverse ++ chunks) := by
  induction chunks generalizing done with
  | nil => rw [List.flatMap_nil, decodeFrom, List.append_nil]; rfl
  | cons chunk chunks ih =>
    have hread := chunk.reads_read (chunks.flatMap Chunk.encode)
    have hsome : ¬ (chunk.encode ++ chunks.flatMap Chunk.encode).isEmpty = true := by
      simp [chunk.encode_ne_nil]
    rw [List.flatMap_cons, decodeFrom, if_neg hsome]
    split
    · rename_i error h
      rw [hread] at h
      cases h
    · rename_i chunk' rest h
      rw [hread] at h
      cases h
      rw [ih, List.reverse_cons, List.append_assoc, List.singleton_append]

theorem decode_encode (script : Script) : decode script.encode = .ok script := by
  rw [decode, encode, decodeFrom_encode, List.reverse_nil, List.nil_append]
  rfl

theorem encode_injective {script script' : Script} (h : script.encode = script'.encode) :
    script = script' := by
  have hdecode := decode_encode script
  rw [h, decode_encode script'] at hdecode
  exact (Except.ok.inj hdecode).symm

/-- Only a length below 2^64 is written as it is. -/
theorem reads_readField {script : Script} (h : script.encode.length < 18446744073709551616) :
    Reads readField script.encodeField script := by
  refine (VarBytes.reads_read h).bind_pure ?_
  rw [decode_encode]
  exact .pure script

end Script

/-! ## Records of a transaction -/

theorem Outpoint.reads_read (o : Outpoint) : Reads read o.encode o :=
  (reads_fixed o.txId).bind ((reads_uint32 o.index).bind_pure (.pure o))

theorem Outpoint.encode_ne_nil (o : Outpoint) : o.encode ≠ [] :=
  List.append_ne_nil_of_right_ne_nil _ (encodeUInt32_ne_nil o.index)

theorem TxOutput.reads_read {output : TxOutput}
    (h : output.script.encode.length < 18446744073709551616) :
    Reads read output.encode output :=
  (reads_uint64 output.value).bind ((Script.reads_readField h).bind_pure (.pure output))

theorem TxOutput.encode_ne_nil (output : TxOutput) : output.encode ≠ [] :=
  List.append_ne_nil_of_left_ne_nil (encodeUInt64_ne_nil output.value) _

end UtxoLedger
