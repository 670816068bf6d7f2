/-
UtxoLedger.Proofs.Block.CanonicalBytes — blocks, and all that they are made of, have
one byte form.

Each record is its fields one after another. It is read back field by field
(`Reads.bind`), and a successful read is taken apart into the reads of its fields
(`bind_eq_ok`), each of which says which bytes it took. What carries this is below:
var-ints are minimal, so a count has one form (`VarInt.canonical_read`); a script is
written from its chunks as it stood in the bytes (`Script.decode_eq_ok_iff`); and a list
is its count and that many items (`VarList.canonical_read`).

`Fits` asks of a value that its counts have a place in 64 bits. No value that has been
read, and none with fewer than 2^64 bytes, fails it.
-/
import UtxoLedger.Block.Basic
import UtxoLedger.Proofs.Script.CanonicalBytes

namespace UtxoLedger

open Reader

/-! ## Scripts as fields -/

/-- The length of the script's bytes has a place in 64 bits. -/
def Script.Fits (script : Script) : Prop := script.encode.length < 18446744073709551616

/-- The bytes of the field are one form because its length is, and a script is written from
its chunks as it stood in them. -/
theorem Script.canonical_readField : Canonical readField encodeField Fits where
  reads _ h := reads_readField h
  recovers := by
    intro bs script rest h
    obtain ⟨data, mid, hdata, hafter⟩ := bind_eq_ok.mp h
    obtain ⟨hfits, rfl⟩ := VarBytes.canonical_read.recovers hdata
    cases hscript : decode data with
    | error error =>
      rw [hscript] at hafter
      cases hafter
    | ok script' =>
      rw [hscript] at hafter
      obtain ⟨rfl, rfl⟩ := pure_eq_ok.mp hafter
      obtain rfl := decode_eq_ok_iff.mp hscript
      exact ⟨hfits, rfl⟩

/-- Nothing has to be asked of a script whose field is in a memory. -/
theorem Script.fits_of_encodeField {script : Script}
    (h : script.encodeField.length < 18446744073709551616) : script.Fits := by
  rw [encodeField, VarBytes.encode, List.length_append] at h
  unfold Fits
  omega

/-! ## Inputs and outputs -/

/-- Both fields have a fixed width. -/
theorem Outpoint.canonical_read : Canonical read encode fun _ => True where
  reads o _ := o.reads_read
  recovers := by
    intro bs o rest h
    obtain ⟨txId, bs1, htxId, h1⟩ := bind_eq_ok.mp h
    obtain ⟨index, bs2, hindex, h2⟩ := bind_eq_ok.mp h1
    obtain ⟨rfl, rfl⟩ := pure_eq_ok.mp h2
    obtain ⟨-, rfl⟩ := (canonical_fixed 32).recovers htxId
    obtain ⟨-, rfl⟩ := canonical_uint32.recovers hindex
    exact ⟨trivial, (List.append_assoc _ _ _).symm⟩

namespace TxInput

def Fits (input : TxInput) : Prop := input.script.Fits

theorem canonical_read : Canonical read encode Fits where
  reads input h :=
    input.outpoint.reads_read.bind <| (Script.reads_readField h).bind <|
      (reads_uint32 input.lockRel).bind_pure (.pure input)
  recovers := by
    intro bs input rest h
    obtain ⟨outpoint, bs1, houtpoint, h1⟩ := bind_eq_ok.mp h
    obtain ⟨script, bs2, hscript, h2⟩ := bind_eq_ok.mp h1
    obtain ⟨lockRel, bs3, hlockRel, h3⟩ := bind_eq_ok.mp h2
    obtain ⟨rfl, rfl⟩ := pure_eq_ok.mp h3
    obtain ⟨-, rfl⟩ := Outpoint.canonical_read.recovers houtpoint
    obtain ⟨hfits, rfl⟩ := Script.canonical_readField.recovers hscript
    obtain ⟨-, rfl⟩ := canonical_uint32.recovers hlockRel
    exact ⟨hfits, by simp only [encode, List.append_assoc]⟩

theorem fits_of_length {input : TxInput} (h : input.encode.length < 18446744073709551616) :
    input.Fits := by
  simp only [encode, List.length_append] at h
  exact Script.fits_of_encodeField (by omega)

theorem encode_ne_nil (input : TxInput) : input.encode ≠ [] :=
  List.append_ne_nil_of_left_ne_nil input.outpoint.encode_ne_nil _

end TxInput

namespace TxOutput

def Fits (output : TxOutput) : Prop := output.script.Fits

theorem canonical_read : Canonical read encode Fits where
  reads _ h := reads_read h
  recovers := by
    intro bs output rest h
    obtain ⟨value, bs1, hvalue, h1⟩ := bind_eq_ok.mp h
    obtain ⟨script, bs2, hscript, h2⟩ := bind_eq_ok.mp h1
    obtain ⟨rfl, rfl⟩ := pure_eq_ok.mp h2
    obtain ⟨-, rfl⟩ := canonical_uint64.recovers hvalue
    obtain ⟨hfits, rfl⟩ := Script.canonical_readField.recovers hscript
    exact ⟨hfits, (List.append_assoc _ _ _).symm⟩

theorem fits_of_length {output : TxOutput} (h : output.encode.length < 18446744073709551616) :
    output.Fits := by
  simp only [encode, List.length_append] at h
  exact Script.fits_of_encodeField (by omega)

end TxOutput

/-! ## Transactions -/

namespace Tx

/-- The counts of inputs and of outputs have a place in 64 bits, and so have the
lengths of all scripts. -/
structure Fits (tx : Tx) : Prop where
  inputs : VarList.Fits TxInput.Fits tx.inputs
  outputs : VarList.Fits TxOutput.Fits tx.outputs

/-- Each list is its count and its items, so the bytes say where the inputs end. -/
theorem canonical_read : Canonical read encode Fits where
  reads tx h :=
    (reads_uint8 tx.version).bind <|
      ((VarList.canonical_read TxInput.canonical_read).reads _ h.inputs).bind <|
        ((VarList.canonical_read TxOutput.canonical_read).reads _ h.outputs).bind <|
          (reads_uint64 tx.lockAbs).bind_pure (.pure tx)
  recovers := by
    intro bs tx rest h
    obtain ⟨version, bs1, hversion, h1⟩ := bind_eq_ok.mp h
    obtain ⟨inputs, bs2, hinputs, h2⟩ := bind_eq_ok.mp h1
    obtain ⟨outputs, bs3, houtputs, h3⟩ := bind_eq_ok.mp h2
    obtain ⟨lockAbs, bs4, hlockAbs, h4⟩ := bind_eq_ok.mp h3
    obtain ⟨rfl, rfl⟩ := pure_eq_ok.mp h4
    obtain ⟨-, rfl⟩ := canonical_uint8.recovers hversion
    obtain ⟨hin, rfl⟩ := (VarList.canonical_read TxInput.canonical_read).recovers hinputs
    obtain ⟨hout, rfl⟩ := (VarList.canonical_read TxOutput.canonical_read).recovers houtputs
    obtain ⟨-, rfl⟩ := canonical_uint64.recovers hlockAbs
    exact ⟨⟨hin, hout⟩, by simp only [encode, List.append_assoc, List.cons_append, List.nil_append]⟩

/-- No item of a list is empty, so there are no more items than bytes. -/
theorem fits_of_length {tx : Tx} (h : tx.encode.length < 18446744073709551616) : tx.Fits := by
  simp only [encode, List.length_cons, List.length_append] at h
  refine ⟨?_, ?_⟩
  · exact VarList.fits_of_length TxInput.encode_ne_nil (fun _ => TxInput.fits_of_length) _
      (by omega)
  · exact VarList.fits_of_length TxOutput.encode_ne_nil (fun _ => TxOutput.fits_of_length) _
      (by omega)

end Tx

/-! ## Headers and blocks -/

/-- All fields have a fixed width, so every header fits. -/
theorem Header.canonical_read : Canonical read encode fun _ => True where
  reads header _ := by
    have hread : Reads read _ header :=
      (reads_uint32 header.version).bind <| (reads_fixed header.prevBlockId).bind <|
        (reads_fixed header.merkleRoot).bind <| (reads_uint64 header.timestamp).bind <|
        (reads_uint64 header.blockNum).bind <| (reads_fixed header.target).bind <|
        (reads_fixed header.nonce).bind <| (reads_uint32 header.workSerAlgo).bind <|
        (reads_fixed header.workSerHash).bind <| (reads_uint32 header.workParAlgo).bind <|
        (reads_fixed header.workParHash).bind_pure (.pure header)
    simpa only [encode, encodeFront, encodeBack, List.append_assoc] using hread
  recovers := by
    intro bs header rest h
    obtain ⟨version, bs1, hversion, h1⟩ := bind_eq_ok.mp h
    obtain ⟨prevBlockId, bs2, hprevBlockId, h2⟩ := bind_eq_ok.mp h1
    obtain ⟨merkleRoot, bs3, hmerkleRoot, h3⟩ := bind_eq_ok.mp h2
    obtain ⟨timestamp, bs4, htimestamp, h4⟩ := bind_eq_ok.mp h3
    obtain ⟨blockNum, bs5, hblockNum, h5⟩ := bind_eq_ok.mp h4
    obtain ⟨target, bs6, htarget, h6⟩ := bind_eq_ok.mp h5
    obtain ⟨nonce, bs7, hnonce, h7⟩ := bind_eq_ok.mp h6
    obtain ⟨workSerAlgo, bs8, hworkSerAlgo, h8⟩ := bind_eq_ok.mp h7
    obtain ⟨workSerHash, bs9, hworkSerHash, h9⟩ := bind_eq_ok.mp h8
    obtain ⟨workParAlgo, bs10, hworkParAlgo, h10⟩ := bind_eq_ok.mp h9
    obtain ⟨workParHash, bs11, hworkParHash, h11⟩ := bind_eq_ok.mp h10
    obtain ⟨rfl, rfl⟩ := pure_eq_ok.mp h11
    obtain ⟨-, rfl⟩ := canonical_uint32.recovers hversion
    obtain ⟨-, rfl⟩ := (canonical_fixed 32).recovers hprevBlockId
    obtain ⟨-, rfl⟩ := (canonical_fixed 32).recovers hmerkleRoot
    obtain ⟨-, rfl⟩ := canonical_uint64.recovers htimestamp
    obtain ⟨-, rfl⟩ := canonical_uint64.recovers hblockNum
    obtain ⟨-, rfl⟩ := (canonical_fixed 32).recovers htarget
    obtain ⟨-, rfl⟩ := (canonical_fixed 32).recovers hnonce
    obtain ⟨-, rfl⟩ := canonical_uint32.recovers hworkSerAlgo
    obtain ⟨-, rfl⟩ := (canonical_fixed 32).recovers hworkSerHash
    obtain ⟨-, rfl⟩ := canonical_uint32.recovers hworkParAlgo
    obtain ⟨-, rfl⟩ := (canonical_fixed 32).recovers hworkParHash
    exact ⟨trivial, by simp only [encode, encodeFront, encodeBack, List.append_assoc]⟩

theorem Tx.encode_ne_nil (tx : Tx) : tx.encode ≠ [] := List.cons_ne_nil _ _

namespace Block

/-- The number of transactions has a place in 64 bits, and so have all counts in them. -/
def Fits (block : Block) : Prop := VarList.Fits Tx.Fits block.txs

theorem canonical_read : Canonical read encode Fits where
  reads block h :=
    (Header.canonical_read.reads block.header trivial).bind <|
      ((VarList.canonical_read Tx.canonical_read).reads _ h).bind_pure (.pure block)
  recovers := by
    intro bs block rest h
    obtain ⟨header, bs1, hheader, h1⟩ := bind_eq_ok.mp h
    obtain ⟨txs, bs2, htxs, h2⟩ := bind_eq_ok.mp h1
    obtain ⟨rfl, rfl⟩ := pure_eq_ok.mp h2
    obtain ⟨-, rfl⟩ := Header.canonical_read.recovers hheader
    obtain ⟨hfits, rfl⟩ := (VarList.canonical_read Tx.canonical_read).recovers htxs
    exact ⟨hfits, (List.append_assoc _ _ _).symm⟩

/-- As for the lists of a transaction. -/
theorem fits_of_length {block : Block} (h : block.encode.length < 18446744073709551616) :
    block.Fits := by
  rw [encode, List.length_append] at h
  exact VarList.fits_of_length Tx.encode_ne_nil (fun _ => Tx.fits_of_length) _ (by omega)

end Block

/-! ## The codecs -/

/-- **Inputs, outputs, transactions, headers and blocks have one byte form each.** -/
theorem Codec.ledger_records_are_canonical :
    IsCanonical TxInput.Fits ∧ IsCanonical TxOutput.Fits ∧ IsCanonical Tx.Fits ∧
      IsCanonical (fun _ : Header => True) ∧ IsCanonical Block.Fits :=
  ⟨isCanonical TxInput.canonical_read fun _ => TxInput.fits_of_length,
    isCanonical TxOutput.canonical_read fun _ => TxOutput.fits_of_length,
    isCanonical Tx.canonical_read fun _ => Tx.fits_of_length,
    isCanonical Header.canonical_read fun _ _ => trivial,
    isCanonical Block.canonical_read fun _ => Block.fits_of_length⟩

end UtxoLedger
