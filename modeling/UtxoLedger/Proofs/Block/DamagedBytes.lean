/-
UtxoLedger.Proofs.Block.DamagedBytes — encodings that were cut short or have grown.

The end of a record can be lost inside a number, between a length and its data or inside
data that a script pushes, at any depth. None of these is looked at by itself. All readers
of records are incremental, so a record whose end is missing is found to be cut short
(`Canonical.cut_short`).

For scripts this holds because of where they stand. A script as a field has its length in
front, and its chunks are looked at only when all its bytes are there
(`Script.incremental_readField`), so a lost end is never taken for a fault of the script.
-/
import UtxoLedger.Proofs.Block.CanonicalBytes
import UtxoLedger.Proofs.Codec.Incremental

namespace UtxoLedger

open Reader

/-! ## Records -/

/-- The chunks are looked at only when all bytes of the field are there, and more bytes
behind the field are not looked at. -/
theorem Script.incremental_readField : Incremental readField := by
  refine VarBytes.incremental_read.bind fun bs => ?_
  split
  · exact .pure _
  · exact .throw _

theorem Outpoint.incremental_read : Incremental read :=
  (Incremental.fixed 32).bind fun _ => Incremental.uint32.bind fun _ => .pure _

theorem TxInput.incremental_read : Incremental read :=
  Outpoint.incremental_read.bind fun _ => Script.incremental_readField.bind fun _ =>
    Incremental.uint32.bind fun _ => .pure _

theorem TxOutput.incremental_read : Incremental read :=
  Incremental.uint64.bind fun _ => Script.incremental_readField.bind fun _ => .pure _

/-- A count may be any that was read, since items are read until one is missing. -/
theorem Tx.incremental_read : Incremental read :=
  Incremental.uint8.bind fun _ => (VarList.incremental_read TxInput.incremental_read).bind fun _ =>
    (VarList.incremental_read TxOutput.incremental_read).bind fun _ =>
      Incremental.uint64.bind fun _ => .pure _

theorem Header.incremental_read : Incremental read :=
  Incremental.uint32.bind fun _ => (Incremental.fixed 32).bind fun _ =>
    (Incremental.fixed 32).bind fun _ => Incremental.uint64.bind fun _ =>
    Incremental.uint64.bind fun _ => (Incremental.fixed 32).bind fun _ =>
    (Incremental.fixed 32).bind fun _ => Incremental.uint32.bind fun _ =>
    (Incremental.fixed 32).bind fun _ => Incremental.uint32.bind fun _ =>
    (Incremental.fixed 32).bind fun _ => .pure _

theorem Block.incremental_read : Incremental read :=
  Header.incremental_read.bind fun _ =>
    (VarList.incremental_read Tx.incremental_read).bind fun _ => .pure _

/-! ## Whole byte strings -/

namespace Codec

variable {α : Type} [Codec α]

/-- **What becomes of a damaged encoding.** As in `IsCanonical`, every value that can be
in a memory fits. -/
structure ReportsDamage (Fits : α → Prop) : Prop where
  fits_of_length : ∀ a, (encode a).length < 18446744073709551616 → Fits a
  decode_front : ∀ a, Fits a → ∀ front, front <+: encode a → front ≠ encode a →
    (decode front : Except Error α) = .error .notEnoughData
  decode_append : ∀ a, Fits a → ∀ more, more ≠ [] →
    (decode (encode a ++ more) : Except Error α) = .error .trailingData

/-- Both faults for any record, from how its reader treats whole encodings and from how it
treats more bytes. -/
theorem reportsDamage {Fits : α → Prop} (h : Canonical (read : Reader α) encode Fits)
    (hinc : Incremental (read : Reader α))
    (hshort : ∀ a, (encode a).length < 18446744073709551616 → Fits a) : ReportsDamage Fits where
  fits_of_length := hshort
  decode_front a ha front hfront hne := by
    obtain ⟨back, hsplit⟩ := hfront
    have hback : back ≠ [] := by
      rintro rfl
      exact hne (by rw [← hsplit, List.append_nil])
    rw [decode, whole, h.cut_short hinc ha hsplit hback]
  decode_append a ha more hmore := by
    obtain ⟨b, rest, rfl⟩ := List.exists_cons_of_ne_nil hmore
    rw [decode, whole, h.reads a ha]

/-- **Damage to an encoding is told for what it is.** Every proper front part of an
encoded record has not enough data, and an encoded record with bytes behind it has
trailing data. -/
theorem damage_is_reported :
    ReportsDamage TxInput.Fits ∧ ReportsDamage TxOutput.Fits ∧ ReportsDamage Tx.Fits ∧
      ReportsDamage (fun _ : Header => True) ∧ ReportsDamage Block.Fits :=
  ⟨reportsDamage TxInput.canonical_read TxInput.incremental_read fun _ => TxInput.fits_of_length,
    reportsDamage TxOutput.canonical_read TxOutput.incremental_read fun _ =>
      TxOutput.fits_of_length,
    reportsDamage Tx.canonical_read Tx.incremental_read fun _ => Tx.fits_of_length,
    reportsDamage Header.canonical_read Header.incremental_read fun _ _ => trivial,
    reportsDamage Block.canonical_read Block.incremental_read fun _ => Block.fits_of_length⟩

/-! ### A block that ends inside a push

The block has one transaction. The cut leaves one of the three bytes that the script of
its output pushes: a script that would be malformed if it were looked at. -/

namespace DamageSample

def header : Header := ⟨1, .zero, .zero, 0, 0, .zero, .zero, 0, .zero, 0, .zero⟩

def output : TxOutput := ⟨5, ⟨[.push [7, 8, 9] (by decide)]⟩⟩

def block : Block := ⟨header, [⟨0, [.coinbase .empty], [output], 0⟩]⟩

theorem length_encode : (encode block).length = 287 := by decide +kernel

end DamageSample

open DamageSample in
theorem damage_is_reported_sample :
    block.Fits ∧ (decode ((encode block).take 277) : Except Error Block) = .error .notEnoughData ∧
      (decode (encode block ++ [0]) : Except Error Block) = .error .trailingData := by
  obtain ⟨-, -, -, -, hblock⟩ := damage_is_reported
  have hfits : block.Fits := hblock.fits_of_length block (by rw [length_encode]; decide)
  refine ⟨hfits, hblock.decode_front block hfits _ (List.take_prefix _ _) ?_,
    hblock.decode_append block hfits [0] (List.cons_ne_nil _ _)⟩
  intro hsame
  have hlength := congrArg List.length hsame
  rw [List.length_take, length_encode] at hlength
  omega

end Codec

end UtxoLedger
