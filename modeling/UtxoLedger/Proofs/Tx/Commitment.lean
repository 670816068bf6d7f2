/-
UtxoLedger.Proofs.Tx.Commitment — what a signature commits to, and nothing else.

A `SigningContext` is all that a digest to be signed is computed from. Two contexts
agree (`SigningContext.Agrees`) when they have the same values for what the hash
type covers. `SigningContext.sighash_commits_exactly` says that this is what decides
whether their digests are the same, as far as the hash function can tell byte
strings apart.

That contexts which agree have the same digest holds because the signed bytes are
made of nothing else. The other direction takes the signed bytes apart:

* `SignedFields.encode_injective`: each field is read back from the front, except
  the script. Its length is read back, but a count wraps, so what ends the script
  is the number of bytes behind it, which is always the same.
* `Digest.ofPart_eq`: a field that is a digest stands for the bytes under it, or is
  zero where the hash type leaves them out. Equal fields come from equal parts,
  unless the hash function maps two byte strings to one digest or one of them to
  zero (`Clash`).
* `Tx.outpointsPart?_eq_iff`, `Tx.lockRelsPart?_eq_iff`, `Tx.outputsPart?_eq_iff`:
  equal parts come from equal lists. No count stands in front of these records, but
  each is read back by itself and none is empty.
-/
import UtxoLedger.Proofs.Script.Decoding
import UtxoLedger.Proofs.Tx.SharedDigests

namespace UtxoLedger

open Reader

/-! ## The fields of the signed bytes -/

/-- What stands in the signed bytes, in the order in which it stands there. -/
structure SignedFields where
  version : UInt8
  outpoints : Digest
  lockRels : Digest
  outpoint : Outpoint
  script : Bytes
  value : UInt64
  lockRel : UInt32
  outputs : Digest
  lockAbs : UInt64
  hashType : UInt8

namespace SignedFields

/-- What stands behind the script. -/
def encodeTail (f : SignedFields) : Bytes :=
  encodeUInt64 f.value ++ (encodeUInt32 f.lockRel ++ (f.outputs.toList ++
    (encodeUInt64 f.lockAbs ++ [f.hashType])))

def encode (f : SignedFields) : Bytes :=
  [f.version] ++ (f.outpoints.toList ++ (f.lockRels.toList ++ (f.outpoint.encode ++
    (VarBytes.encode f.script ++ f.encodeTail))))

/-- Its width does not depend on the fields. What stands before it is so found from the
back. -/
theorem length_encodeTail (f : SignedFields) : f.encodeTail.length = 53 := by
  simp [encodeTail, encodeUInt64, encodeUInt32, f.outputs.length_toList]

/-- **The signed bytes have one parse.** -/
theorem encode_injective {f g : SignedFields} (h : f.encode = g.encode) : f = g := by
  unfold encode VarBytes.encode at h
  obtain ⟨hversion, h⟩ := (reads_uint8 f.version).unique (reads_uint8 g.version) h
  obtain ⟨houtpoints, h⟩ := (reads_fixed f.outpoints).unique (reads_fixed g.outpoints) h
  obtain ⟨hlockRels, h⟩ := (reads_fixed f.lockRels).unique (reads_fixed g.lockRels) h
  obtain ⟨houtpoint, h⟩ := f.outpoint.reads_read.unique g.outpoint.reads_read h
  rw [List.append_assoc, List.append_assoc] at h
  obtain ⟨-, h⟩ := (VarInt.reads_read _).unique (VarInt.reads_read _) h
  obtain ⟨hscript, h⟩ := List.append_inj' h (by rw [length_encodeTail, length_encodeTail])
  unfold encodeTail at h
  obtain ⟨hvalue, h⟩ := (reads_uint64 f.value).unique (reads_uint64 g.value) h
  obtain ⟨hlockRel, h⟩ := (reads_uint32 f.lockRel).unique (reads_uint32 g.lockRel) h
  obtain ⟨houtputs, h⟩ := (reads_fixed f.outputs).unique (reads_fixed g.outputs) h
  obtain ⟨hlockAbs, h⟩ := (reads_uint64 f.lockAbs).unique (reads_uint64 g.lockAbs) h
  obtain ⟨hhashType, -⟩ := List.cons.inj h
  cases f
  cases g
  simp only [mk.injEq]
  exact ⟨hversion, houtpoints, hlockRels, houtpoint, hscript, hvalue, hlockRel, houtputs, hlockAbs,
    hhashType⟩

end SignedFields

/-! ## Where the hash function fails -/

/-- Two different byte strings, one hashed on either side, have the same digest, or
one that is hashed on some side has the all-zero digest, which stands for a part
that is left out. -/
def Clash (hashed hashed' : List Bytes) : Prop :=
  (∃ a ∈ hashed, ∃ b ∈ hashed', a ≠ b ∧ Digest.double a = Digest.double b) ∨
    ∃ a ∈ hashed ++ hashed', Digest.double a = .zero

/-- A clash among some of the bytes that are hashed is one among all of them. -/
theorem Clash.mono {as bs as' bs' : List Bytes} (h : Clash as bs) (has : as ⊆ as')
    (hbs : bs ⊆ bs') : Clash as' bs' := by
  rcases h with ⟨a, ha, b, hb, hne, hsame⟩ | ⟨a, ha, hzero⟩
  · exact .inl ⟨a, has ha, b, hbs hb, hne, hsame⟩
  · refine .inr ⟨a, List.mem_append.mpr ?_, hzero⟩
    exact (List.mem_append.mp ha).imp (fun h => has h) fun h => hbs h

/-- What stands in the signed bytes for a part that may be left out. -/
def Digest.ofPart : Option Bytes → Digest
  | none => .zero
  | some bs => .double bs

theorem Digest.double_eq {a b : Bytes} (h : Digest.double a = Digest.double b) :
    a = b ∨ Clash [a] [b] := by
  by_cases hab : a = b
  · exact .inl hab
  · exact .inr (.inl ⟨a, List.mem_singleton_self a, b, List.mem_singleton_self b, hab, h⟩)

/-- A part that is left out stands as zero, so a digest that is zero is a clash as well. -/
theorem Digest.ofPart_eq : ∀ {part part' : Option Bytes},
    Digest.ofPart part = Digest.ofPart part' → part = part' ∨ Clash part.toList part'.toList
  | none, none, _ => .inl rfl
  | none, some b, h => .inr (.inr ⟨b, List.mem_singleton_self b, h.symm⟩)
  | some a, none, h => .inr (.inr ⟨a, List.mem_singleton_self a, h⟩)
  | some _, some _, h => (Digest.double_eq h).imp_left (congrArg some)

/-! ## The parts that are hashed by themselves

The bytes under each of the three digests that stand in the signed bytes, where the
hash type does not leave them out. -/

namespace Tx

variable {tx tx' : Tx} {hashType : UInt8}

def outpointsPart? (tx : Tx) (hashType : UInt8) : Option Bytes :=
  if hashType &&& 0x80 = 0 then some (tx.outpoints.flatMap Outpoint.encode) else none

def lockRelsPart? (tx : Tx) (hashType : UInt8) : Option Bytes :=
  if hashType &&& 0x80 = 0 ∧ hashType &&& 0x1f ≠ 2 ∧ hashType &&& 0x1f ≠ 3 then
    some ((tx.inputs.map TxInput.lockRel).flatMap encodeUInt32)
  else none

def outputsPart? (tx : Tx) (index : Nat) (hashType : UInt8) : Option Bytes :=
  if hashType &&& 0x1f = 2 then none
  else if hashType &&& 0x1f = 3 then tx.outputs[index]?.map TxOutput.encode
  else some (tx.outputs.flatMap TxOutput.encode)

theorem outpointsPart_eq (tx : Tx) (hashType : UInt8) :
    tx.outpointsPart hashType = .ofPart (tx.outpointsPart? hashType) := by
  unfold outpointsPart outpointsPart? HashType.isAnyoneCanPay HashType.anyoneCanPay
  by_cases hall : hashType &&& 0x80 = 0
  · simp [hall, Digest.ofPart, hashOutpoints, outpoints, List.flatMap_map]
  · simp [hall, Digest.ofPart]

theorem lockRelsPart_eq (tx : Tx) (hashType : UInt8) :
    tx.lockRelsPart hashType = .ofPart (tx.lockRelsPart? hashType) := by
  unfold lockRelsPart lockRelsPart? HashType.isAnyoneCanPay HashType.anyoneCanPay HashType.base
    HashType.none HashType.single
  by_cases hall : hashType &&& 0x80 = 0
  · by_cases hbase : hashType &&& 0x1f = 2 ∨ hashType &&& 0x1f = 3
    · rcases hbase with hbase | hbase <;> simp [hbase, Digest.ofPart]
    · rw [not_or] at hbase
      simp [hall, hbase, Digest.ofPart, hashLockRels, List.flatMap_map]
  · simp [hall, Digest.ofPart]

theorem outputsPart_eq (tx : Tx) (index : Nat) (hashType : UInt8) :
    tx.outputsPart index hashType = .ofPart (tx.outputsPart? index hashType) := by
  unfold outputsPart outputsPart? HashType.base HashType.none HashType.single
  by_cases hnone : hashType &&& 0x1f = 2
  · simp [hnone, Digest.ofPart]
  · by_cases hsingle : hashType &&& 0x1f = 3
    · cases tx.outputs[index]? <;> simp [hsingle, Digest.ofPart]
    · simp [hnone, hsingle, Digest.ofPart, hashOutputs]

/-! ### Equal parts come from equal lists -/

/-- The outpoints are covered unless anyone can add inputs. -/
theorem outpointsPart?_eq_iff :
    tx.outpointsPart? hashType = tx'.outpointsPart? hashType ↔
      (hashType &&& 0x80 = 0 → tx.outpoints = tx'.outpoints) := by
  unfold outpointsPart?
  by_cases hall : hashType &&& 0x80 = 0
  · have hread (o : Outpoint) : Reads Outpoint.read o.encode o ∧ o.encode ≠ [] :=
      ⟨o.reads_read, o.encode_ne_nil⟩
    rw [if_pos hall, if_pos hall, Option.some_inj, forall_prop_of_true hall]
    exact ⟨eq_of_flatMap_eq (fun o _ => hread o) fun o _ => hread o, fun h => by rw [h]⟩
  · simp [hall]

/-- The locks are covered only where all inputs and all outputs are signed. -/
theorem lockRelsPart?_eq_iff :
    tx.lockRelsPart? hashType = tx'.lockRelsPart? hashType ↔
      (hashType &&& 0x80 = 0 → hashType &&& 0x1f ≠ 2 → hashType &&& 0x1f ≠ 3 →
        tx.inputs.map TxInput.lockRel = tx'.inputs.map TxInput.lockRel) := by
  unfold lockRelsPart?
  rw [← and_imp, ← and_imp, and_assoc]
  by_cases hall : hashType &&& 0x80 = 0 ∧ hashType &&& 0x1f ≠ 2 ∧ hashType &&& 0x1f ≠ 3
  · have hread (v : UInt32) : Reads uint32 (encodeUInt32 v) v ∧ encodeUInt32 v ≠ [] :=
      ⟨reads_uint32 v, encodeUInt32_ne_nil v⟩
    rw [if_pos hall, if_pos hall, Option.some_inj, forall_prop_of_true hall]
    exact ⟨eq_of_flatMap_eq (fun v _ => hread v) fun v _ => hread v, fun h => by rw [h]⟩
  · rw [if_neg hall, if_neg hall]
    exact ⟨fun _ h => absurd h hall, fun _ => rfl⟩

/-- The scripts of the outputs are no longer than their 64-bit length fields can say.
A longer one would run into the output behind it. -/
def OutputsFit (tx : Tx) : Prop :=
  ∀ output ∈ tx.outputs, output.script.encode.length < 18446744073709551616

/-- All outputs, the one beside the input, or none. The bytes of an output are read back,
for which its script must fit. -/
theorem outputsPart?_eq_iff {index index' : Nat} (hfit : tx.OutputsFit) (hfit' : tx'.OutputsFit) :
    tx.outputsPart? index hashType = tx'.outputsPart? index' hashType ↔
      (hashType &&& 0x1f ≠ 2 → hashType &&& 0x1f ≠ 3 → tx.outputs = tx'.outputs) ∧
        (hashType &&& 0x1f = 3 → tx.outputs[index]? = tx'.outputs[index']?) := by
  have hread (tx : Tx) (hfit : tx.OutputsFit) (output : TxOutput) (hmem : output ∈ tx.outputs) :
      Reads TxOutput.read output.encode output ∧ output.encode ≠ [] :=
    ⟨TxOutput.reads_read (hfit output hmem), output.encode_ne_nil⟩
  unfold outputsPart?
  by_cases hnone : hashType &&& 0x1f = 2
  · simp [hnone]
  · rw [if_neg hnone, if_neg hnone, forall_prop_of_true hnone]
    by_cases hsingle : hashType &&& 0x1f = 3
    · rw [if_pos hsingle, if_pos hsingle, forall_prop_of_true hsingle]
      refine ⟨fun h => ⟨fun hne => absurd hsingle hne, ?_⟩, fun h => by rw [h.2]⟩
      cases houtput : tx.outputs[index]? with
      | none =>
        rw [houtput, Option.map_none, eq_comm, Option.map_eq_none_iff] at h
        exact h.symm
      | some output =>
        rw [houtput, Option.map_some, eq_comm, Option.map_eq_some_iff] at h
        obtain ⟨output', houtput', hsame⟩ := h
        have hone := (hread tx hfit output (List.mem_of_getElem? houtput)).1
        have hone' := (hread tx' hfit' output' (List.mem_of_getElem? houtput')).1
        rw [houtput', (hone'.unique hone (congrArg (· ++ []) hsame)).1]
    · rw [if_neg hsingle, if_neg hsingle, Option.some_inj, forall_prop_of_true hsingle]
      refine ⟨fun h => ⟨?_, fun h => absurd h hsingle⟩, fun h => by rw [h.1]⟩
      exact eq_of_flatMap_eq (hread tx hfit) (hread tx' hfit') h

end Tx

/-! ## Contexts -/

/-- What a digest to be signed is computed from. -/
structure SigningContext where
  tx : Tx
  spend : Spend
  hashType : UInt8
  /-- The input that is signed for. -/
  input : TxInput
  input_at : tx.inputs[spend.index]? = some input
  outputsFit : tx.OutputsFit

namespace SigningContext

/-- The digest, computed on the empty cache. -/
def digest (c : SigningContext) : Except Error Digest :=
  (c.tx.sighash c.spend c.hashType .empty).1

/-- The two contexts have the same values for what their hash type covers. -/
structure Agrees (c c' : SigningContext) : Prop where
  hashType : c.hashType = c'.hashType
  version : c.tx.version = c'.tx.version
  lockAbs : c.tx.lockAbs = c'.tx.lockAbs
  outpoint : c.input.outpoint = c'.input.outpoint
  lockRel : c.input.lockRel = c'.input.lockRel
  script : c.spend.script = c'.spend.script
  value : c.spend.value = c'.spend.value
  outpoints : c.hashType &&& 0x80 = 0 → c.tx.outpoints = c'.tx.outpoints
  lockRels : c.hashType &&& 0x80 = 0 → c.hashType &&& 0x1f ≠ 2 → c.hashType &&& 0x1f ≠ 3 →
    c.tx.inputs.map TxInput.lockRel = c'.tx.inputs.map TxInput.lockRel
  outputs : c.hashType &&& 0x1f ≠ 2 → c.hashType &&& 0x1f ≠ 3 → c.tx.outputs = c'.tx.outputs
  /-- The output beside the input, which need not be there. -/
  output : c.hashType &&& 0x1f = 3 →
    c.tx.outputs[c.spend.index]? = c'.tx.outputs[c'.spend.index]?

def fields (c : SigningContext) : SignedFields where
  version := c.tx.version
  outpoints := .ofPart (c.tx.outpointsPart? c.hashType)
  lockRels := .ofPart (c.tx.lockRelsPart? c.hashType)
  outpoint := c.input.outpoint
  script := c.spend.script
  value := c.spend.value
  lockRel := c.input.lockRel
  outputs := .ofPart (c.tx.outputsPart? c.spend.index c.hashType)
  lockAbs := c.tx.lockAbs
  hashType := c.hashType

/-- The byte strings that are hashed on the way to the digest: the signed bytes, and
the parts that stand in them as digests. -/
def hashed (c : SigningContext) : List Bytes :=
  c.fields.encode :: ((c.tx.outpointsPart? c.hashType).toList ++
    ((c.tx.lockRelsPart? c.hashType).toList ++
      (c.tx.outputsPart? c.spend.index c.hashType).toList))

/-- There is an input at the index, so nothing on the way to the digest can fail. -/
theorem digest_eq (c : SigningContext) : c.digest = .ok (.double c.fields.encode) := by
  have hpreimage : c.tx.preimage c.input c.spend c.hashType = c.fields.encode := by
    rw [Tx.preimage, Tx.outpointsPart_eq, Tx.lockRelsPart_eq, Tx.outputsPart_eq]
    rfl
  rw [digest, Tx.sighash_of_input c.hashType c.input_at, hpreimage]

variable {c c' : SigningContext}

/-- Values that agree on what is covered are signed as the same bytes. -/
theorem Agrees.fields_eq (h : c.Agrees c') : c.fields = c'.fields := by
  have houtpoints := Tx.outpointsPart?_eq_iff.mpr h.outpoints
  have hlockRels := Tx.lockRelsPart?_eq_iff.mpr h.lockRels
  have houtputs :=
    (Tx.outputsPart?_eq_iff c.outputsFit c'.outputsFit).mpr ⟨h.outputs, h.output⟩
  rw [fields, fields, h.version, houtpoints, hlockRels, h.outpoint, h.script, h.value, h.lockRel,
    houtputs, h.lockAbs, h.hashType]

/-- The three fields that are digests are taken apart one after the other, and each may be a
clash instead. -/
theorem agrees_or_clash_of_fields_eq (h : c.fields = c'.fields) :
    c.Agrees c' ∨ Clash c.hashed c'.hashed := by
  have hhashType : c.hashType = c'.hashType := congrArg SignedFields.hashType h
  have hsub (head : Bytes) {part parts : List Bytes} (hpart : part ⊆ parts) :
      part ⊆ head :: parts := List.subset_cons_of_subset head hpart
  rcases Digest.ofPart_eq (congrArg SignedFields.outpoints h) with houtpoints | hclash
  · rcases Digest.ofPart_eq (congrArg SignedFields.lockRels h) with hlockRels | hclash
    · rcases Digest.ofPart_eq (congrArg SignedFields.outputs h) with houtputs | hclash
      -- the parts are equal, and with one hash type this is agreement on what is covered
      · rw [← hhashType] at houtpoints hlockRels houtputs
        rw [Tx.outputsPart?_eq_iff c.outputsFit c'.outputsFit] at houtputs
        exact .inl
          { hashType := hhashType
            version := congrArg SignedFields.version h
            lockAbs := congrArg SignedFields.lockAbs h
            outpoint := congrArg SignedFields.outpoint h
            lockRel := congrArg SignedFields.lockRel h
            script := congrArg SignedFields.script h
            value := congrArg SignedFields.value h
            outpoints := Tx.outpointsPart?_eq_iff.mp houtpoints
            lockRels := Tx.lockRelsPart?_eq_iff.mp hlockRels
            outputs := houtputs.1
            output := houtputs.2 }
      · exact .inr (hclash.mono (hsub _ (by simp)) (hsub _ (by simp)))
    · exact .inr (hclash.mono (hsub _ (by simp)) (hsub _ (by simp)))
  · exact .inr (hclash.mono (hsub _ (by simp)) (hsub _ (by simp)))

/-- The digest itself may be a clash, or one of the three inside it. -/
theorem agrees_or_clash_of_digest_eq (h : c.digest = c'.digest) :
    c.Agrees c' ∨ Clash c.hashed c'.hashed := by
  rw [digest_eq, digest_eq] at h
  rcases Digest.double_eq (Except.ok.inj h) with hencode | hclash
  · exact agrees_or_clash_of_fields_eq (SignedFields.encode_injective hencode)
  · exact .inr (hclash.mono (by simp [hashed]) (by simp [hashed]))

/-! ### Input scripts -/

/-- The context with other input scripts. -/
def withInputScripts (c : SigningContext) (scripts : Nat → Script) : SigningContext where
  tx := { c.tx with
    inputs := c.tx.inputs.mapIdx fun i input => { input with script := scripts i } }
  spend := c.spend
  hashType := c.hashType
  input := { c.input with script := scripts c.spend.index }
  input_at := by rw [List.getElem?_mapIdx, c.input_at, Option.map_some]
  outputsFit := c.outputsFit

/-- What is read off the inputs apart from their scripts stays as it was. -/
theorem map_withInputScripts {β : Type} (f : TxInput → β) (scripts : Nat → Script)
    (hf : ∀ input script, f { input with script := script } = f input) :
    (c.withInputScripts scripts).tx.inputs.map f = c.tx.inputs.map f := by
  apply List.ext_getElem?
  intro i
  simp [withInputScripts, List.getElem?_mapIdx, Function.comp_def, hf]

/-- No covered value is read off the script of an input. -/
theorem agrees_withInputScripts (c : SigningContext) (scripts : Nat → Script) :
    (c.withInputScripts scripts).Agrees c where
  hashType := rfl
  version := rfl
  lockAbs := rfl
  outpoint := rfl
  lockRel := rfl
  script := rfl
  value := rfl
  outpoints := fun _ => map_withInputScripts _ scripts fun _ _ => rfl
  lockRels := fun _ _ _ => map_withInputScripts _ scripts fun _ _ => rfl
  outputs := fun _ _ => rfl
  output := fun _ => rfl

theorem digest_eq_of_agrees (h : c.Agrees c') : c.digest = c'.digest := by
  rw [digest_eq, digest_eq, h.fields_eq]

/-- **A signature commits to what its hash type covers, and to nothing else.** There
is always a digest. Contexts that agree on what is covered have the same one.
Contexts with the same digest agree, unless the hash function fails on the byte
strings that the two of them hash. The scripts of the inputs are never covered. -/
theorem sighash_commits_exactly (c c' : SigningContext) :
    (∃ digest, c.digest = .ok digest) ∧
      (c.Agrees c' → c.digest = c'.digest) ∧
      (c.digest = c'.digest → c.Agrees c' ∨ Clash c.hashed c'.hashed) ∧
      ∀ scripts, (c.withInputScripts scripts).digest = c.digest :=
  ⟨⟨_, c.digest_eq⟩, digest_eq_of_agrees, agrees_or_clash_of_digest_eq,
    fun scripts => digest_eq_of_agrees (c.agrees_withInputScripts scripts)⟩

/-! ### The same output beside the input

Two transactions whose second input is signed for. They differ in the input scripts,
in the lock of the first input and in the value of the first output. A signature for
a single output does not tell them apart, one for all outputs does. -/

namespace Sample

def contextOf (lockRel : UInt32) (value : UInt64) (script : Script) (hashType : UInt8) :
    SigningContext where
  tx := ⟨0, [⟨⟨.zero, 0⟩, script, lockRel⟩, ⟨⟨.zero, 1⟩, script, 3⟩],
    [⟨value, .empty⟩, ⟨5, .empty⟩], 0⟩
  spend := ⟨1, [0xac], 9⟩
  hashType := hashType
  input := ⟨⟨.zero, 1⟩, script, 3⟩
  input_at := rfl
  outputsFit := by simp [Tx.OutputsFit, Script.empty, Script.encode]

def left : UInt8 → SigningContext := contextOf 0 1 .empty

def right : UInt8 → SigningContext := contextOf 7 2 ⟨(Chunk.ofSmallInt? 1).toList⟩

theorem agrees_single : (left HashType.single).Agrees (right HashType.single) := by
  constructor <;> decide

theorem not_agrees_all : ¬ (left HashType.all).Agrees (right HashType.all) := by
  intro h
  exact absurd (h.outputs (by decide) (by decide)) (by decide)

theorem not_clash_all : ¬ Clash (left HashType.all).hashed (right HashType.all).hashed := by
  unfold Clash
  decide +kernel

end Sample

open Sample in
theorem sighash_commits_exactly_sample :
    (left HashType.single).digest = (right HashType.single).digest ∧
      (left HashType.all).digest ≠ (right HashType.all).digest := by
  obtain ⟨-, hsame, -, -⟩ :=
    sighash_commits_exactly (left HashType.single) (right HashType.single)
  obtain ⟨-, -, hexact, -⟩ := sighash_commits_exactly (left HashType.all) (right HashType.all)
  exact ⟨hsame agrees_single, fun h => (hexact h).elim not_agrees_all not_clash_all⟩

end SigningContext

end UtxoLedger
