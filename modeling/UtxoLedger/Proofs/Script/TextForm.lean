/-
UtxoLedger.Proofs.Script.TextForm — scripts are read back from their text.

A chunk's token is a word, and `Chunk.ofToken_text` reads it back. There are three
families of tokens, and the order in which they are tried keeps them apart: a name
begins with neither label (`Opcode.name_facts`, checked for every opcode), and
`OP_UNKNOWN_0x` does not begin with `0x`. Behind a label, hexadecimal is strict.

The other direction is `Chunk.text_of_ofToken`: a token that is read is the text of the
chunk it is read as. The one exception is `0x` without digits, a second spelling of the
empty byte string, whose text is `OP_0` (`Chunk.respelled`).

The text of a script joins tokens by single spaces, so its words are the tokens
(`Script.words_text`), and both directions go from tokens to texts.
-/
import Mathlib.Data.List.Forall2
import UtxoLedger.Proofs.Text.Hex
import UtxoLedger.Proofs.Text.Words
import UtxoLedger.Script.Text

namespace UtxoLedger

open Blank

/-- A list is made of another one by making each item. -/
theorem mapM_eq_ok_iff {α β ε : Type} {f : α → Except ε β} {as : List α} {bs : List β} :
    as.mapM f = .ok bs ↔ List.Forall₂ (fun a b => f a = .ok b) as bs := by
  induction as generalizing bs with
  | nil =>
    rw [List.forall₂_nil_left_iff, List.mapM_nil]
    exact ⟨fun h => (Except.ok.inj h).symm, fun h => h ▸ rfl⟩
  | cons a as ih =>
    rw [List.mapM_cons, List.forall₂_cons_left_iff]
    simp only [← ih]
    cases f a <;> cases as.mapM f <;>
      simp [bind, Except.bind, pure, Except.pure, eq_comm]

/-! ## Names -/

/-- A name is a word that begins with neither label. -/
theorem Opcode.name_facts (code : Opcode) :
    IsWord code.name.toList ∧ Label.behind? "0x".toList code.name.toList = none ∧
      Label.behind? Chunk.unknownLabel.toList code.name.toList = none := by
  have hall : ∀ code ∈ all, code.name.toList.isEmpty = false ∧
      (code.name.toList.all fun c => !isBlank c) = true ∧
      Label.behind? "0x".toList code.name.toList = none ∧
      Label.behind? Chunk.unknownLabel.toList code.name.toList = none := by
    decide +kernel
  obtain ⟨hne, hblank, hdata, hunknown⟩ := hall code (mem_all code)
  exact ⟨isWord_of_all hne hblank, hdata, hunknown⟩

/-- The opcode that is found has the name that was looked for. -/
theorem Opcode.name_of_ofName? {name : String} {code : Opcode} (h : ofName? name = some code) :
    code.name = name := by
  have hfound := List.find?_some h
  exact eq_of_beq hfound

namespace Chunk

/-! ## Tokens -/

theorem ofOpcode_of_noData {code : Opcode} (h : code.lengthWidth? = none) :
    ofOpcode code = .ok (.op code h) := by
  unfold ofOpcode
  split
  · rename_i width hwidth
    rw [h] at hwidth
    cases hwidth
  · rfl

/-- An opcode that needs data behind it is no chunk by itself. -/
theorem of_ofOpcode {code : Opcode} {chunk : Chunk} (h : ofOpcode code = .ok chunk) :
    ∃ noData, chunk = .op code noData := by
  unfold ofOpcode at h
  split at h
  · cases h
  · rename_i noData
    exact ⟨noData, (Except.ok.inj h).symm⟩

theorem ofData_of_pushable {data : Bytes} (h : Pushable data) :
    ofData data = .ok (.push data h) := by
  rw [ofData, dif_pos h]

/-- A push of nothing is `OP_0`, whose text is the name. -/
theorem text_of_ofData {data : Bytes} {chunk : Chunk} (h : ofData data = .ok chunk) :
    chunk.text = if data = [] then "OP_0" else "0x" ++ Hex.encode data := by
  unfold ofData at h
  split at h
  · rename_i pushable
    obtain rfl := Except.ok.inj h
    have hne : data ≠ [] := List.length_pos_iff.mp pushable.1
    rw [if_neg hne]
    rfl
  · split at h
    · rename_i hempty
      obtain rfl := Except.ok.inj h
      rw [if_pos (List.isEmpty_iff.mp hempty)]
      rfl
    · cases h

/-- Two digits in lower case, of a byte that no opcode has. -/
theorem ofUnknownDigits?_eq_some_iff {digits : List Char} {chunk : Chunk} :
    ofUnknownDigits? digits = some chunk ↔
      ∃ byte undefined, digits = Hex.digits [byte] ∧ chunk = .unknown byte undefined := by
  unfold ofUnknownDigits?
  constructor
  · intro h
    split at h
    · rename_i byte hdigits
      split at h
      · rename_i undefined
        exact ⟨byte, undefined, Hex.decodeFrom_nil_eq_some_iff.mp hdigits,
          (Option.some.inj h).symm⟩
      · cases h
    · cases h
  · rintro ⟨byte, undefined, rfl, rfl⟩
    rw [Hex.decodeFrom_nil_eq_some_iff.mpr rfl]
    simp only [dif_pos undefined]

theorem toList_text_push (data : Bytes) (pushable : Pushable data) :
    (push data pushable).text.toList = "0x".toList ++ Hex.digits data := by
  rw [text, String.toList_append, Hex.toList_encode]

theorem toList_text_unknown (byte : UInt8) (undefined : Opcode.ofByte? byte = none) :
    (unknown byte undefined).text.toList = unknownLabel.toList ++ Hex.digits [byte] := by
  rw [text, String.toList_append, Hex.toList_encode]

/-- `OP_UNKNOWN_0x` does not begin with `0x`. -/
theorem behind?_unknownLabel (digits : List Char) :
    Label.behind? "0x".toList (unknownLabel.toList ++ digits) = none := rfl

/-- **A chunk is read back from its token.** -/
theorem ofToken_text (chunk : Chunk) : ofToken chunk.text.toList = .ok chunk := by
  cases chunk with
  | op code noData =>
    obtain ⟨-, hdata, hunknown⟩ := code.name_facts
    have hname : Opcode.ofName? (String.ofList code.name.toList) = some code := by
      rw [String.ofList_toList, Opcode.ofName?_name]
    simp only [ofToken, text, hdata, hunknown, hname]
    exact ofOpcode_of_noData noData
  | unknown byte undefined =>
    have hdigits : Label.behind? unknownLabel.toList (unknownLabel.toList ++ Hex.digits [byte]) =
        some (Hex.digits [byte]) := Label.behind?_eq_some_iff.mpr rfl
    have hchunk : ofUnknownDigits? (Hex.digits [byte]) = some (.unknown byte undefined) :=
      ofUnknownDigits?_eq_some_iff.mpr ⟨byte, undefined, rfl, rfl⟩
    rw [toList_text_unknown]
    simp only [ofToken, behind?_unknownLabel, hdigits, hchunk]
  | push data pushable =>
    have hdigits : Label.behind? "0x".toList ("0x".toList ++ Hex.digits data) =
        some (Hex.digits data) := Label.behind?_eq_some_iff.mpr rfl
    have hdata : Hex.decodeFrom [] (Hex.digits data) = some data :=
      Hex.decodeFrom_nil_eq_some_iff.mpr rfl
    rw [toList_text_push]
    simp only [ofToken, hdigits, hdata]
    exact ofData_of_pushable pushable

/-- The token that is written where this one was read. -/
def respelled (token : List Char) : List Char :=
  if token = "0x".toList then "OP_0".toList else token

theorem respelled_of_ne {token : List Char} (h : token ≠ "0x".toList) : respelled token = token :=
  if_neg h

/-- A token that is read is the chunk's own, but for `0x` in place of `OP_0`. -/
theorem text_of_ofToken {token : List Char} {chunk : Chunk} (h : ofToken token = .ok chunk) :
    chunk.text.toList = respelled token := by
  unfold ofToken at h
  split at h
  · rename_i digits hdigits
    obtain rfl := Label.behind?_eq_some_iff.mp hdigits
    split at h
    · rename_i data hdata
      obtain rfl := Hex.decodeFrom_nil_eq_some_iff.mp hdata
      rw [text_of_ofData h]
      cases data with
      | nil => rfl
      | cons b data =>
        rw [if_neg (List.cons_ne_nil b data), String.toList_append, Hex.toList_encode,
          respelled_of_ne]
        rw [Hex.digits_cons]
        simp
    · cases h
  · rename_i hnolabel
    -- A token that does not begin with `0x` is not `0x`.
    have hne : token ≠ "0x".toList := by
      rintro rfl
      cases hnolabel
    rw [respelled_of_ne hne]
    dsimp only at h
    split at h
    · rename_i digits hdigits
      obtain rfl := Label.behind?_eq_some_iff.mp hdigits
      split at h
      · rename_i chunk' hchunk
        obtain rfl := Except.ok.inj h
        obtain ⟨byte, undefined, rfl, rfl⟩ := ofUnknownDigits?_eq_some_iff.mp hchunk
        exact toList_text_unknown byte undefined
      · cases h
    · split at h
      · rename_i code hcode
        obtain ⟨noData, rfl⟩ := of_ofOpcode h
        rw [text, Opcode.name_of_ofName? hcode, String.toList_ofList]
      · cases h

/-! ## Tokens are words -/

/-- No digit separates words. -/
theorem isBlank_of_mem_digits {c : Char} {bs : Bytes} (h : c ∈ Hex.digits bs) :
    isBlank c = false := by
  obtain ⟨d, hd, rfl⟩ := Hex.exists_digit_of_mem h
  have hall : ∀ d : Fin 16, isBlank (Hex.digit d) = false := by decide
  exact hall ⟨d, hd⟩

theorem isWord_append_digits {label : List Char} (h : IsWord label) (bs : Bytes) :
    IsWord (label ++ Hex.digits bs) := by
  refine ⟨List.append_ne_nil_of_left_ne_nil h.1 _, fun c hc => ?_⟩
  rcases List.mem_append.mp hc with hc | hc
  · exact h.2 c hc
  · exact isBlank_of_mem_digits hc

/-- The text of a chunk is one word, so it is one token of the script's text. -/
theorem isWord_text (chunk : Chunk) : IsWord chunk.text.toList := by
  cases chunk with
  | op code noData => exact code.name_facts.1
  | unknown byte undefined =>
    rw [toList_text_unknown]
    exact isWord_append_digits (isWord_of_all (by decide) (by decide)) [byte]
  | push data pushable =>
    rw [toList_text_push]
    exact isWord_append_digits (isWord_of_all (by decide) (by decide)) data

/-! ## Rows of tokens -/

/-- Each chunk is read back from its own text. -/
theorem mapM_ofToken_text (chunks : List Chunk) :
    (chunks.map (·.text.toList)).mapM ofToken = .ok chunks := by
  rw [mapM_eq_ok_iff, List.forall₂_map_left_iff, List.forall₂_same]
  exact fun chunk _ => chunk.ofToken_text

/-- Every token is the text of its chunk, but for the one that is spelled in another way. -/
theorem map_text_of_mapM_ofToken {tokens : List (List Char)} {chunks : List Chunk}
    (h : tokens.mapM ofToken = .ok chunks) :
    chunks.map (·.text.toList) = tokens.map respelled := by
  rw [mapM_eq_ok_iff] at h
  induction h with
  | nil => rfl
  | cons hchunk _ ih => rw [List.map_cons, List.map_cons, text_of_ofToken hchunk, ih]

end Chunk

/-! ## Scripts -/

namespace Script

theorem words_text (script : Script) :
    words script.text.toList = script.chunks.map (·.text.toList) := by
  have hword : ∀ w ∈ script.chunks.map (·.text.toList), IsWord w := by
    intro w hw
    obtain ⟨chunk, -, rfl⟩ := List.mem_map.mp hw
    exact chunk.isWord_text
  rw [text, String.toList_intercalate, List.map_map]
  exact words_intercalate _ hword

theorem ofText_text (script : Script) : ofText script.text = .ok script := by
  rw [ofText, words_text, Chunk.mapM_ofToken_text]
  rfl

theorem chunks_of_ofText {text : String} {script : Script} (h : ofText text = .ok script) :
    (words text.toList).mapM Chunk.ofToken = .ok script.chunks := by
  unfold ofText at h
  cases hchunks : (words text.toList).mapM Chunk.ofToken with
  | error error =>
    rw [hchunks] at h
    cases h
  | ok chunks =>
    rw [hchunks] at h
    obtain rfl := Except.ok.inj h
    rfl

/-- **The text form of scripts.** Every script is read back from its text. The text of
a script that was read from any text has the same tokens, except that `0x` has become
`OP_0`, and it is read as the same script. -/
theorem text_form_is_faithful :
    (∀ script : Script, ofText script.text = .ok script) ∧
      ∀ (text : String) (script : Script), ofText text = .ok script →
        ofText script.text = .ok script ∧
          words script.text.toList = (words text.toList).map Chunk.respelled := by
  refine ⟨ofText_text, ?_⟩
  intro text script h
  refine ⟨ofText_text script, ?_⟩
  rw [words_text]
  exact Chunk.map_text_of_mapM_ofToken (chunks_of_ofText h)

end Script

end UtxoLedger
