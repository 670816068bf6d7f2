/-
UtxoLedger.Proofs.Json.Scanning — JSON tokens are read back from what they are written as.

`Scanner.run` is the scanner from any place to the end of the text, so that each lemma says
how a piece of the text moves the scanner: a part of a string (`run_write_piece`), a token
(`run_write`), a row of tokens (`run_flatMap_write`). The induction is on the row, with the
tokens read before it left open.

A mark or a string shows where it ends. A word does not: it goes on until a character that
cannot be in a word, so that two words must not stand side by side (`Token.Apart`). The other
condition is on strings: a character below the space that no letter stands for is written as
an escaped unit, and is read as that unit and not as the character (`Piece.Stable`).
-/
import UtxoLedger.Json.Token
import UtxoLedger.Proofs.Text.Hex

namespace UtxoLedger.Json

/-! ## The scanner from any place -/

namespace Scanner

/-- The tokens of a text, with the scanner's tokens in front. -/
def run (s : Scanner) (cs : List Char) : Option (List Token) := (cs.foldlM step s).bind finish

@[simp] theorem run_nil (s : Scanner) : s.run [] = s.finish := rfl

theorem run_cons (s : Scanner) (c : Char) (cs : List Char) :
    s.run (c :: cs) = (s.step c).bind (·.run cs) := by
  simp only [run, List.foldlM_cons, Option.bind_eq_bind, Option.bind_assoc]

theorem run_of_step {s s' : Scanner} {c : Char} (h : s.step c = some s') (cs : List Char) :
    s.run (c :: cs) = s'.run cs := by
  rw [run_cons, h, Option.bind_some]

end Scanner

theorem scan?_eq_run (cs : List Char) : scan? cs = Scanner.run ⟨[], .between⟩ cs := by
  rw [scan?, Scanner.run]
  cases cs.foldlM Scanner.step ⟨[], .between⟩ <;> rfl

/-! ## Parts of strings -/

/-- A part of a string that is read as it was written. -/
def Piece.Stable : Piece → Prop
  | .char c => 0x20 ≤ c.toNat ∨ (escapeLetter? c).isSome
  | .unit value => value < 0x10000

theorem unitDigit?_digit {d : Nat} (h : d < 16) : unitDigit? (Hex.digit d) = some d := by
  have hall : ∀ d : Fin 16, unitDigit? (Hex.digit d) = some d.val := by decide
  exact hall ⟨d, h⟩

/-- The letter behind the backslash stands for the character, and does not begin a unit. -/
theorem unescape?_of_escapeLetter? {c letter : Char} (h : escapeLetter? c = some letter) :
    letter ≠ 'u' ∧ unescape? letter = some c := by
  revert h
  fun_cases escapeLetter? c <;> rintro ⟨⟩ <;> subst_vars <;> decide

/-- The two characters with a meaning of their own have a letter. -/
theorem not_special_of_escapeLetter? {c : Char} (h : escapeLetter? c = none) :
    c ≠ '"' ∧ c ≠ '\\' := by
  constructor <;> rintro rfl <;> cases h

namespace Scanner

variable (done : List Token) (read : List Piece)

theorem step_escape : step ⟨done, .string read⟩ '\\' = some ⟨done, .escape read⟩ := rfl

/-- The fourth digit ends the unit. -/
theorem step_digit {d : Nat} (h : d < 16) (count value : Nat) :
    step ⟨done, .unit read count value⟩ (Hex.digit d) =
      some (if count = 3 then ⟨done, .string (.unit (16 * value + d) :: read)⟩
        else ⟨done, .unit read (count + 1) (16 * value + d)⟩) := by
  simp only [step, unitDigit?_digit h, Option.map_some]

/-- Four digits are enough for a unit of 16 bits. -/
theorem run_unitDigits {value : Nat} (h : value < 0x10000) (rest : List Char) :
    run ⟨done, .unit read 0 0⟩ (unitDigits value ++ rest) =
      run ⟨done, .string (.unit value :: read)⟩ rest := by
  have hvalue : 16 * (16 * (16 * (16 * 0 + value / 4096 % 16) + value / 256 % 16) +
      value / 16 % 16) + value % 16 = value := by omega
  have hdigit : ∀ n, n % 16 < 16 := fun n => Nat.mod_lt n (by decide)
  rw [unitDigits, List.cons_append, run_of_step (step_digit done read (hdigit _) 0 0),
    if_neg (by decide), List.cons_append, run_of_step (step_digit done read (hdigit _) _ _),
    if_neg (by decide), List.cons_append, run_of_step (step_digit done read (hdigit _) _ _),
    if_neg (by decide), List.cons_append, run_of_step (step_digit done read (hdigit _) _ _),
    if_pos rfl, hvalue, List.nil_append]

/-- A piece is read as itself however it is written: by a letter, by its unit, or as the
character. -/
theorem run_write_piece {piece : Piece} (h : piece.Stable) (rest : List Char) :
    run ⟨done, .string read⟩ (piece.write ++ rest) =
      run ⟨done, .string (piece :: read)⟩ rest := by
  cases piece with
  | unit value =>
    have hunit : step ⟨done, .escape read⟩ 'u' = some ⟨done, .unit read 0 0⟩ := rfl
    rw [Piece.write, List.cons_append, run_of_step (step_escape done read), List.cons_append,
      run_of_step hunit, run_unitDigits done read h]
  | char c =>
    cases hletter : escapeLetter? c with
    | some letter =>
      obtain ⟨hu, hc⟩ := unescape?_of_escapeLetter? hletter
      have hstep : step ⟨done, .escape read⟩ letter = some ⟨done, .string (.char c :: read)⟩ := by
        simp only [step, if_neg hu, hc, Option.map_some]
      simp only [Piece.write, hletter]
      rw [List.cons_append, run_of_step (step_escape done read), List.cons_append,
        run_of_step hstep, List.nil_append]
    | none =>
      have hlow : ¬ c.toNat < 0x20 := by
        simpa [Piece.Stable, hletter] using h
      obtain ⟨hquote, hslash⟩ := not_special_of_escapeLetter? hletter
      have hstep : step ⟨done, .string read⟩ c = some ⟨done, .string (.char c :: read)⟩ := by
        simp only [step, if_neg hquote, if_neg hslash, if_neg hlow]
      simp only [Piece.write, hletter, if_neg hlow]
      rw [List.singleton_append, run_of_step hstep]

theorem run_write_pieces {pieces : List Piece} (h : ∀ p ∈ pieces, p.Stable) (rest : List Char) :
    run ⟨done, .string read⟩ (pieces.flatMap Piece.write ++ rest) =
      run ⟨done, .string (pieces.reverse ++ read)⟩ rest := by
  induction pieces generalizing read with
  | nil => rfl
  | cons p pieces ih =>
    rw [List.forall_mem_cons] at h
    rw [List.flatMap_cons, List.append_assoc, run_write_piece done read h.1, ih _ h.2,
      List.reverse_cons, List.append_assoc, List.singleton_append]

end Scanner

/-! ## Tokens -/

namespace Token

/-- A token that is read as it was written. -/
def Stable : Token → Prop
  | .mark _ => True
  | .word chars => chars ≠ [] ∧ ∀ c ∈ chars, Scanner.endsWord c = false
  | .string pieces => ∀ p ∈ pieces, p.Stable

def isWord : Token → Bool
  | .word _ => true
  | _ => false

/-- A row of tokens that is read as it was written: no word stands behind a word. -/
def Row : List Token → Prop
  | [] => True
  | token :: rest =>
    token.Stable ∧ (token.isWord = true → ∀ next ∈ rest.head?, next.isWord = false) ∧ Row rest

end Token

namespace Scanner

theorem startToken_mark (done : List Token) (m : Mark) :
    startToken done m.toChar = ⟨.mark m :: done, .between⟩ := by
  cases m <;> rfl

/-- Any character that does not end a word can start one. -/
theorem startToken_of_not_endsWord {c : Char} (h : endsWord c = false) (done : List Token) :
    startToken done c = ⟨done, .word [c]⟩ := by
  simp only [endsWord, Bool.or_eq_false_iff, Option.isSome_eq_false_iff,
    Option.isNone_iff_eq_none, beq_eq_false_iff_ne] at h
  obtain ⟨⟨hspace, hquote⟩, hmark⟩ := h
  simp only [startToken, hspace, hmark, if_neg hquote, Bool.false_eq_true, if_false]

/-- A word ends where the text does, or before a character that ends it. -/
theorem run_word_end (done : List Token) (read : List Char) {rest : List Char}
    (h : ∀ c ∈ rest.head?, endsWord c = true) :
    run ⟨done, .word read⟩ rest = run ⟨.word read.reverse :: done, .between⟩ rest := by
  cases rest with
  | nil => rfl
  | cons c rest =>
    have hc : endsWord c = true := h c rfl
    have hstep : step ⟨done, .word read⟩ c = step ⟨.word read.reverse :: done, .between⟩ c := by
      simp only [step, if_pos hc]
    rw [run_cons, hstep, ← run_cons]

/-- A word goes on until a character that ends it. -/
theorem run_word_append (done : List Token) (read : List Char) {chars : List Char}
    (h : ∀ c ∈ chars, endsWord c = false) (rest : List Char) :
    run ⟨done, .word read⟩ (chars ++ rest) = run ⟨done, .word (chars.reverse ++ read)⟩ rest := by
  induction chars generalizing read with
  | nil => rfl
  | cons c chars ih =>
    rw [List.forall_mem_cons] at h
    have hstep : step ⟨done, .word read⟩ c = some ⟨done, .word (c :: read)⟩ := by
      simp only [step, h.1, Bool.false_eq_true, if_false]
    rw [List.cons_append, run_of_step hstep, ih _ h.2, List.reverse_cons, List.append_assoc,
      List.singleton_append]

/-- A token is read from what it is written as, if what follows does not go on with it. -/
theorem run_write {token : Token} (h : token.Stable) (done : List Token) {rest : List Char}
    (hrest : token.isWord = true → ∀ c ∈ rest.head?, endsWord c = true) :
    run ⟨done, .between⟩ (token.write ++ rest) = run ⟨token :: done, .between⟩ rest := by
  cases token with
  | mark m =>
    have hstep : step ⟨done, .between⟩ m.toChar = some ⟨.mark m :: done, .between⟩ :=
      congrArg some (startToken_mark done m)
    rw [Token.write, List.singleton_append, run_of_step hstep]
  | word chars =>
    obtain ⟨hne, hchars⟩ := h
    obtain ⟨c, chars, rfl⟩ := List.exists_cons_of_ne_nil hne
    rw [List.forall_mem_cons] at hchars
    have hstep : step ⟨done, .between⟩ c = some ⟨done, .word [c]⟩ :=
      congrArg some (startToken_of_not_endsWord hchars.1 done)
    rw [Token.write, List.cons_append, run_of_step hstep, run_word_append done [c] hchars.2,
      run_word_end done _ (hrest rfl), List.reverse_append, List.reverse_reverse]
    rfl
  | string pieces =>
    have hopen : step ⟨done, .between⟩ '"' = some ⟨done, .string []⟩ := rfl
    have hclose : ∀ read, step ⟨done, .string read⟩ '"' =
        some ⟨.string read.reverse :: done, .between⟩ := fun _ => rfl
    rw [Token.write, List.cons_append, run_of_step hopen, List.append_assoc,
      run_write_pieces done [] h, List.singleton_append, run_of_step (hclose _), List.append_nil,
      List.reverse_reverse]

/-- A token that is not a word begins with a character that ends a word. -/
theorem endsWord_of_mem_head?_write {token : Token} (h : token.isWord = false) (rest : List Char) :
    ∀ c ∈ (token.write ++ rest).head?, endsWord c = true := by
  intro c hc
  cases token with
  | mark m =>
    obtain rfl : m.toChar = c := Option.some.inj hc
    cases m <;> rfl
  | word chars => cases h
  | string pieces =>
    obtain rfl : '"' = c := Option.some.inj hc
    rfl

/-! ## Rows of tokens -/

/-- By induction on the tokens. A word ends where the next token begins, and in a row that
token is no word. -/
theorem run_flatMap_write {tokens : List Token} (h : Token.Row tokens) (done : List Token) :
    run ⟨done, .between⟩ (tokens.flatMap Token.write) = some (done.reverse ++ tokens) := by
  induction tokens generalizing done with
  | nil =>
    rw [List.append_nil]
    rfl
  | cons token tokens ih =>
    obtain ⟨hstable, hnext, hrow⟩ := h
    have hrest : token.isWord = true →
        ∀ c ∈ (tokens.flatMap Token.write).head?, endsWord c = true := by
      intro hword
      cases tokens with
      | nil => simp
      | cons next tokens => exact endsWord_of_mem_head?_write (hnext hword next rfl) _
    rw [List.flatMap_cons, run_write hstable done hrest, ih hrow, List.reverse_cons,
      List.append_assoc, List.singleton_append]

end Scanner

/-- **Tokens are read back.** Where no word stands behind a word, the scanner finds in a text the
tokens that it was written of. -/
theorem scan?_flatMap_write {tokens : List Token} (h : Token.Row tokens) :
    scan? (tokens.flatMap Token.write) = some tokens := by
  rw [scan?_eq_run, Scanner.run_flatMap_write h, List.reverse_nil, List.nil_append]

end UtxoLedger.Json
