/-
UtxoLedger.Proofs.Json.Parsing — JSON values are read back from what they are written as.

`Json.WellFormed` says what a value is made of: numbers by the grammar of numbers, strings of
parts that are read as they were written. Everything below is by induction on it.

The tokens of a value are a row of tokens in which no word stands behind a word
(`row_tokens`), so the scanner finds them again. The parser, met by the tokens of a value where
a value is due, closes the value into the innermost frame and goes on with whatever follows
(`run_tokens`); for arrays and objects this goes along the items with those already read in
the frame. `parse?_write` puts the two together.
-/
import UtxoLedger.Proofs.Json.Numbers

namespace UtxoLedger.Json

/-- A value that is read as it was written. -/
inductive WellFormed : Json → Prop where
  | null : WellFormed .null
  | bool (value : Bool) : WellFormed (.bool value)
  | number {spelling : List Char} (grammar : isNumber spelling = true) :
      WellFormed (.number spelling)
  | string {pieces : List Piece} (stable : ∀ p ∈ pieces, p.Stable) : WellFormed (.string pieces)
  | array {items : List Json} (items_wellFormed : ∀ item ∈ items, WellFormed item) :
      WellFormed (.array items)
  | object {fields : List (List Piece × Json)} (names_stable : ∀ f ∈ fields, ∀ p ∈ f.1, p.Stable)
      (values_wellFormed : ∀ f ∈ fields, WellFormed f.2) : WellFormed (.object fields)

/-! ## Items and fields with commas between them -/

/-- What holds of each group, and of two parts with the separator between them, holds of the
whole. -/
theorem intercalate_induction {α : Type} {P : List α → Prop} {sep : List α}
    {groups : List (List α)} (hnil : P []) (hjoin : ∀ left right, P left → P right →
      P (left ++ sep ++ right)) (h : ∀ g ∈ groups, P g) : P (List.intercalate sep groups) := by
  induction groups with
  | nil => exact hnil
  | cons group groups ih =>
    rw [List.forall_mem_cons] at h
    cases groups with
    | nil =>
      rw [List.intercalate_singleton]
      exact h.1
    | cons next groups =>
      rw [List.intercalate_cons_cons]
      exact hjoin _ _ h.1 (ih h.2)

theorem itemTokens_cons_cons (item next : Json) (items : List Json) :
    itemTokens (item :: next :: items) =
      item.tokens ++ .mark .comma :: itemTokens (next :: items) := by
  rw [itemTokens]
  simp

theorem fieldTokens_cons_cons (field next : List Piece × Json)
    (fields : List (List Piece × Json)) :
    fieldTokens (field :: next :: fields) =
      fieldToken field ++ .mark .comma :: fieldTokens (next :: fields) := by
  rw [fieldTokens]
  simp

theorem itemTokens_eq (items : List Json) :
    itemTokens items = List.intercalate [.mark .comma] (items.map tokens) := by
  induction items with
  | nil =>
    rw [itemTokens]
    rfl
  | cons item items ih =>
    cases items with
    | nil => rw [itemTokens, List.map_singleton, List.intercalate_singleton]
    | cons next items =>
      rw [itemTokens_cons_cons, ih]
      simp only [List.map_cons, List.intercalate_cons_cons, List.append_assoc,
        List.singleton_append]

theorem fieldTokens_eq (fields : List (List Piece × Json)) :
    fieldTokens fields = List.intercalate [.mark .comma] (fields.map fieldToken) := by
  induction fields with
  | nil =>
    rw [fieldTokens]
    rfl
  | cons field fields ih =>
    cases fields with
    | nil => rw [fieldTokens, List.map_singleton, List.intercalate_singleton]
    | cons next fields =>
      rw [fieldTokens_cons_cons, ih]
      simp only [List.map_cons, List.intercalate_cons_cons, List.append_assoc,
        List.singleton_append]

/-! ## The tokens of a value are a row -/

/-- A row in front of every row that does not begin with a word. -/
def RowInFront (tokens : List Token) : Prop :=
  ∀ rest, Token.Row rest → (∀ t ∈ rest.head?, t.isWord = false) → Token.Row (tokens ++ rest)

theorem row_mark {m : Mark} {rest : List Token} (h : Token.Row rest) :
    Token.Row (.mark m :: rest) :=
  ⟨trivial, by simp [Token.isWord], h⟩

/-- A single token is in a row with what does not run into it. -/
theorem rowInFront_singleton {token : Token} (h : token.Stable) : RowInFront [token] :=
  fun _ hrow hhead => ⟨h, fun _ => hhead, hrow⟩

/-- A comma is no word, so groups that are rows stay so with commas between them. -/
theorem row_commas {groups : List (List Token)} (h : ∀ g ∈ groups, RowInFront g) :
    RowInFront (List.intercalate [.mark .comma] groups) := by
  refine intercalate_induction (fun rest hrow _ => hrow) ?_ h
  intro left right hleft hright rest hrow hhead
  rw [List.append_assoc, List.append_assoc]
  exact hleft _ (row_mark (hright rest hrow hhead)) (by simp [Token.isWord])

/-- What stands between two marks is a row if it is one in front of the second. -/
theorem rowInFront_enclosed {tokens : List Token} (h : RowInFront tokens) (first last : Mark) :
    RowInFront (.mark first :: (tokens ++ [.mark last])) := by
  intro rest hrow _
  rw [List.cons_append, List.append_assoc]
  exact row_mark (h _ (row_mark hrow) (by simp [Token.isWord]))

/-- By induction on the value. Arrays and objects end with a mark, the others are one token. -/
theorem rowInFront_tokens {value : Json} (h : value.WellFormed) : RowInFront value.tokens := by
  induction h with
  | null =>
    rw [tokens]
    exact rowInFront_singleton (by simp [Token.Stable]; decide)
  | bool value =>
    cases value <;> rw [tokens] <;> exact rowInFront_singleton (by simp [Token.Stable]; decide)
  | number grammar =>
    rw [tokens]
    exact rowInFront_singleton (stable_of_isNumber grammar)
  | @string pieces stable =>
    have hstable : (Token.string pieces).Stable := stable
    rw [tokens]
    exact rowInFront_singleton hstable
  | array items_wellFormed ih =>
    rw [tokens, itemTokens_eq]
    refine rowInFront_enclosed (row_commas fun group hgroup => ?_) _ _
    obtain ⟨item, hitem, rfl⟩ := List.mem_map.mp hgroup
    exact ih item hitem
  | object names_stable values_wellFormed ih =>
    rw [tokens, fieldTokens_eq]
    refine rowInFront_enclosed (row_commas fun group hgroup => ?_) _ _
    obtain ⟨field, hfield, rfl⟩ := List.mem_map.mp hgroup
    intro rest hrow hhead
    rw [fieldToken, List.cons_append, List.cons_append]
    exact ⟨names_stable field hfield, by simp [Token.isWord],
      row_mark (ih field hfield rest hrow hhead)⟩

theorem row_tokens {value : Json} (h : value.WellFormed) : Token.Row value.tokens := by
  have hrow : Token.Row (value.tokens ++ []) := rowInFront_tokens h [] trivial (by simp)
  rwa [List.append_nil] at hrow

/-! ## The parser from any frames -/

namespace Parser

/-- The parser over further tokens, if it has come so far. -/
def run (p : Option Parser) (tokens : List Token) : Option Parser :=
  p.bind fun p => tokens.foldlM step p

theorem run_cons (p : Parser) (token : Token) (tokens : List Token) :
    run (some p) (token :: tokens) = run (step p token) tokens := by
  rw [run, Option.bind_some, List.foldlM_cons]
  rfl

theorem run_nil (p : Option Parser) : run p [] = p := by
  cases p <;> rfl

/-- The parser reads the tokens of the value, where a value is due, as the value. -/
def Reads (value : Json) : Prop :=
  ∀ frames rest, run (some ⟨frames, .value⟩) (value.tokens ++ rest) = run (close value frames) rest

/-- A value that is one token. -/
theorem reads_of_token {value : Json} {token : Token} (htokens : value.tokens = [token])
    (h : ∀ frames, startValue frames token = close value frames) : Reads value := by
  intro frames rest
  rw [htokens, List.singleton_append, run_cons]
  exact congrArg (run · rest) (h frames)

/-- The items of an array, behind those that are in its frame already. -/
theorem run_itemTokens {items : List Json} (h : ∀ item ∈ items, Reads item) (hne : items ≠ [])
    (done : List Json) (frames : List Frame) (rest : List Token) :
    run (some ⟨.array done :: frames, .value⟩)
        (itemTokens items ++ .mark .closeArray :: rest) =
      run (close (.array (done.reverse ++ items)) frames) rest := by
  induction items generalizing done with
  | nil => exact absurd rfl hne
  | cons item items ih =>
    rw [List.forall_mem_cons] at h
    have hclose : close item (.array done :: frames) =
        some ⟨.array (item :: done) :: frames, .more⟩ := rfl
    cases items with
    | nil =>
      have hend : step ⟨.array (item :: done) :: frames, .more⟩ (.mark .closeArray) =
          close (.array (item :: done).reverse) frames := rfl
      rw [itemTokens, h.1, hclose, run_cons, hend, List.reverse_cons]
    -- a comma leads from behind one item to in front of the next
    | cons next items =>
      have hcomma : step ⟨.array (item :: done) :: frames, .more⟩ (.mark .comma) =
          some ⟨.array (item :: done) :: frames, .value⟩ := rfl
      rw [itemTokens_cons_cons, List.append_assoc, h.1, hclose, List.cons_append, run_cons, hcomma,
        ih h.2 (List.cons_ne_nil _ _), List.reverse_cons, List.append_assoc,
        List.singleton_append]

/-- The fields of an object, behind those that are in its frame already. -/
theorem run_fieldTokens {fields : List (List Piece × Json)} (h : ∀ f ∈ fields, Reads f.2)
    (hne : fields ≠ []) (done : List (List Piece × Json)) (frames : List Frame)
    (rest : List Token) :
    run (some ⟨.object done :: frames, .name⟩)
        (fieldTokens fields ++ .mark .closeObject :: rest) =
      run (close (.object (done.reverse ++ fields)) frames) rest := by
  induction fields generalizing done with
  | nil => exact absurd rfl hne
  | cons field fields ih =>
    obtain ⟨name, value⟩ := field
    rw [List.forall_mem_cons] at h
    have hname : step ⟨.object done :: frames, .name⟩ (.string name) =
        some ⟨.field done name :: frames, .colon⟩ := rfl
    have hcolon : step ⟨.field done name :: frames, .colon⟩ (.mark .colon) =
        some ⟨.field done name :: frames, .value⟩ := rfl
    have hclose : close value (.field done name :: frames) =
        some ⟨.object ((name, value) :: done) :: frames, .more⟩ := rfl
    -- one field, with its name and its value
    have hfield : ∀ more, run (some ⟨.object done :: frames, .name⟩)
        (fieldToken (name, value) ++ more) =
          run (some ⟨.object ((name, value) :: done) :: frames, .more⟩) more := by
      intro more
      rw [fieldToken, List.cons_append, run_cons, hname, List.cons_append, run_cons, hcolon,
        h.1, hclose]
    cases fields with
    | nil =>
      have hend : step ⟨.object ((name, value) :: done) :: frames, .more⟩ (.mark .closeObject) =
          close (.object ((name, value) :: done).reverse) frames := rfl
      rw [fieldTokens, hfield, run_cons, hend, List.reverse_cons]
    | cons next fields =>
      have hcomma : step ⟨.object ((name, value) :: done) :: frames, .more⟩ (.mark .comma) =
          some ⟨.object ((name, value) :: done) :: frames, .name⟩ := rfl
      rw [fieldTokens_cons_cons, List.append_assoc, hfield, List.cons_append, run_cons, hcomma,
        ih h.2 (List.cons_ne_nil _ _), List.reverse_cons, List.append_assoc,
        List.singleton_append]

/-! ## Values -/

/-- No value starts as an array ends. -/
theorem exists_tokens_eq_cons (value : Json) :
    ∃ token tokens, value.tokens = token :: tokens ∧ token ≠ .mark .closeArray := by
  cases value with
  | bool b => cases b <;> simp [tokens]
  | _ => simp [tokens]

/-- In front of the first item the parser stands as in front of any other. -/
theorem run_firstItem (value : Json) (frames : List Frame) (rest : List Token) :
    run (some ⟨frames, .firstItem⟩) (value.tokens ++ rest) =
      run (some ⟨frames, .value⟩) (value.tokens ++ rest) := by
  obtain ⟨token, tokens, htokens, hne⟩ := exists_tokens_eq_cons value
  rw [htokens, List.cons_append, run_cons, run_cons]
  simp only [step, if_neg hne]

/-- The first item is read in a state of its own, since only there the array may end. -/
theorem reads_array {items : List Json} (h : ∀ item ∈ items, Reads item) :
    Reads (.array items) := by
  intro frames rest
  have hopen : step ⟨frames, .value⟩ (.mark .openArray) = some ⟨.array [] :: frames, .firstItem⟩ :=
    rfl
  rw [tokens, List.cons_append, run_cons, hopen, List.append_assoc, List.singleton_append]
  cases items with
  | nil =>
    have hend : step ⟨.array [] :: frames, .firstItem⟩ (.mark .closeArray) =
        close (.array []) frames := rfl
    rw [itemTokens, List.nil_append, run_cons, hend]
  | cons item items =>
    have hitems := run_itemTokens h (List.cons_ne_nil item items) [] frames rest
    obtain ⟨more, hmore⟩ : ∃ more, itemTokens (item :: items) = item.tokens ++ more := by
      cases items with
      | nil => exact ⟨[], by rw [itemTokens, List.append_nil]⟩
      | cons next items => exact ⟨_, itemTokens_cons_cons item next items⟩
    rw [hmore, List.append_assoc] at hitems ⊢
    rw [run_firstItem, hitems, List.reverse_nil, List.nil_append]

/-- The fields are read in turn, each name before its value. -/
theorem reads_object {fields : List (List Piece × Json)} (h : ∀ f ∈ fields, Reads f.2) :
    Reads (.object fields) := by
  intro frames rest
  have hopen : step ⟨frames, .value⟩ (.mark .openObject) =
      some ⟨.object [] :: frames, .firstName⟩ := rfl
  rw [tokens, List.cons_append, run_cons, hopen, List.append_assoc, List.singleton_append]
  cases fields with
  | nil =>
    have hend : step ⟨.object [] :: frames, .firstName⟩ (.mark .closeObject) =
        close (.object []) frames := rfl
    rw [fieldTokens, List.nil_append, run_cons, hend]
  | cons field fields =>
    have hfields := run_fieldTokens h (List.cons_ne_nil field fields) [] frames rest
    obtain ⟨more, hmore⟩ : ∃ more, fieldTokens (field :: fields) = .string field.1 :: more := by
      cases fields with
      | nil => exact ⟨_, by rw [fieldTokens, fieldToken]⟩
      | cons next fields => exact ⟨_, by rw [fieldTokens_cons_cons, fieldToken, List.cons_append]⟩
    have hfirst : step ⟨.object [] :: frames, .firstName⟩ (.string field.1) =
        step ⟨.object [] :: frames, .name⟩ (.string field.1) := rfl
    rw [hmore, List.cons_append, run_cons] at hfields ⊢
    rw [hfirst, hfields, List.reverse_nil, List.nil_append]

theorem reads_of_wellFormed {value : Json} (h : value.WellFormed) : Reads value := by
  induction h with
  | null => exact reads_of_token (by rw [tokens]) fun _ => rfl
  | bool value => cases value <;> exact reads_of_token (by rw [tokens]) fun _ => rfl
  | number grammar =>
    refine reads_of_token (by rw [tokens]) fun frames => ?_
    rw [startValue, wordValue?_of_isNumber grammar, Option.bind_some]
  | string stable => exact reads_of_token (by rw [tokens]) fun _ => rfl
  | array items_wellFormed ih => exact reads_array ih
  | object names_stable values_wellFormed ih => exact reads_object ih

end Parser

theorem ofTokens?_tokens {value : Json} (h : value.WellFormed) :
    ofTokens? value.tokens = some value := by
  have hrun := Parser.reads_of_wellFormed h [] []
  rw [List.append_nil, Parser.run_nil] at hrun
  have hfold : value.tokens.foldlM Parser.step ⟨[], .value⟩ = some ⟨[], .nothing value⟩ := hrun
  rw [ofTokens?, hfold]

/-- **Values are read back.** A well-formed value is what its text is read as. -/
theorem parse?_write {value : Json} (h : value.WellFormed) : parse? value.write = some value := by
  rw [parse?, write, String.toList_ofList, scan?_flatMap_write (row_tokens h), Option.bind_some,
    ofTokens?_tokens h]

end UtxoLedger.Json
