/-
UtxoLedger.Proofs.Json.Forms — the JSON forms of the ledger's values lose nothing.

`JsonForm.Lawful` is what a form owes: the value that it writes is well formed, so that its
text is read as that JSON value (`Json.parse?_write`), and the JSON value is read as what was
written. There is one instance for each way to make a form: a text without control characters
that is read back, a number below its bound, a list, and a record, which finds each value under
its name because the names differ (`Json.record?_ofRecord`).

The texts are hexadecimal for fixed byte strings, labelled texts with a checksum for keys and key
hashes, and the text of scripts. That each is read back is said in the module on that text.
-/
import UtxoLedger.Json.Form
import UtxoLedger.Proofs.Json.Parsing
import UtxoLedger.Proofs.Script.TextForm
import UtxoLedger.Proofs.Text.Checked

namespace UtxoLedger

/-! ## Texts without control characters -/

/-- No character stands below the space. -/
def Plain (cs : List Char) : Prop := ∀ c ∈ cs, 0x20 ≤ c.toNat

instance (cs : List Char) : Decidable (Plain cs) := List.decidableBAll _ cs

theorem plain_append {front rest : List Char} (hfront : Plain front) (hrest : Plain rest) :
    Plain (front ++ rest) :=
  List.forall_mem_append.mpr ⟨hfront, hrest⟩

theorem plain_intercalate {sep : List Char} {groups : List (List Char)} (hsep : Plain sep)
    (h : ∀ g ∈ groups, Plain g) : Plain (List.intercalate sep groups) := by
  refine Json.intercalate_induction (by simp [Plain]) ?_ h
  intro left right hleft hright
  exact plain_append (plain_append hleft hsep) hright

theorem Hex.plain_digits (bs : Bytes) : Plain (digits bs) := by
  intro c hc
  obtain ⟨d, hd, rfl⟩ := exists_digit_of_mem hc
  have hall : ∀ d : Fin 16, 0x20 ≤ (digit d).toNat := by decide
  exact hall ⟨d, hd⟩

theorem Base58.plain_digitsOnto (n : Nat) {after : List Char} (h : Plain after) :
    Plain (digitsOnto n after) := by
  fun_induction digitsOnto n after with
  | case1 after => exact h
  | case2 n after hn ih =>
    have hall : ∀ d : Fin 58, 0x20 ≤ (digit d).toNat := by decide +kernel
    exact ih (List.forall_mem_cons.mpr ⟨hall ⟨n % 58, Nat.mod_lt n (by decide)⟩, h⟩)

/-- The alphabet has letters and numerals only. -/
theorem Base58.plain_encodeChars (bs : Bytes) : Plain (encodeChars bs) := by
  refine plain_append ?_ (plain_digitsOnto _ (by simp [Plain]))
  intro c hc
  obtain ⟨b, -, rfl⟩ := List.mem_map.mp hc
  decide

/-- The label may be any text, so that it is plain must be known of it. -/
theorem Checked.plain_encode {label : String} (h : Plain label.toList) (payload : Bytes) :
    Plain (encode label payload).toList := by
  rw [toList_encode]
  exact plain_append h (plain_append (Hex.plain_digits _) (Base58.plain_encodeChars payload))

theorem Opcode.plain_name (code : Opcode) : Plain code.name.toList := by
  have hall : ∀ code ∈ all, Plain code.name.toList := by decide +kernel
  exact hall code (mem_all code)

/-- Apart from names there are only labels and hexadecimal digits. -/
theorem Chunk.plain_text (chunk : Chunk) : Plain chunk.text.toList := by
  cases chunk with
  | op code noData => exact code.plain_name
  | unknown byte undefined =>
    rw [toList_text_unknown]
    exact plain_append (by decide) (Hex.plain_digits _)
  | push data pushable =>
    rw [toList_text_push]
    exact plain_append (by decide) (Hex.plain_digits _)

/-- The texts of the chunks and the spaces between them. -/
theorem Script.plain_text (script : Script) : Plain script.text.toList := by
  rw [text, String.toList_intercalate, List.map_map]
  refine plain_intercalate (by decide) fun token htoken => ?_
  obtain ⟨chunk, -, rfl⟩ := List.mem_map.mp htoken
  exact chunk.plain_text

/-- A computation that succeeds on each item succeeds on the list. -/
theorem mapM_eq_some_map {α β : Type} {f : α → Option β} {g : α → β} {items : List α}
    (h : ∀ a ∈ items, f a = some (g a)) : items.mapM f = some (items.map g) := by
  induction items with
  | nil => rfl
  | cons a items ih =>
    rw [List.forall_mem_cons] at h
    rw [List.mapM_cons, h.1, ih h.2]
    rfl

/-! ## Texts in JSON -/

namespace Json

/-- Characters that stand for themselves are read as they are. -/
theorem textOf?_map_char (cs : List Char) : textOf? (cs.map .char) = some cs := by
  induction cs with
  | nil => rw [List.map_nil, textOf?]
  | cons c cs ih => rw [List.map_cons, textOf?, ih, Option.map_some]

/-- Only control characters have to be written in another way. -/
theorem stable_of_plain {cs : List Char} (h : Plain cs) :
    ∀ p ∈ cs.map Piece.char, p.Stable := by
  intro p hp
  obtain ⟨c, hc, rfl⟩ := List.mem_map.mp hp
  exact .inl (h c hc)

theorem text?_ofText (text : String) : (ofText text).text? = some text := by
  rw [ofText, text?, textOf?_map_char, Option.map_some, String.ofList_toList]

/-! ## Records -/

/-- A field as it is written. -/
def named (field : String × Json) : List Piece × Json := (field.1.toList.map .char, field.2)

theorem ofRecord_eq (names : List String) (values : List Json) :
    ofRecord names values = .object ((names.zip values).map named) := by
  rw [List.map_zip_eq_zipWith]
  rfl

/-- What is asked of the names is seen from the names, for each record once. -/
theorem wellFormed_ofRecord {names : List String} {values : List Json}
    (hnames : ∀ name ∈ names, Plain name.toList) (hvalues : ∀ value ∈ values, value.WellFormed) :
    (ofRecord names values).WellFormed := by
  rw [ofRecord_eq]
  refine .object ?_ ?_ <;> rintro field hfield <;>
    obtain ⟨⟨name, value⟩, hpair, rfl⟩ := List.mem_map.mp hfield
  · exact stable_of_plain (hnames name (List.of_mem_zip hpair).1)
  · exact hvalues value (List.of_mem_zip hpair).2

/-- Names that differ are found once. -/
theorem filter_zip_of_mem {names : List String} {values : List Json} (hnodup : names.Nodup)
    {name : String} {value : Json} (h : (name, value) ∈ names.zip values) :
    (names.zip values).filter (fun field => field.1 == name) = [(name, value)] := by
  induction names generalizing values with
  | nil => simp at h
  | cons first names ih =>
    rw [List.nodup_cons] at hnodup
    cases values with
    | nil => simp at h
    | cons head values =>
      rw [List.zip_cons_cons] at h ⊢
      rcases List.mem_cons.mp h with hhead | htail
      · obtain ⟨rfl, rfl⟩ := Prod.mk.inj hhead
        have hnone : (names.zip values).filter (fun field => field.1 == name) = [] := by
          rw [List.filter_eq_nil_iff]
          intro field hfield hsame
          have hmem := (List.of_mem_zip hfield).1
          rw [eq_of_beq hsame] at hmem
          exact hnodup.1 hmem
        rw [List.filter_cons, if_pos (beq_self_eq_true name), hnone]
      · have hne : first ≠ name := by
          rintro rfl
          exact hnodup.1 (List.of_mem_zip htail).1
        rw [List.filter_cons, if_neg (by simpa using hne), ih hnodup.2 htail]

/-- A field is found under its name because no other has the name. -/
theorem field?_map_named {names : List String} {values : List Json} (hnodup : names.Nodup)
    {name : String} {value : Json} (h : (name, value) ∈ names.zip values) :
    field? ((names.zip values).map named) name = some value := by
  have hsame : (fun field : List Piece × Json => textOf? field.1 == some name.toList) ∘ named =
      fun field => field.1 == name := by
    funext field
    rw [Function.comp_apply, named, textOf?_map_char, Bool.eq_iff_iff]
    simp [String.toList_inj]
  rw [field?, List.filter_map, hsame, filter_zip_of_mem hnodup h]
  rfl

/-- **Records are read back** by the names of their fields. -/
theorem record?_ofRecord {names : List String} {values : List Json} (hnodup : names.Nodup)
    (hlength : names.length = values.length) :
    (ofRecord names values).record? names = some values := by
  have htext : ((names.zip values).map named).all (fun field => (textOf? field.1).isSome) =
      true := by
    simp [named, textOf?_map_char]
  have hfield : ∀ field ∈ names.zip values,
      (field? ((names.zip values).map named) ∘ Prod.fst) field = some field.2 :=
    fun field hfield => field?_map_named hnodup hfield
  have hall := mapM_eq_some_map hfield
  rw [← List.mapM_map, List.map_fst_zip hlength.le, List.map_snd_zip hlength.ge] at hall
  rw [ofRecord_eq, record?, if_pos htext, hall]

end Json

/-! ## Forms that lose nothing -/

namespace JsonForm

/-- What is written in the form is read from it. -/
class Lawful (α : Type) [JsonForm α] : Prop where
  wellFormed (value : α) : (toJson value).WellFormed
  ofJson?_toJson (value : α) : ofJson? (toJson value) = some value

export Lawful (wellFormed ofJson?_toJson)

theorem read?_write {α : Type} [JsonForm α] [Lawful α] (value : α) :
    read? α (write value) = some value := by
  rw [read?, write, Json.parse?_write (wellFormed value), Option.bind_some, ofJson?_toJson]

/-- A value that has a text needs no more than that the text is plain and is read back. -/
theorem lawful_ofTextForm {α : Type} {toText : α → String} {ofText : String → Except Error α}
    (hplain : ∀ value, Plain (toText value).toList)
    (hread : ∀ value, ofText (toText value) = .ok value) :
    @Lawful α (ofTextForm toText ofText) := by
  let _ := ofTextForm toText ofText
  refine ⟨fun value => .string (Json.stable_of_plain (hplain value)), fun value => ?_⟩
  show ((Json.ofText (toText value)).text?.bind fun text => (ofText text).toOption) = some value
  rw [Json.text?_ofText, Option.bind_some, hread]
  rfl

/-- A number that is not below the bound would be refused when it is read. -/
theorem lawful_ofNatForm {α : Type} {bound : Nat} {toNat : α → Nat} {ofNat : Nat → α}
    (hlt : ∀ value, toNat value < bound) (hof : ∀ value, ofNat (toNat value) = value) :
    @Lawful α (ofNatForm bound toNat ofNat) := by
  let _ := ofNatForm bound toNat ofNat
  refine ⟨fun value => .number (Json.isNumber_toDigits _), fun value => ?_⟩
  show ((Json.ofNat (toNat value)).natOf?.bind fun n =>
    if n < bound then some (ofNat n) else none) = some value
  rw [Json.ofNat, Json.natOf?_toDigits, Option.bind_some, if_pos (hlt value), hof]

instance : Lawful UInt8 := lawful_ofNatForm UInt8.toNat_lt fun _ => UInt8.ofNat_toNat

instance : Lawful UInt32 := lawful_ofNatForm UInt32.toNat_lt fun _ => UInt32.ofNat_toNat

instance : Lawful UInt64 := lawful_ofNatForm UInt64.toNat_lt fun _ => UInt64.ofNat_toNat

/-- The width is right, so nothing is found wrong with it. -/
theorem ofHex_toHex {n : Nat} (bytes : Fixed n) : Fixed.ofHex n bytes.toHex = .ok bytes := by
  have hdigits : Hex.decode? bytes.toHex = some bytes.toList := by
    rw [Hex.decode?, Fixed.toHex, Hex.toList_encode, Hex.decodeFrom_nil_eq_some_iff]
  rw [Fixed.ofHex, hdigits]
  exact bytes.ofList_toList

instance {n : Nat} : Lawful (Fixed n) :=
  lawful_ofTextForm (fun bytes => Hex.toList_encode bytes.toList ▸ Hex.plain_digits _) ofHex_toHex

instance : Lawful PublicKey :=
  lawful_ofTextForm (fun key => Checked.plain_encode (by decide) key.bytes.toList) fun _ =>
    PublicKey.ofText_eq_ok_iff.mpr rfl

instance : Lawful KeyHash :=
  lawful_ofTextForm (fun hash => Checked.plain_encode (by decide) hash.digest.toList) fun _ =>
    KeyHash.ofText_eq_ok_iff.mpr rfl

instance : Lawful Script := lawful_ofTextForm Script.plain_text Script.ofText_text

instance {α : Type} [JsonForm α] [Lawful α] : Lawful (List α) where
  wellFormed items := by
    refine .array fun json hjson => ?_
    obtain ⟨item, -, rfl⟩ := List.mem_map.mp hjson
    exact wellFormed item
  ofJson?_toJson items := by
    show (items.map toJson).mapM ofJson? = some items
    have hitems : ∀ item ∈ items, (ofJson? ∘ toJson) item = some (id item) :=
      fun item _ => ofJson?_toJson item
    rw [List.mapM_map, mapM_eq_some_map hitems, List.map_id]

/-- A record is lawful if its names can be told apart, and it is made of the values that are
found under them. -/
theorem lawful_of_fields {α : Type} [JsonForm α] {names : List String} {values : α → List Json}
    (hnames : names.Nodup ∧ ∀ name ∈ names, Plain name.toList)
    (hvalues : ∀ a, names.length = (values a).length ∧ ∀ value ∈ values a, value.WellFormed)
    (hwritten : ∀ a, toJson a = .ofRecord names (values a))
    (hread : ∀ a json, json.record? names = some (values a) → ofJson? json = some a) :
    Lawful α where
  wellFormed a := by
    rw [hwritten]
    exact Json.wellFormed_ofRecord hnames.2 (hvalues a).2
  ofJson?_toJson a := by
    rw [hwritten]
    exact hread a _ (Json.record?_ofRecord hnames.1 (hvalues a).1)

end JsonForm

/-! ## The ledger's values -/

open JsonForm (Lawful lawful_of_fields wellFormed ofJson?_toJson)

instance : Lawful Outpoint := by
  refine lawful_of_fields (by decide) (fun o => ⟨rfl, by simp [wellFormed]⟩) (fun o => rfl) ?_
  intro o json h
  unfold instJsonFormOutpoint
  dsimp only
  rw [h]
  simp only [ofJson?_toJson]
  rfl

instance : Lawful TxInput := by
  refine lawful_of_fields (by decide) (fun input => ⟨rfl, by simp [wellFormed]⟩)
    (fun input => rfl) ?_
  intro input json h
  unfold instJsonFormTxInput
  dsimp only
  rw [h]
  simp only [ofJson?_toJson]
  rfl

instance : Lawful TxOutput := by
  refine lawful_of_fields (by decide) (fun output => ⟨rfl, by simp [wellFormed]⟩)
    (fun output => rfl) ?_
  intro output json h
  unfold instJsonFormTxOutput
  dsimp only
  rw [h]
  simp only [ofJson?_toJson]
  rfl

instance : Lawful Tx := by
  refine lawful_of_fields (by decide) (fun tx => ⟨rfl, by simp [wellFormed]⟩) (fun tx => rfl) ?_
  intro tx json h
  unfold instJsonFormTx
  dsimp only
  rw [h]
  simp only [ofJson?_toJson]
  rfl

instance : Lawful Header := by
  refine lawful_of_fields (by decide) (fun h => ⟨rfl, by simp [wellFormed]⟩) (fun h => rfl) ?_
  intro header json h
  unfold instJsonFormHeader
  dsimp only
  rw [h]
  simp only [ofJson?_toJson]
  rfl

instance : Lawful Block := by
  refine lawful_of_fields (by decide) (fun b => ⟨rfl, by simp [wellFormed]⟩) (fun b => rfl) ?_
  intro b json h
  unfold instJsonFormBlock
  dsimp only
  rw [h]
  simp only [ofJson?_toJson]
  rfl

namespace JsonForm

/-- **JSON loses nothing.** Every fixed byte string, key, key hash, outpoint, script, input,
output, transaction, header and block is read from the text that it is written as, and so its
bytes and its id are what they were. -/
theorem values_survive_json :
    (∀ (n : Nat) (bytes : Fixed n), read? (Fixed n) (write bytes) = some bytes) ∧
      (∀ key : PublicKey, read? PublicKey (write key) = some key) ∧
      (∀ hash : KeyHash, read? KeyHash (write hash) = some hash) ∧
      (∀ o : Outpoint, read? Outpoint (write o) = some o ∧
        (read? Outpoint (write o)).map Outpoint.encode = some o.encode) ∧
      (∀ script : Script, read? Script (write script) = some script ∧
        (read? Script (write script)).map Script.encode = some script.encode) ∧
      (∀ input : TxInput, read? TxInput (write input) = some input ∧
        (read? TxInput (write input)).map TxInput.encode = some input.encode) ∧
      (∀ output : TxOutput, read? TxOutput (write output) = some output ∧
        (read? TxOutput (write output)).map TxOutput.encode = some output.encode) ∧
      (∀ tx : Tx, read? Tx (write tx) = some tx ∧
        (read? Tx (write tx)).map Tx.encode = some tx.encode ∧
        (read? Tx (write tx)).map Tx.id = some tx.id) ∧
      (∀ header : Header, read? Header (write header) = some header ∧
        (read? Header (write header)).map Header.encode = some header.encode ∧
        (read? Header (write header)).map Header.id = some header.id) ∧
      ∀ b : Block, read? Block (write b) = some b ∧
        (read? Block (write b)).map Block.encode = some b.encode ∧
        (read? Block (write b)).map Block.id = some b.id := by
  simp only [read?_write, Option.map_some, implies_true, and_self]

/-- A byte that is no opcode, between an opcode and pushed data. -/
example : write (TxOutput.mk 50 ⟨[.op .verify rfl, .unknown 0xff rfl, .push [7] (by decide)]⟩) =
    "\x7b\"value\":50,\"script\":\"OP_VERIFY OP_UNKNOWN_0xff 0x07\"\x7d" := by
  decide +kernel

end JsonForm

end UtxoLedger
