/-
UtxoLedger.Proofs.Text.Checked — a labelled text has exactly one spelling.

Everything in such a text is determined by the label and the payload, so it is enough that
each part is found where it was written: the label by its characters, the checksum by the
eight bytes that it takes up (`splitUtf8?_eq_some_iff`), and that each part by itself has one
spelling (`UtxoLedger.Proofs.Text.Hex`, `UtxoLedger.Proofs.Text.Base58`). The texts of keys
and key hashes inherit this.

A text is bytes, and the place behind the checksum is counted in them. `decodeByOffset` cuts
there, at an offset that may be inside of a character or behind the end of the text, where
there is nothing to cut. `decodeByOffset_eq` says that the test before the cut rules this out,
and that splitting by characters comes to the same.
-/
import UtxoLedger.Key
import UtxoLedger.Proofs.Text.Base58
import UtxoLedger.Proofs.Text.Hex

namespace UtxoLedger

namespace Checked

/-! ## The place behind the checksum -/

theorem utf8ByteSize_ofList_cons (c : Char) (cs : List Char) :
    (String.ofList (c :: cs)).utf8ByteSize = c.utf8Size + (String.ofList cs).utf8ByteSize := by
  rw [← List.singleton_append, String.ofList_append, String.utf8ByteSize_append,
    ← String.singleton_eq_ofList, String.utf8ByteSize_singleton]

/-- A cut between two characters is found by the size of what is in front. -/
theorem splitUtf8?_append (front rest : List Char) :
    splitUtf8? (String.ofList front).utf8ByteSize (front ++ rest) = some (front, rest) := by
  induction front with
  | nil => simp [splitUtf8?]
  | cons c front ih =>
    obtain ⟨k, hk⟩ := Nat.exists_eq_add_one_of_ne_zero (Nat.ne_of_gt c.utf8Size_pos)
    have hsize : c.utf8Size + (String.ofList front).utf8ByteSize =
        k + (String.ofList front).utf8ByteSize + 1 := by omega
    have hfits : c.utf8Size ≤ k + (String.ofList front).utf8ByteSize + 1 := by omega
    have hleft : k + (String.ofList front).utf8ByteSize + 1 - c.utf8Size =
        (String.ofList front).utf8ByteSize := by omega
    rw [utf8ByteSize_ofList_cons, hsize, List.cons_append, splitUtf8?, if_pos hfits, hleft, ih]

/-- A split never falls into a character. -/
theorem of_splitUtf8? {size : Nat} {cs front rest : List Char}
    (h : splitUtf8? size cs = some (front, rest)) :
    cs = front ++ rest ∧ (String.ofList front).utf8ByteSize = size := by
  fun_induction splitUtf8? size cs generalizing front with
  | case1 cs =>
    obtain ⟨rfl, rfl⟩ : [] = front ∧ cs = rest := by simpa using h
    simp
  | case2 size => cases h
  | case3 size c cs hfits front' rest' hsplit ih =>
    obtain ⟨rfl, rfl⟩ : c :: front' = front ∧ rest' = rest := by simpa using h
    obtain ⟨hcs, hsize⟩ := ih hsplit
    refine ⟨by rw [hcs, List.cons_append], ?_⟩
    rw [utf8ByteSize_ofList_cons, hsize]
    omega
  | case4 size c cs hfits hnone ih => cases h
  | case5 size c cs hlong => cases h

/-- The split is where the characters in front take up so many bytes. -/
theorem splitUtf8?_eq_some_iff {size : Nat} {cs front rest : List Char} :
    splitUtf8? size cs = some (front, rest) ↔
      cs = front ++ rest ∧ (String.ofList front).utf8ByteSize = size := by
  constructor
  · exact of_splitUtf8?
  · rintro ⟨rfl, rfl⟩
    exact splitUtf8?_append front rest

/-! ## The whole text -/

theorem length_checksum (payload : Bytes) : (checksum payload).length = 4 := by
  rw [checksum, List.length_take, (Digest.of payload).length_toList]
  rfl

/-- Hexadecimal digits have one byte each. -/
theorem utf8Size_of_mem_digits {c : Char} {bs : Bytes} (h : c ∈ Hex.digits bs) :
    c.utf8Size = 1 := by
  obtain ⟨d, hd, rfl⟩ := Hex.exists_digit_of_mem h
  have hall : ∀ d : Fin 16, (Hex.digit d).utf8Size = 1 := by decide
  exact hall ⟨d, hd⟩

theorem utf8ByteSize_of_forall {cs : List Char} (h : ∀ c ∈ cs, c.utf8Size = 1) :
    (String.ofList cs).utf8ByteSize = cs.length := by
  induction cs with
  | nil => simp
  | cons c cs ih =>
    rw [List.forall_mem_cons] at h
    rw [utf8ByteSize_ofList_cons, h.1, ih h.2, List.length_cons, Nat.add_comm]

/-- Two bytes of the text for each byte of the checksum. -/
theorem utf8ByteSize_digits (bs : Bytes) :
    (String.ofList (Hex.digits bs)).utf8ByteSize = 2 * bs.length := by
  rw [utf8ByteSize_of_forall fun c => utf8Size_of_mem_digits, Hex.length_digits]

theorem toList_encode (label : String) (payload : Bytes) :
    (encode label payload).toList =
      label.toList ++ (Hex.digits (checksum payload) ++ Base58.encodeChars payload) := by
  rw [encode, String.toList_append, String.toList_append, Hex.toList_encode,
    Base58.toList_encode, List.append_assoc]

theorem decode_encode {n : Nat} (label : String) (buf : Fixed n) :
    decode n label (encode label buf.toList) = .ok buf := by
  have hrest := Label.behind?_eq_some_iff.mpr (toList_encode label buf.toList)
  have hsplit : splitUtf8? 8 (Hex.digits (checksum buf.toList) ++ Base58.encodeChars buf.toList) =
      some (Hex.digits (checksum buf.toList), Base58.encodeChars buf.toList) := by
    rw [splitUtf8?_eq_some_iff, utf8ByteSize_digits, length_checksum]
    exact ⟨rfl, rfl⟩
  simp only [decode, hrest, hsplit, Hex.decodeFrom_nil_eq_some_iff.mpr rfl,
    Base58.decodeChars?_eq_some_iff.mpr rfl, if_true, Fixed.ofList_toList]

/-- What is accepted is cut in three at fixed sizes, and each part is the one that would be
written. -/
theorem eq_encode_of_decode {n : Nat} {label text : String} {buf : Fixed n}
    (h : decode n label text = .ok buf) : text = encode label buf.toList := by
  unfold decode at h
  split at h
  · cases h
  · rename_i rest hrest
    split at h
    · cases h
    · rename_i digits spelling hsplit
      split at h
      · cases h
      · cases h
      · rename_i check payload hcheck hpayload
        split at h
        · rename_i hsum
          have hbuf : payload = buf.toList := by
            unfold Fixed.ofList at h
            split at h
            · rw [← Except.ok.inj h]
            · cases h
          -- the label, the digits and the payload are each determined by what was read from
          -- them
          rw [Label.behind?_eq_some_iff] at hrest
          rw [Hex.decodeFrom_nil_eq_some_iff] at hcheck
          rw [Base58.decodeChars?_eq_some_iff] at hpayload
          apply String.toList_inj.mp
          rw [hrest, (of_splitUtf8? hsplit).1, hcheck, hpayload, ← hsum, toList_encode, hbuf]
        · cases h

theorem decode_eq_ok_iff {n : Nat} {label text : String} {buf : Fixed n} :
    decode n label text = .ok buf ↔ text = encode label buf.toList := by
  constructor
  · exact eq_encode_of_decode
  · rintro rfl
    exact decode_encode label buf

/-! ## Reading by byte offsets -/

/-- The text in two at a byte offset; nothing if a character goes across the offset or the
text ends before it. -/
def cut? (text : String) (offset : Nat) : Option (String × String) :=
  if h : String.Pos.Raw.IsValid text ⟨offset⟩ then
    let place := text.pos ⟨offset⟩ h
    some ((text.sliceTo place).copy, (text.sliceFrom place).copy)
  else none

/-- The first bytes of a byte string; nothing if it is shorter. -/
def first? (count : Nat) (bs : Bytes) : Option Bytes :=
  if count ≤ bs.length then some (bs.take count) else none

/-- Reads a text as `decode` does, but counts bytes. The outer `none` is a cut where nothing
can be cut. -/
def decodeByOffset (n : Nat) (label text : String) : Option (Except Error (Fixed n)) :=
  match Label.behind? label.toList text.toList with
  | none => some (.error .invalidFormat)
  | some rest =>
    let rest := String.ofList rest
    if rest.utf8ByteSize < 8 ∨ ¬ String.Pos.Raw.IsValid rest ⟨8⟩ then
      some (.error .invalidFormat)
    else
      (cut? rest 8).bind fun (digits, spelling) =>
        match Hex.decode? digits, Base58.decode? spelling with
        | none, _ => some (.error .invalidHex)
        | some _, none => some (.error .invalidBase58)
        | some check, some payload =>
          (first? 4 (Digest.of payload).toList).map fun expected =>
            if expected = check then Fixed.ofList n payload else .error .invalidChecksum

/-- An offset is a place in the text exactly where the text can be split by characters. -/
theorem isValid_iff_splitUtf8? {cs : List Char} {size : Nat} :
    String.Pos.Raw.IsValid (String.ofList cs) ⟨size⟩ ↔
      ∃ front rest, splitUtf8? size cs = some (front, rest) := by
  simp only [String.Pos.Raw.isValid_iff_exists_append, splitUtf8?_eq_some_iff]
  constructor
  · rintro ⟨front, rest, htext, hsize⟩
    refine ⟨front.toList, rest.toList, ?_, ?_⟩
    · rw [← String.toList_append, ← htext, String.toList_ofList]
    · rw [String.ofList_toList]
      exact (congrArg String.Pos.Raw.byteIdx hsize).symm
  · rintro ⟨front, rest, rfl, rfl⟩
    exact ⟨String.ofList front, String.ofList rest, String.ofList_append, rfl⟩

/-- The cut is in range there, and comes to the same two parts. -/
theorem cut?_of_splitUtf8? {cs front rest : List Char} {size : Nat}
    (h : splitUtf8? size cs = some (front, rest)) :
    cut? (String.ofList cs) size = some (String.ofList front, String.ofList rest) := by
  have hvalid : String.Pos.Raw.IsValid (String.ofList cs) ⟨size⟩ :=
    isValid_iff_splitUtf8?.mpr ⟨front, rest, h⟩
  obtain ⟨rfl, rfl⟩ := of_splitUtf8? h
  have hparts : ((String.ofList (front ++ rest)).pos _ hvalid).Splits (String.ofList front)
      (String.ofList rest) := ⟨String.ofList_append, rfl⟩
  obtain ⟨hfront, hrest⟩ := (String.Pos.splits _).eq hparts
  rw [cut?, dif_pos hvalid]
  simp only [hfront, hrest]

theorem first?_digest (payload : Bytes) :
    first? 4 (Digest.of payload).toList = some (checksum payload) := by
  rw [first?, if_pos, checksum]
  rw [(Digest.of payload).length_toList]
  decide

/-- Byte offsets and splits come to the same, and no offset falls into a character or behind
the end, where the program would stop. -/
theorem decodeByOffset_eq (n : Nat) (label text : String) :
    decodeByOffset n label text = some (decode n label text) := by
  unfold decodeByOffset decode
  cases Label.behind? label.toList text.toList with
  | none => rfl
  | some rest =>
    dsimp only
    cases hsplit : splitUtf8? 8 rest with
    | none =>
      -- no split at eight bytes: the text is too short there, or the offset is inside of a
      -- character
      have hinvalid : ¬ String.Pos.Raw.IsValid (String.ofList rest) ⟨8⟩ := by
        rw [isValid_iff_splitUtf8?, hsplit]
        simp
      rw [if_pos (Or.inr hinvalid)]
    | some parts =>
      obtain ⟨digits, spelling⟩ := parts
      have hvalid : String.Pos.Raw.IsValid (String.ofList rest) ⟨8⟩ :=
        isValid_iff_splitUtf8?.mpr ⟨digits, spelling, hsplit⟩
      -- a split is a valid position, and no position is behind the end
      have hlong : ¬ (String.ofList rest).utf8ByteSize < 8 := by
        have hend : 8 ≤ (String.ofList rest).rawEndPos.byteIdx := hvalid.le_rawEndPos
        exact Nat.not_lt.mpr hend
      rw [if_neg (by simp [hlong, hvalid]), cut?_of_splitUtf8? hsplit]
      simp only [Option.bind_some, Hex.decode?, Base58.decode?, String.toList_ofList]
      cases Hex.decodeFrom [] digits with
      | none => rfl
      | some check =>
        cases Base58.decodeChars? spelling with
        | none => rfl
        | some payload =>
          dsimp only
          rw [first?_digest, Option.map_some]

/-- The byte behind which the text would be cut is inside of a character. -/
example : decodeByOffset 32 "ebxpkh" "ebxpkh1234567é2" = some (.error .invalidFormat) := by
  decide +kernel

/-! ## Values in labelled texts -/

/-- A value that is made of a payload is read from exactly the text of that payload. -/
theorem decode_bind_eq_ok_iff {α : Type} {n : Nat} {label text : String} {a : α}
    {make : Fixed n → Except Error α} {payload : α → Fixed n}
    (hmake : ∀ bytes, make bytes = .ok a ↔ bytes = payload a) :
    decode n label text >>= make = .ok a ↔ text = encode label (payload a).toList := by
  rw [← decode_eq_ok_iff]
  cases decode n label text with
  | error error => simp [bind, Except.bind]
  | ok bytes => simpa [bind, Except.bind] using hmake bytes

end Checked

namespace PrivateKey

theorem ofFixed_eq_ok_iff {bytes : Fixed 32} {key : PrivateKey} :
    ofFixed bytes = .ok key ↔ bytes = key.bytes := by
  unfold ofFixed
  constructor
  · intro h
    split at h
    · rw [← Except.ok.inj h]
    · cases h
  · rintro rfl
    rw [dif_pos key.valid]

theorem ofText_eq_ok_iff {text : String} {key : PrivateKey} :
    ofText text = .ok key ↔ text = key.toText :=
  Checked.decode_bind_eq_ok_iff fun _ => ofFixed_eq_ok_iff

end PrivateKey

namespace PublicKey

theorem ofFixed_eq_ok_iff {bytes : Fixed 33} {key : PublicKey} :
    ofFixed bytes = .ok key ↔ bytes = key.bytes := by
  unfold ofFixed
  constructor
  · intro h
    split at h
    · rw [← Except.ok.inj h]
    · cases h
  · rintro rfl
    rw [dif_pos key.onCurve]

theorem ofText_eq_ok_iff {text : String} {key : PublicKey} :
    ofText text = .ok key ↔ text = key.toText :=
  Checked.decode_bind_eq_ok_iff fun _ => ofFixed_eq_ok_iff

end PublicKey

/-- A hash can be any bytes of its width, so there is nothing else to check. -/
theorem KeyHash.ofText_eq_ok_iff {text : String} {hash : KeyHash} :
    KeyHash.ofText text = .ok hash ↔ text = hash.toText := by
  have hmake : ∀ bytes, (pure (KeyHash.mk bytes) : Except Error KeyHash) = .ok hash ↔
      bytes = hash.digest := by
    intro bytes
    obtain ⟨digest⟩ := hash
    simp [pure, Except.pure]
  rw [KeyHash.ofText, map_eq_pure_bind]
  exact Checked.decode_bind_eq_ok_iff hmake

namespace Checked

/-- **One spelling for each labelled text.** Under every label and for every length, a text
is read as a byte string exactly when it is the one that the byte string is written as. All
other texts come to an error, and so they do when bytes are counted and every cut is checked.
Hence a private key, a public key or a key hash is read from its own text and no other. -/
theorem labelled_text_has_one_spelling :
    (∀ (n : Nat) (label text : String),
      (∀ buf : Fixed n, decode n label text = .ok buf ↔ text = encode label buf.toList) ∧
        ((∃ error, decode n label text = .error error) ↔
          ∀ buf : Fixed n, text ≠ encode label buf.toList) ∧
        decodeByOffset n label text = some (decode n label text)) ∧
      (∀ text key, PrivateKey.ofText text = .ok key ↔ text = key.toText) ∧
      (∀ text key, PublicKey.ofText text = .ok key ↔ text = key.toText) ∧
      ∀ text hash, KeyHash.ofText text = .ok hash ↔ text = hash.toText := by
  refine ⟨fun n label text => ⟨fun buf => decode_eq_ok_iff, ?_, decodeByOffset_eq n label text⟩,
    fun _ _ => PrivateKey.ofText_eq_ok_iff, fun _ _ => PublicKey.ofText_eq_ok_iff,
    fun _ _ => KeyHash.ofText_eq_ok_iff⟩
  simp only [ne_eq, ← decode_eq_ok_iff]
  cases decode n label text with
  | error error => simp
  | ok buf => simp

end Checked

end UtxoLedger
