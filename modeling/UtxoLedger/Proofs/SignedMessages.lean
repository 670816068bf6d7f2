/-
UtxoLedger.Proofs.SignedMessages — a signature on a message is bound to its purpose.

The byte form has three parts of fixed length and the message behind them, so a message
is read from its encoding and from no other bytes (`SignedMessage.decode_eq_ok_iff`), and
of the bytes nothing is judged but the key (`SignedMessage.exists_encode_eq_iff`).

Who signs gets a valid message: every private key has a public key
(`PublicKey.exists_ofPrivate`), and that the signature verifies under it is what is
assumed of the signatures (`Ecdsa.correctAt_iff` says when). What is signed is the keyed
hash alone. So that it stands for one message and one purpose is a matter of two hash
functions, and where it stands for two, one of them has been broken
(`SignedMessage.eq_or_collision_of_macOf_eq`).
-/
import UtxoLedger.Message
import UtxoLedger.Proofs.Codec.Canonical
import UtxoLedger.Proofs.Curve.Signatures
import UtxoLedger.Proofs.Text.Checked

namespace UtxoLedger.SignedMessage

open Reader

/-! ## Bytes -/

theorem readParts_eq_ok_iff {bs rest : Bytes} {signature : Signature} {key : Fixed 33}
    {mac : Digest} : readParts bs = .ok ((signature, key, mac), rest) ↔
      bs = signature.toList ++ (key.toList ++ (mac.toList ++ rest)) := by
  constructor
  · intro h
    obtain ⟨signature', bs₁, hsignature, h₁⟩ := bind_eq_ok.mp h
    obtain ⟨key', bs₂, hkey, h₂⟩ := bind_eq_ok.mp h₁
    obtain ⟨mac', bs₃, hmac, h₃⟩ := bind_eq_ok.mp h₂
    obtain ⟨hparts, rfl⟩ := pure_eq_ok.mp h₃
    cases hparts
    obtain ⟨-, rfl⟩ := (canonical_fixed 64).recovers hsignature
    obtain ⟨-, rfl⟩ := (canonical_fixed 33).recovers hkey
    obtain ⟨-, rfl⟩ := (canonical_fixed 32).recovers hmac
    rfl
  · rintro rfl
    have hreads : Reads readParts (signature.toList ++ (key.toList ++ mac.toList))
        (signature, key, mac) :=
      (reads_fixed signature).bind <| (reads_fixed key).bind <|
        (reads_fixed mac).bind_pure (.pure _)
    have hread := hreads rest
    rwa [List.append_assoc, List.append_assoc] at hread

/-- A message is read from its own encoding and from no other bytes. -/
theorem decode_eq_ok_iff {bs : Bytes} {m : SignedMessage} : decode bs = .ok m ↔ m.encode = bs := by
  unfold decode
  constructor
  · intro h
    split at h
    · cases h
    · rename_i signature key mac message hparts
      split at h
      · rename_i publicKey hkey
        cases h
        rw [readParts_eq_ok_iff.mp hparts, PublicKey.ofFixed_eq_ok_iff.mp hkey]
        rfl
      · cases h
  · rintro rfl
    have hparts : readParts m.encode =
        .ok ((m.signature, m.publicKey.bytes, m.mac), m.message) := readParts_eq_ok_iff.mpr rfl
    rw [hparts]
    dsimp only
    rw [PublicKey.ofFixed_eq_ok_iff.mpr rfl]

/-- The bytes that are the encoding of a message. -/
theorem exists_encode_eq_iff {bs : Bytes} : (∃ m : SignedMessage, m.encode = bs) ↔
    129 ≤ bs.length ∧ ∃ key : PublicKey, key.bytes.toList = (bs.drop 64).take 33 := by
  constructor
  · rintro ⟨m, rfl⟩
    have hsignature : m.signature.toList.length = 64 := m.signature.length_toList
    have hkey : m.publicKey.bytes.toList.length = 33 := m.publicKey.bytes.length_toList
    have hmac : m.mac.toList.length = 32 := m.mac.length_toList
    refine ⟨?_, m.publicKey, ?_⟩
    · simp only [encode, List.length_append]
      omega
    · rw [encode, List.drop_left' hsignature, List.take_left' hkey]
  · rintro ⟨hlength, key, hkey⟩
    let signature : Signature := ⟨bs.take 64, by rw [List.length_take]; omega⟩
    let mac : Digest := ⟨(bs.drop 97).take 32, by rw [List.length_take, List.length_drop]; omega⟩
    refine ⟨⟨signature, key, mac, bs.drop 129⟩, ?_⟩
    show bs.take 64 ++ (key.bytes.toList ++ ((bs.drop 97).take 32 ++ bs.drop 129)) = bs
    have hmac := List.take_append_drop 32 (bs.drop 97)
    have hrest := List.take_append_drop 33 (bs.drop 64)
    rw [List.drop_drop] at hmac hrest
    rw [hmac, hkey, hrest, List.take_append_drop]

/-! ## Signatures -/

/-- Who signs gets a signed message, and a valid one if the signature verifies. -/
theorem exists_sign (key : PrivateKey) (message : Bytes) (purpose : String) :
    ∃ m, sign key message purpose = .ok m ∧ m.message = message ∧
      (Ecdsa.CorrectAt key (macOf purpose message) → m.isValid purpose = true) := by
  obtain ⟨publicKey, hpublic, -⟩ := PublicKey.exists_ofPrivate key
  let mac := macOf purpose message
  refine ⟨⟨key.sign mac, publicKey, mac, message⟩, ?_, rfl, fun hcorrect => ?_⟩
  · delta sign
    dsimp only
    rw [hpublic]
  · rw [isValid, beq_self_eq_true, Bool.true_and]
    exact hcorrect publicKey hpublic

/-! ## Purposes -/

/-- The key under which a purpose hashes messages. -/
def purposeKey (purpose : String) : Digest := .of purpose.toUTF8.data.toList

/-- Two keys and messages that differ and have the same keyed hash. -/
def MacCollision (a b : Digest × Bytes) : Prop := a ≠ b ∧ Digest.mac a.1 a.2 = Digest.mac b.1 b.2

theorem macOf_eq_of_isValid {m : SignedMessage} {purpose : String}
    (h : m.isValid purpose = true) : macOf purpose m.message = m.mac := by
  rw [isValid, Bool.and_eq_true, beq_iff_eq] at h
  exact h.1

/-- What is signed stands for one message and one purpose, unless a hash function fails. -/
theorem eq_or_collision_of_macOf_eq {p₁ p₂ : String} {message₁ message₂ : Bytes}
    (h : macOf p₁ message₁ = macOf p₂ message₂) :
    (message₁ = message₂ ∧ p₁ = p₂) ∨
      MacCollision (purposeKey p₁, message₁) (purposeKey p₂, message₂) ∨
      (p₁ ≠ p₂ ∧ purposeKey p₁ = purposeKey p₂) := by
  by_cases hinputs : (purposeKey p₁, message₁) = (purposeKey p₂, message₂)
  · obtain ⟨hkey, hmessage⟩ := Prod.mk.inj hinputs
    by_cases hpurpose : p₁ = p₂
    · exact .inl ⟨hmessage, hpurpose⟩
    · exact .inr (.inr ⟨hpurpose, hkey⟩)
  · exact .inr (.inl ⟨hinputs, h⟩)

/-- **A signed message is bound to its purpose.** With any private key any message can be
signed for any purpose. What comes out is read back from its bytes, and is valid for the
purpose if signatures verify under the key they are made with. Bytes are read as a signed
message exactly if the three parts of fixed length are there and the key is one, and are then
its encoding. Two messages with the same keyed hash, each valid for a purpose, are the same
message for the same purpose; else the keyed hash or the hash of the purposes has a collision
at what it was applied to. -/
theorem binds_message_to_purpose :
    (∀ (key : PrivateKey) (message : Bytes) (purpose : String),
      ∃ m, sign key message purpose = .ok m ∧ m.message = message ∧ decode m.encode = .ok m ∧
        (Ecdsa.CorrectAt key (macOf purpose message) → m.isValid purpose = true)) ∧
    (∀ bs : Bytes, ((∃ m, decode bs = .ok m) ↔
        129 ≤ bs.length ∧ ∃ key : PublicKey, key.bytes.toList = (bs.drop 64).take 33) ∧
      ∀ m, decode bs = .ok m → m.encode = bs) ∧
    (∀ (m₁ m₂ : SignedMessage) (p₁ p₂ : String), m₁.mac = m₂.mac →
      m₁.isValid p₁ = true → m₂.isValid p₂ = true →
      (m₁.message = m₂.message ∧ p₁ = p₂) ∨
        MacCollision (purposeKey p₁, m₁.message) (purposeKey p₂, m₂.message) ∨
        (p₁ ≠ p₂ ∧ purposeKey p₁ = purposeKey p₂)) := by
  refine ⟨fun key message purpose => ?_, fun bs => ⟨?_, fun m => decode_eq_ok_iff.mp⟩,
    fun m₁ m₂ p₁ p₂ hmac h₁ h₂ => eq_or_collision_of_macOf_eq ?_⟩
  · obtain ⟨m, hsign, hmessage, hvalid⟩ := exists_sign key message purpose
    exact ⟨m, hsign, hmessage, decode_eq_ok_iff.mpr rfl, hvalid⟩
  · rw [← exists_encode_eq_iff]
    exact exists_congr fun _ => decode_eq_ok_iff
  · rw [macOf_eq_of_isValid h₁, macOf_eq_of_isValid h₂, hmac]

open KeyPairSample in
theorem binds_message_to_purpose_sample :
    Ecdsa.CorrectAt first.privateKey (macOf "pay" [1, 2]) ∧
      ∃ m, sign first.privateKey [1, 2] "pay" = .ok m ∧ decode m.encode = .ok m ∧
        129 ≤ m.encode.length ∧ m.isValid "pay" = true ∧ m.isValid "play" = false := by
  obtain ⟨hsign, hdecode, hbinds⟩ := binds_message_to_purpose
  have hcorrect : Ecdsa.CorrectAt first.privateKey (macOf "pay" [1, 2]) :=
    Ecdsa.correctAt_iff.mpr (by decide +kernel)
  obtain ⟨m, hm, hmessage, hread, hvalid⟩ := hsign first.privateKey [1, 2] "pay"
  have hlength := ((hdecode m.encode).1.mp ⟨m, hread⟩).1
  refine ⟨hcorrect, m, hm, hread, hlength, hvalid hcorrect, ?_⟩
  rw [← Bool.not_eq_true]
  intro hplay
  rcases hbinds m m "pay" "play" rfl (hvalid hcorrect) hplay with
    ⟨-, hsame⟩ | ⟨-, hsame⟩ | ⟨-, hsame⟩
  · exact absurd hsame (by decide)
  · rw [hmessage] at hsame
    exact absurd hsame (by decide +kernel)
  · exact absurd hsame (by decide +kernel)

end UtxoLedger.SignedMessage
