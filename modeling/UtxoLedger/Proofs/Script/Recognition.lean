/-
UtxoLedger.Proofs.Script.Recognition — the recognisers accept what the constructors build.

A recogniser looks at opcodes and at the lengths of pushed data. That is enough, because a
chunk is determined by either: an opcode without data is one chunk (`Chunk.isOp_iff`), a push
of so many bytes is a byte string of fixed length (`Chunk.pushes_iff`), and a number from 0 to
16 is pushed by one opcode in one way (`Chunk.smallNat?_eq_some_iff`). So each recogniser is
answered by the chunks it was asked about, written out. The keys in a script that asks for
several signatures stand between two numbers at known ends of the list, and `lastTwo?` splits
it there.
-/
import Mathlib.Data.Set.List
import UtxoLedger.Proofs.KeyPairs
import UtxoLedger.Proofs.Script.Templates

namespace UtxoLedger

/-! ## Chunks -/

namespace Chunk

/-- Pushes a byte string of fixed length. -/
def ofFixed {n : Nat} (bs : Fixed n) (h : 0 < n ∧ n < 4294967296) : Chunk :=
  .push bs.toList (bs.pushable h)

/-- A push of the width is the push of some bytes of that width. -/
theorem pushes_iff {chunk : Chunk} {n : Nat} (h : 0 < n ∧ n < 4294967296) :
    chunk.pushes n = true ↔ ∃ bs : Fixed n, ofFixed bs h = chunk := by
  constructor
  · intro hpushes
    cases chunk with
    | push data pushable => exact ⟨⟨data, beq_iff_eq.mp hpushes⟩, rfl⟩
    | op _ _ | unknown _ _ => cases hpushes
  · rintro ⟨bs, rfl⟩
    exact beq_iff_eq.mpr bs.length_toList

/-- Chunks that all push so many bytes. -/
theorem all_pushes_iff {chunks : List Chunk} {n : Nat} (h : 0 < n ∧ n < 4294967296) :
    chunks.all (·.pushes n) = true ↔
      ∃ items : List (Fixed n), items.map (ofFixed · h) = chunks := by
  have hrange := congrArg (chunks ∈ ·) (Set.range_list_map fun bs : Fixed n => ofFixed bs h)
  simp only [Set.mem_range, Set.mem_ofPred_eq, eq_iff_iff] at hrange
  rw [hrange, List.all_eq_true]
  exact forall₂_congr fun _ _ => pushes_iff h

theorem smallNat?_smallNat {n : Nat} (h : n ≤ 16) : (smallNat n h).smallNat? = some n := by
  unfold smallNat
  split
  · rename_i hzero
    rw [hzero]
    rfl
  · show some (n - 1 + 1) = some n
    rw [Nat.sub_add_cancel (by omega)]

/-- No other chunk stands for a small number. -/
theorem smallNat?_eq_some_iff {chunk : Chunk} {n : Nat} :
    chunk.smallNat? = some n ↔ ∃ h, chunk = smallNat n h := by
  constructor
  · intro hsmall
    cases chunk with
    | op code _ =>
      cases code with
      | zero =>
        cases hsmall
        exact ⟨by decide, rfl⟩
      | small index =>
        cases hsmall
        exact ⟨index.isLt, rfl⟩
      | _ => cases hsmall
    | unknown _ _ | push _ _ => cases hsmall
  · rintro ⟨h, rfl⟩
    exact smallNat?_smallNat h

end Chunk

namespace Script

/-! ## A key hash -/

/-- The signature and the key are recognized by their widths alone. -/
theorem isUnlockKeyHash_iff (script : Script) :
    script.isUnlockKeyHash = true ↔ ∃ (sig : Fixed 65) (key : Fixed 33),
      script.chunks = [.ofFixed sig (by decide), .ofFixed key (by decide)] := by
  unfold isUnlockKeyHash
  constructor
  · intro h
    split at h
    · rename_i sig key hchunks
      rw [Bool.and_eq_true] at h
      obtain ⟨sig, rfl⟩ := (Chunk.pushes_iff (by decide)).mp h.1
      obtain ⟨key, rfl⟩ := (Chunk.pushes_iff (by decide)).mp h.2
      exact ⟨sig, key, hchunks⟩
    · cases h
  · rintro ⟨sig, key, hchunks⟩
    rw [hchunks]
    dsimp only
    rw [Bool.and_eq_true]
    exact ⟨(Chunk.pushes_iff (by decide)).mpr ⟨sig, rfl⟩,
      (Chunk.pushes_iff (by decide)).mpr ⟨key, rfl⟩⟩

/-! ## m of n keys -/

theorem lastTwo?_eq_some_iff {α : Type} {xs front : List α} {second last : α} :
    lastTwo? xs = some (front, second, last) ↔ xs = front ++ [second, last] := by
  unfold lastTwo?
  constructor
  · intro h
    split at h
    · rename_i hreverse
      cases h
      rw [← List.reverse_reverse xs, hreverse]
      simp
    · cases h
  · rintro rfl
    simp

/-- Pushes of byte strings that have the length of keys. -/
def keyPushes (keys : List (Fixed 33)) : List Chunk := keys.map (Chunk.ofFixed · (by decide))

/-- The list of keys is what lies between the first chunk and the last two. -/
theorem isPayToKeys_iff (script : Script) :
    script.isPayToKeys = true ↔ ∃ (m n : Nat) (hmn : m ≤ n) (hn : n ≤ 16) (keys : List (Fixed 33)),
      keys.length = n ∧ script.chunks = .smallNat m (hmn.trans hn) ::
        (keyPushes keys ++ [.smallNat n hn, .op .checkMultiSig rfl]) := by
  constructor
  · intro h
    unfold isPayToKeys at h
    split at h
    · cases h
    · rename_i first others hchunks
      split at h
      · cases h
      · rename_i keys count check hlast
        split at h
        · rename_i m n hm hn
          simp only [Bool.and_eq_true, decide_eq_true_eq, beq_iff_eq] at h
          -- each test of the recognizer gives one part of the form
          obtain ⟨⟨⟨hcheck, hmn⟩, hlength⟩, hkeys⟩ := h
          obtain ⟨_, rfl⟩ := Chunk.smallNat?_eq_some_iff.mp hm
          obtain ⟨hle, rfl⟩ := Chunk.smallNat?_eq_some_iff.mp hn
          obtain ⟨items, rfl⟩ := (Chunk.all_pushes_iff (by decide)).mp hkeys
          rw [Chunk.isOp_iff rfl] at hcheck
          rw [lastTwo?_eq_some_iff, hcheck] at hlast
          rw [List.length_map] at hlength
          exact ⟨m, n, hmn, hle, items, hlength, hchunks.trans (congrArg _ hlast)⟩
        · cases h
  · rintro ⟨m, n, hmn, hn, keys, hlength, hchunks⟩
    unfold isPayToKeys
    rw [hchunks]
    dsimp only
    rw [lastTwo?_eq_some_iff.mpr rfl]
    dsimp only
    rw [Chunk.smallNat?_smallNat, Chunk.smallNat?_smallNat]
    simp only [Bool.and_eq_true, decide_eq_true_eq, beq_iff_eq, keyPushes, List.length_map]
    exact ⟨⟨⟨(Chunk.isOp_iff rfl).mpr rfl, hmn⟩, hlength⟩,
      (Chunk.all_pushes_iff (by decide)).mpr ⟨keys, rfl⟩⟩

/-- What is built for keys on the curve is built for their bytes. -/
theorem payToKeys_eq_ok_iff {m : Nat} {keys : List PublicKey} {script : Script} :
    payToKeys m keys = .ok script ↔ ∃ (hmn : m ≤ keys.length) (hn : keys.length ≤ 16),
      script = ⟨.smallNat m (hmn.trans hn) ::
        (keyPushes (keys.map PublicKey.bytes) ++
          [.smallNat keys.length hn, .op .checkMultiSig rfl])⟩ := by
  have hpushes : keys.map Chunk.ofKey = keyPushes (keys.map PublicKey.bytes) := by
    rw [keyPushes, List.map_map]
    rfl
  unfold payToKeys
  split
  · rename_i hn
    split
    · rename_i hmn
      rw [hpushes, List.cons_append, Except.ok.injEq, eq_comm]
      constructor
      · intro h
        exact ⟨hmn, hn, h⟩
      · rintro ⟨_, _, h⟩
        exact h
    · rename_i hmn
      constructor
      · intro h
        cases h
      · rintro ⟨hle, -, -⟩
        exact absurd hle hmn
  · rename_i hn
    constructor
    · intro h
      cases h
    · rintro ⟨-, hle, -⟩
      exact absurd hle hn

/-- There are opcodes for numbers up to 16, and no more. -/
theorem exists_payToKeys_iff (m : Nat) (keys : List PublicKey) :
    (∃ script, payToKeys m keys = .ok script) ↔ m ≤ keys.length ∧ keys.length ≤ 16 := by
  constructor
  · rintro ⟨script, h⟩
    obtain ⟨hmn, hn, -⟩ := payToKeys_eq_ok_iff.mp h
    exact ⟨hmn, hn⟩
  · rintro ⟨hmn, hn⟩
    exact ⟨_, payToKeys_eq_ok_iff.mpr ⟨hmn, hn, rfl⟩⟩

theorem isPayToKeys_of_payToKeys {m : Nat} {keys : List PublicKey} {script : Script}
    (h : payToKeys m keys = .ok script) : script.isPayToKeys = true := by
  obtain ⟨hmn, hn, rfl⟩ := payToKeys_eq_ok_iff.mp h
  exact (isPayToKeys_iff _).mpr ⟨m, _, hmn, hn, _, List.length_map _, rfl⟩

/-! ## All forms -/

theorem isPayToKeys_payToKeyHash (hash : KeyHash) : (payToKeyHash hash).isPayToKeys = false := rfl

/-- The recognizer is true of the scripts of the template and of no others. -/
theorem isPayToKeyHash_iff (script : Script) :
    script.isPayToKeyHash = true ↔ ∃ hash, script = payToKeyHash hash := by
  rw [isPayToKeyHash, Option.isSome_iff_exists]
  exact exists_congr fun hash => script.keyHash?_eq_some_iff hash

/-- **The recognisers accept what the constructors build.** A key hash is found in the script
that is paid to it and in no other, so a signature commits to the bytes of that script. What
unlocks a key hash is a push of 65 bytes and one of 33. A script asks for `m` of `n` keys if it
is written as such a script, with any 33 bytes as keys; it can be built exactly if there are
enough keys and at most 16, and is then recognised. No script is of both forms. -/
theorem templates_are_recognised_exactly (script : Script) :
    (∀ hash, script.keyHash? = some hash ↔ script = payToKeyHash hash) ∧
    (∀ hash tx index value, script.keyHash? = some hash →
      (Setting.mk script tx index value).spend = ⟨index, (payToKeyHash hash).encode, value⟩) ∧
    (script.isUnlockKeyHash = true ↔ ∃ (sig : Fixed 65) (key : Fixed 33),
      script.chunks = [.ofFixed sig (by decide), .ofFixed key (by decide)]) ∧
    (script.isPayToKeys = true ↔
      ∃ (m n : Nat) (hmn : m ≤ n) (hn : n ≤ 16) (keys : List (Fixed 33)),
        keys.length = n ∧ script.chunks = .smallNat m (hmn.trans hn) ::
          (keyPushes keys ++ [.smallNat n hn, .op .checkMultiSig rfl])) ∧
    (∀ m keys, ((∃ built, payToKeys m keys = .ok built) ↔ m ≤ keys.length ∧ keys.length ≤ 16) ∧
      ∀ built, payToKeys m keys = .ok built → built.isPayToKeys = true) ∧
    ¬ (script.isPayToKeyHash = true ∧ script.isPayToKeys = true) := by
  refine ⟨script.keyHash?_eq_some_iff, fun hash tx index value h => ?_,
    script.isUnlockKeyHash_iff, script.isPayToKeys_iff,
    fun m keys => ⟨exists_payToKeys_iff m keys, fun _ => isPayToKeys_of_payToKeys⟩, ?_⟩
  · rw [(script.keyHash?_eq_some_iff hash).mp h]
    rfl
  · rintro ⟨hhash, hkeys⟩
    obtain ⟨hash, rfl⟩ := script.isPayToKeyHash_iff.mp hhash
    rw [isPayToKeys_payToKeyHash] at hkeys
    cases hkeys

/-! ### One script of each form -/

namespace RecognitionSample

def hash : KeyHash := ⟨.replicate 32 7⟩

def keys : List PublicKey := [KeyPairSample.first.publicKey, KeyPairSample.second.publicKey]

end RecognitionSample

open RecognitionSample in
theorem templates_are_recognised_exactly_sample :
    (payToKeyHash hash).keyHash? = some hash ∧
      (Setting.mk (payToKeyHash hash) ⟨0, [], [], 0⟩ 3 5).spend =
        ⟨3, (payToKeyHash hash).encode, 5⟩ ∧
      ∃ built, payToKeys 1 keys = .ok built ∧ built.isPayToKeys = true := by
  obtain ⟨hfound, hspend, -, -, hbuilt, -⟩ := templates_are_recognised_exactly (payToKeyHash hash)
  have hhash := (hfound hash).mpr rfl
  obtain ⟨hiff, hrecognised⟩ := hbuilt 1 keys
  obtain ⟨built, hok⟩ := hiff.mpr (by decide)
  exact ⟨hhash, hspend hash ⟨0, [], [], 0⟩ 3 5 hhash, built, hok, hrecognised built hok⟩

end Script

end UtxoLedger
