/-
UtxoLedger.Proofs.KeyPairs — key pairs whose halves belong together, and the rings
that hold them.

That a signature verifies under the public key of its signer is a fact about the
curve, and about a search for a nonce that ends in time. It is assumed where it is
needed, and for no more than it is needed: `Ecdsa.CorrectAt` speaks of one private
key and of one digest. For any two of these it can be evaluated. The fact about the
curve is proved in `UtxoLedger.Proofs.Curve.Signatures`, which leaves the search.
-/
import UtxoLedger.Wallet.KeyRing

namespace UtxoLedger

/-! ## Pairs -/

/-- The public half is the one that is derived from the private half. -/
def KeyPair.IsDerived (pair : KeyPair) : Prop := KeyPair.ofPrivate pair.privateKey = .ok pair

theorem KeyPair.IsDerived.ofPrivate_eq {pair : KeyPair} (h : pair.IsDerived) :
    PublicKey.ofPrivate pair.privateKey = .ok pair.publicKey := by
  unfold IsDerived ofPrivate at h
  cases hpublic : PublicKey.ofPrivate pair.privateKey with
  | error error =>
    rw [hpublic] at h
    cases h
  | ok key =>
    rw [hpublic] at h
    rw [← Except.ok.inj h]

instance (pair : KeyPair) : Decidable pair.IsDerived :=
  match h : KeyPair.ofPrivate pair.privateKey with
  | .ok derived => decidable_of_iff (derived = pair) (by rw [KeyPair.IsDerived, h, Except.ok.injEq])
  | .error _ => .isFalse (by rw [KeyPair.IsDerived, h]; exact nofun)

/-- The signature of the digest by the key verifies under the public key that is
derived from it. -/
def Ecdsa.CorrectAt (key : PrivateKey) (digest : Digest) : Prop :=
  ∀ derived, PublicKey.ofPrivate key = .ok derived →
    derived.verify digest (key.sign digest) = true

instance (key : PrivateKey) (digest : Digest) : Decidable (Ecdsa.CorrectAt key digest) :=
  match h : PublicKey.ofPrivate key with
  | .ok derived =>
    if hverify : derived.verify digest (key.sign digest) = true then
      .isTrue fun _ h' => Except.ok.inj (h.symm.trans h') ▸ hverify
    else .isFalse fun hcorrect => hverify (hcorrect derived h)
  | .error _ => .isTrue fun _ h' => nomatch h.symm.trans h'

/-- The one thing taken from the curve is that this key's signature of this digest is
correct. -/
theorem KeyPair.IsDerived.verify {pair : KeyPair} {digest : Digest} (h : pair.IsDerived)
    (hcorrect : Ecdsa.CorrectAt pair.privateKey digest) :
    pair.publicKey.verify digest (pair.privateKey.sign digest) = true :=
  hcorrect pair.publicKey h.ofPrivate_eq

/-! ### Two pairs

The keys of the scalars 1 and 2. -/

namespace KeyPairSample

def firstBytes : Fixed 33 :=
  .ofNat 33 0x0279be667ef9dcbbac55a06295ce870b07029bfcdb2dce28d959f2815b16f81798

def secondBytes : Fixed 33 :=
  .ofNat 33 0x02c6047f9441ed7d6d3045406e95c07cd85c778e4b8cef3ca7abac09b95c709ee5

def first : KeyPair := ⟨⟨.ofNat 32 1, by decide +kernel⟩, ⟨firstBytes, by decide +kernel⟩⟩

def second : KeyPair := ⟨⟨.ofNat 32 2, by decide +kernel⟩, ⟨secondBytes, by decide +kernel⟩⟩

theorem isDerived : ∀ pair ∈ [first, second], pair.IsDerived := by decide +kernel

end KeyPairSample

/-! ## Rings -/

namespace KeyRing

/-- The rings that the operations make. -/
inductive Built : KeyRing → Prop
  | empty : Built .empty
  | insert {ring : KeyRing} (pair : KeyPair) (h : Built ring) : Built (ring.insert pair)
  | erase {ring : KeyRing} (hash : KeyHash) (h : Built ring) : Built (ring.erase hash)

theorem find?_empty (hash : KeyHash) : empty.find? hash = none :=
  Std.TreeMap.getElem?_emptyc

/-- A pair takes the place of the one with its hash, if there is one. -/
theorem find?_insert (ring : KeyRing) (pair : KeyPair) (hash : KeyHash) :
    (ring.insert pair).find? hash = if pair.hash = hash then some pair else ring.find? hash := by
  unfold insert find?
  rw [Std.TreeMap.getElem?_insert]
  simp only [Std.LawfulEqCmp.compare_eq_iff_eq]

theorem find?_erase (ring : KeyRing) (erased hash : KeyHash) :
    (ring.erase erased).find? hash = if erased = hash then none else ring.find? hash := by
  unfold erase find?
  rw [Std.TreeMap.getElem?_erase]
  simp only [Std.LawfulEqCmp.compare_eq_iff_eq]

/-- What a ring finds has the hash that was asked for. -/
theorem Built.hash_eq {ring : KeyRing} (h : ring.Built) {hash : KeyHash} {pair : KeyPair}
    (hfind : ring.find? hash = some pair) : pair.hash = hash := by
  induction h with
  | empty =>
    rw [find?_empty] at hfind
    cases hfind
  | insert filed _ ih =>
    rw [find?_insert] at hfind
    split at hfind
    · rename_i hhash
      rwa [← Option.some.inj hfind]
    · exact ih hfind
  | erase erased _ ih =>
    rw [find?_erase] at hfind
    split at hfind
    · cases hfind
    · exact ih hfind

/-- The ring into which the pairs are put one after another. -/
def ofPairs (pairs : List KeyPair) : KeyRing := pairs.foldl insert empty

/-- A ring that is filled pair by pair is one that the operations make. -/
theorem built_ofPairs (pairs : List KeyPair) : (ofPairs pairs).Built :=
  List.foldlRecOn pairs insert Built.empty fun _ hring pair _ => hring.insert pair

/-- A ring finds nothing but what was put into it. -/
theorem mem_of_find?_ofPairs {pairs : List KeyPair} {hash : KeyHash} {pair : KeyPair}
    (h : (ofPairs pairs).find? hash = some pair) : pair ∈ pairs := by
  let FilledFrom (ring : KeyRing) : Prop :=
    ∀ hash pair, ring.find? hash = some pair → pair ∈ pairs
  have hempty : FilledFrom empty := by
    intro hash pair hfind
    rw [find?_empty] at hfind
    cases hfind
  have hinsert (ring : KeyRing) (hring : FilledFrom ring) (filed : KeyPair)
      (hmem : filed ∈ pairs) : FilledFrom (ring.insert filed) := by
    intro hash pair hfind
    rw [find?_insert] at hfind
    split at hfind
    · rwa [← Option.some.inj hfind]
    · exact hring hash pair hfind
  have hfilled : FilledFrom (ofPairs pairs) := List.foldlRecOn pairs insert hempty hinsert
  exact hfilled hash pair h

end KeyRing

end UtxoLedger
