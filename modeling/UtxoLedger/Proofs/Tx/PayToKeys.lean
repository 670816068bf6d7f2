/-
UtxoLedger.Proofs.Tx.PayToKeys — an output paid to m of n keys is spent by m of them.

The script of such an output pushes a number, the keys and another number, and leaves
the rest to one opcode. The input's script pushes signatures below that. So the stack
is what `UtxoLedger.Proofs.Script.MultiSig` speaks of, and the answer for the input is
that of the opcode:

* `ends_payToKeys_of_few`: with too few signatures it finds the stack too short.
* `ends_payToKeys`: otherwise it raises no error and says whether each signature found
  a key.

The positions of the signers are an assignment (`SignedAt.matched`), so the second one
says yes for their signatures, in whatever order these are pushed.
-/
import UtxoLedger.Proofs.KeyPairs
import UtxoLedger.Proofs.Script.MultiSig
import UtxoLedger.Proofs.Script.Templates
import UtxoLedger.Proofs.Tx.PayToKeyHash

namespace UtxoLedger

/-! ## Pushes in front of other chunks -/

namespace Machine.Holds

variable {m : Machine} {s : Stack} {cache : SighashCache} (env : Setting)

theorem pushed {chunk : Chunk} {item : Bytes} (rest : List Chunk) (h : m.Holds s cache)
    (hitem : chunk.pushed? = some item) :
    ∃ m' : Machine, m'.Holds (item :: s) cache ∧
      runFrom env (chunk :: rest) m = runFrom env rest m' := by
  have hon : m.isExecuting = true := by
    rw [isExecuting, h.conditions_eq]
    rfl
  refine ⟨{ m.push item with position := m.position + 1 }, ?_, ?_⟩
  · exact ⟨congrArg (item :: ·) h.stack_eq, h.cache_eq, h.conditions_eq⟩
  · rw [runFrom, visit_of_pushed hon hitem]
    rfl

/-- One push after another. -/
theorem pushes (rest : List Chunk) : ∀ {front : List Chunk} {m : Machine} {s : Stack},
    m.Holds s cache → (∀ chunk ∈ front, chunk.pushed?.isSome = true) →
      ∃ m' : Machine, m'.Holds ((front.filterMap Chunk.pushed?).reverse ++ s) cache ∧
        runFrom env (front ++ rest) m = runFrom env rest m'
  | [], m, _, h, _ => ⟨m, h, rfl⟩
  | chunk :: front, m, s, h, hpush => by
      rw [List.forall_mem_cons] at hpush
      obtain ⟨item, hitem⟩ := Option.isSome_iff_exists.mp hpush.1
      obtain ⟨m₁, h₁, hrun₁⟩ := h.pushed env (front ++ rest) hitem
      obtain ⟨m', h', hrun'⟩ := pushes rest h₁ hpush.2
      refine ⟨m', ?_, hrun₁.trans hrun'⟩
      rw [List.filterMap_cons_some hitem, List.reverse_cons, List.append_assoc]
      exact h'

end Machine.Holds

/-! ## The run -/

/-- The keys as items. -/
def keyItems (keys : List PublicKey) : List Bytes := keys.map fun key => key.bytes.toList

theorem length_keyItems (keys : List PublicKey) : (keyItems keys).length = keys.length :=
  List.length_map _

theorem length_of_mem_keyItems {keys : List PublicKey} :
    ∀ item ∈ keyItems keys, item.length = 33 := by
  intro item hmem
  obtain ⟨key, -, rfl⟩ := List.mem_map.mp hmem
  exact key.length_bytes

theorem Script.payToKeys_eq_ok {required : Nat} {keys : List PublicKey}
    (hrequired : required ≤ keys.length) (hcount : keys.length ≤ maxKeys) :
    ∃ noData, payToKeys required keys = .ok
      ⟨.smallNat required (Nat.le_trans hrequired hcount) :: keys.map Chunk.ofKey ++
        [.smallNat keys.length hcount, .op .checkMultiSig noData]⟩ := by
  refine ⟨rfl, ?_⟩
  rw [payToKeys, dif_pos hcount, dif_pos hrequired]

variable (env : Setting) {m : Machine} {s : Stack} {cache : SighashCache} {required : Nat}
  {keys : List PublicKey} {script : Script}

/-- Up to its opcode the script has pushed the keys between the two numbers. -/
theorem runFrom_payToKeys (hrequired : required ≤ keys.length)
    (hcount : keys.length ≤ Script.maxKeys)
    (hscript : Script.payToKeys required keys = .ok script) (h : m.Holds s cache) :
    ∃ (m' : Machine) (sigCount keyCount : Bytes) (noData : _),
      Number.decode sigCount = required ∧ Number.decode keyCount = (keyItems keys).length ∧
      m'.Holds (keyCount :: ((keyItems keys).reverse ++ sigCount :: s)) cache ∧
      runFrom env script.chunks m = runFrom env [.op .checkMultiSig noData] m' := by
  obtain ⟨noData, hok⟩ := Script.payToKeys_eq_ok hrequired hcount
  obtain rfl := Except.ok.inj (hscript.symm.trans hok)
  obtain ⟨sigCount, hsigPushed, hsigCount⟩ :=
    Chunk.pushed?_smallNat (Nat.le_trans hrequired hcount)
  obtain ⟨keyCount, hkeyPushed, hkeyCount⟩ := Chunk.pushed?_smallNat hcount
  have hkeys : (keys.map Chunk.ofKey).filterMap Chunk.pushed? = keyItems keys := by
    rw [List.filterMap_map, keyItems, ← List.filterMap_eq_map]
    rfl
  have hfront : ∀ chunk ∈ keys.map Chunk.ofKey, chunk.pushed?.isSome = true := by
    simp [Chunk.ofKey, Chunk.pushed?]
  obtain ⟨m₁, h₁, hrun₁⟩ := h.pushed env (keys.map Chunk.ofKey ++
    [.smallNat keys.length hcount, .op .checkMultiSig noData]) hsigPushed
  obtain ⟨m₂, h₂, hrun₂⟩ := h₁.pushes env [.smallNat keys.length hcount, .op .checkMultiSig noData]
    hfront
  obtain ⟨m₃, h₃, hrun₃⟩ := h₂.pushed env [.op .checkMultiSig noData] hkeyPushed
  rw [hkeys] at h₃
  refine ⟨m₃, sigCount, keyCount, noData, hsigCount, ?_, h₃, ?_⟩
  · rw [hkeyCount, length_keyItems]
  · rw [← hrun₃, ← hrun₂, ← hrun₁]
    rfl

/-- Too few items below the numbers. -/
theorem ends_payToKeys_of_few (hrequired : required ≤ keys.length)
    (hcount : keys.length ≤ Script.maxKeys) (hscript : Script.payToKeys required keys = .ok script)
    (h : m.Holds s cache) (hfew : s.length < required) :
    Ends (runFrom env script.chunks m) (.error .invalidStackOperation) := by
  obtain ⟨m', sigCount, keyCount, noData, hsigCount, hkeyCount, h', hrun⟩ :=
    runFrom_payToKeys env hrequired hcount hscript h
  have hle : required ≤ (keyItems keys).length := by rwa [length_keyItems]
  have hle' : (keyItems keys).length ≤ 16 := by rwa [length_keyItems]
  have htally := h'.tally (.op .checkMultiSig noData)
  have hcheck := Machine.checkMultiSig_of_counts env false htally.stack_eq hkeyCount hsigCount
    hle hle' length_of_mem_keyItems
  have hstep : (m'.tally (.op .checkMultiSig noData)).step env (.op .checkMultiSig noData) =
      .fail .invalidStackOperation { m'.tally (.op .checkMultiSig noData) with stack := s } := by
    rw [if_pos hfew] at hcheck
    exact hcheck
  rw [hrun, runFrom_cons _ [] h'.conditions_eq, hstep]
  rfl

/-- As many signatures as are asked for, whatever stands below them. -/
theorem ends_payToKeys {sigs base : List Bytes} (hrequired : required ≤ keys.length)
    (hcount : keys.length ≤ Script.maxKeys) (hscript : Script.payToKeys required keys = .ok script)
    (h : m.Holds (sigs.reverse ++ base) cache) (hcache : cache.BelongsTo env.tx)
    (hsigs : sigs.length = required) (hsigSize : ∀ sig ∈ sigs, sig.length = 65) :
    Ends (runFrom env script.chunks m)
      (.ok (env.matchCount sigs.reverse (keyItems keys).reverse == sigs.length)) := by
  obtain ⟨m', sigCount, keyCount, noData, hsigCount, hkeyCount, h', hrun⟩ :=
    runFrom_payToKeys env hrequired hcount hscript h
  have htally := h'.tally (.op .checkMultiSig noData)
  have hasks : (m'.tally (.op .checkMultiSig noData)).stack.AsksMultiSig base sigs
      (keyItems keys) := by
    constructor
    case layout => exact ⟨sigCount, keyCount, hsigs ▸ hsigCount, hkeyCount, htally.stack_eq⟩
    case sigs_le => rwa [hsigs, length_keyItems]
    case keys_le => rwa [length_keyItems]
    case sigSize => exact hsigSize
    case keySize => exact length_of_mem_keyItems
  obtain ⟨cache', -, hstep⟩ := Machine.answersMultiSig hasks (htally.cache_eq.symm ▸ hcache)
  rw [hrun, runFrom_cons _ [] h'.conditions_eq, hstep noData]
  exact ⟨by simp [h'.conditions_eq], rfl⟩

/-! ## The answer for an input -/

namespace Setting

variable (script unlock : Script) (tx : Tx) (index changed : Nat) (value : UInt64)

theorem takeMatch?_setScript (sig : Bytes) : ∀ keys : List Bytes,
    takeMatch? ⟨script, Signer.setScript tx changed unlock, index, value⟩ sig keys =
      takeMatch? ⟨script, tx, index, value⟩ sig keys
  | [] => rfl
  | key :: keys => by
      rw [takeMatch?, takeMatch?, matchesItem_setScript, takeMatch?_setScript sig keys]

/-- Exchanging a script changes no match. -/
theorem matchCount_setScript : ∀ sigs keys : List Bytes,
    matchCount ⟨script, Signer.setScript tx changed unlock, index, value⟩ sigs keys =
      matchCount ⟨script, tx, index, value⟩ sigs keys
  | [], _ => rfl
  | sig :: sigs, keys => by
      rw [matchCount, matchCount, takeMatch?_setScript]
      cases takeMatch? ⟨script, tx, index, value⟩ sig keys with
      | some left => exact congrArg (· + 1) (matchCount_setScript sigs left)
      | none => exact matchCount_setScript sigs keys

end Setting

/-- The machine that the pushes of the signatures leave. -/
theorem holds_unlockKeys (sigs : List TxSignature) (cache : SighashCache) :
    (Evaluation.start (Script.unlockKeys sigs).pushed.reverse cache).machine.Holds
      (sigs.map TxSignature.encode).reverse cache := by
  rw [Script.pushed_unlockKeys]
  exact ⟨rfl, rfl, rfl⟩

namespace Tx

variable {tx : Tx} {outputs : OutputMap} {index : Nat} {input : TxInput} {coin : Coin}
  {sigs : List TxSignature}

theorem checkInput_payToKeys_of_few (hrequired : required ≤ keys.length)
    (hcount : keys.length ≤ Script.maxKeys)
    (hscript : Script.payToKeys required keys = .ok coin.output.script)
    (hinput : tx.inputs[index]? = some input) (hcoin : outputs.find? input.outpoint = some coin)
    (hfew : sigs.length < required) :
    ((Signer.setScript tx index (.unlockKeys sigs)).checkInput outputs index cache).1 =
      .error (.scriptFailed index (some .invalidStackOperation)) := by
  have hinput' := Signer.getElem?_inputs_setScript_self tx index (.unlockKeys sigs) hinput
  have hends := ends_payToKeys_of_few
    ⟨coin.output.script, Signer.setScript tx index (.unlockKeys sigs), index, coin.output.value⟩
    hrequired hcount hscript (holds_unlockKeys sigs cache) (by simpa using hfew)
  rw [checkInput_of_ends hinput' hcoin hends, if_pos (Script.isPushOnly_unlockKeys sigs)]
  rfl

theorem checkInput_payToKeys (hrequired : required ≤ keys.length)
    (hcount : keys.length ≤ Script.maxKeys)
    (hscript : Script.payToKeys required keys = .ok coin.output.script)
    (hinput : tx.inputs[index]? = some input) (hcoin : outputs.find? input.outpoint = some coin)
    (hsigs : sigs.length = required)
    (hcache : cache.BelongsTo (Signer.setScript tx index (.unlockKeys sigs))) :
    ((Signer.setScript tx index (.unlockKeys sigs)).checkInput outputs index cache).1 =
      answerOf index (.ok (Setting.matchCount ⟨coin.output.script, tx, index, coin.output.value⟩
        (sigs.map TxSignature.encode).reverse (keyItems keys).reverse ==
          (sigs.map TxSignature.encode).length)) := by
  have hinput' := Signer.getElem?_inputs_setScript_self tx index (.unlockKeys sigs) hinput
  have hsigSize : ∀ item ∈ sigs.map TxSignature.encode, item.length = 65 := by
    intro item hmem
    obtain ⟨sig, -, rfl⟩ := List.mem_map.mp hmem
    exact sig.length_encode
  have hholds : (Evaluation.start (Script.unlockKeys sigs).pushed.reverse cache).machine.Holds
      ((sigs.map TxSignature.encode).reverse ++ []) cache := by
    rw [List.append_nil]
    exact holds_unlockKeys sigs cache
  have hends := ends_payToKeys
    ⟨coin.output.script, Signer.setScript tx index (.unlockKeys sigs), index, coin.output.value⟩
    hrequired hcount hscript hholds hcache (by simpa using hsigs) hsigSize
  rw [checkInput_of_ends hinput' hcoin hends, if_pos (Script.isPushOnly_unlockKeys sigs),
    Setting.matchCount_setScript]

end Tx

/-! ## Signatures by the owners of the keys -/

namespace Setting

/-- In terms of the keys and signatures behind the items. -/
theorem verifies_iff (env : Setting) (key : PublicKey) (sig : TxSignature) :
    env.Verifies key.bytes.toList sig.encode ↔
      (env.tx.checkSignature env.spend key sig .empty).1 = true := by
  rw [← matchesItem_iff_verifies, matchesItem_eq_true_iff,
    (env.tx.settled_checkSignature env.spend key sig).of_empty]
  simp [PublicKey.ofBytes_toList, TxSignature.decode_encode]

variable {env : Setting} {sigs keys : List Bytes}

/-- The count starts from the items on top, which does not matter. -/
theorem matchCount_reverse_of_matched (hone : env.OneKeyEach sigs keys)
    (h : env.Matched sigs keys) :
    env.matchCount sigs.reverse keys.reverse = sigs.length := by
  have hsigs := List.reverse_perm sigs
  have hkeys := List.reverse_perm keys
  rw [matchCount_of_matched (hone.of_perm hsigs hkeys) (h.of_perm hsigs hkeys),
    List.length_reverse]

/-- Where every signature found a key, every signature has one. -/
theorem exists_key_of_matchCount_reverse
    (h : env.matchCount sigs.reverse keys.reverse = sigs.length) {sig : Bytes}
    (hmem : sig ∈ sigs) : ∃ key ∈ keys, env.Verifies key sig := by
  rw [← List.length_reverse] at h
  obtain ⟨position, hassigns⟩ := exists_assigns_of_matched (matched_of_matchCount h)
  obtain ⟨i, rfl⟩ := List.get_of_mem (List.mem_reverse.mpr hmem)
  exact ⟨_, List.mem_reverse.mp (List.get_mem _ (position i)), hassigns.verifies i⟩

end Setting

namespace Tx

variable {tx : Tx} {spend : Spend}

/-- The signature is the one that the pair makes for the spend, with some hash type. -/
def IsSignedBy (tx : Tx) (spend : Spend) (pair : KeyPair) (sig : TxSignature) : Prop :=
  ∃ hashType, (tx.sign spend pair.privateKey hashType .empty).1 = .ok sig

/-- What the assumption on signatures is needed for. -/
theorem IsSignedBy.checkSignature_iff {pair : KeyPair} {sig : TxSignature}
    (h : tx.IsSignedBy spend pair sig) (hderived : pair.IsDerived) :
    (tx.checkSignature spend pair.publicKey sig .empty).1 = true ↔
      ∀ digest, (tx.sighash spend sig.hashType .empty).1 = .ok digest →
        Ecdsa.CorrectAt pair.privateKey digest := by
  obtain ⟨hashType, hsign⟩ := h
  unfold sign at hsign
  unfold Tx.checkSignature
  generalize hsighash : tx.sighash spend hashType .empty = hashed at hsign
  obtain ⟨_ | digest, cache⟩ := hashed
  · cases hsign
  · obtain rfl := Except.ok.inj hsign
    rw [hsighash]
    constructor
    · intro hverify digest' hsame derived hofPrivate
      obtain rfl := Except.ok.inj hsame
      obtain rfl := Except.ok.inj (hderived.ofPrivate_eq.symm.trans hofPrivate)
      exact hverify
    · intro hcorrect
      exact hderived.verify (hcorrect digest rfl)

/-- The pairs at different positions have made the signatures, and no signature is
also one by a pair with another key. -/
structure SignedAt (tx : Tx) (spend : Spend) (pairs : List KeyPair) (sigs : List TxSignature)
    (position : Fin sigs.length → Fin pairs.length) : Prop where
  injective : Function.Injective position
  made : ∀ i, tx.IsSignedBy spend (pairs.get (position i)) (sigs.get i)
  ownKeyOnly : ∀ i, ∀ pair ∈ pairs,
    (tx.checkSignature spend pair.publicKey (sigs.get i) .empty).1 = true →
      pair.publicKey = (pairs.get (position i)).publicKey

variable {pairs : List KeyPair} {sigs : List TxSignature}
  {position : Fin sigs.length → Fin pairs.length}

/-- Every signature is one by the pair at its position. -/
theorem SignedAt.checkSignature (h : tx.SignedAt spend pairs sigs position)
    (hderived : ∀ pair ∈ pairs, pair.IsDerived)
    (hcorrect : ∀ i digest, (tx.sighash spend (sigs.get i).hashType .empty).1 = .ok digest →
      Ecdsa.CorrectAt (pairs.get (position i)).privateKey digest)
    (i : Fin sigs.length) :
    (tx.checkSignature spend (pairs.get (position i)).publicKey (sigs.get i) .empty).1 = true :=
  ((h.made i).checkSignature_iff (hderived _ (List.get_mem pairs (position i)))).mpr (hcorrect i)

end Tx

namespace Setting

variable {env : Setting} {pairs : List KeyPair} {sigs : List TxSignature}
  {position : Fin sigs.length → Fin pairs.length}

theorem oneKeyEach_of_signedAt (h : env.tx.SignedAt env.spend pairs sigs position) :
    env.OneKeyEach (sigs.map TxSignature.encode) (keyItems (pairs.map KeyPair.publicKey)) := by
  have hown (i : Fin sigs.length) {item : Bytes}
      (hmem : item ∈ keyItems (pairs.map KeyPair.publicKey))
      (hverifies : env.Verifies item (sigs.get i).encode) :
      item = (pairs.get (position i)).publicKey.bytes.toList := by
    obtain ⟨key, hkey, rfl⟩ := List.mem_map.mp hmem
    obtain ⟨pair, hpair, rfl⟩ := List.mem_map.mp hkey
    rw [h.ownKeyOnly i pair hpair ((env.verifies_iff pair.publicKey _).mp hverifies)]
  intro item hitem key hkey key' hkey' hverifies hverifies'
  obtain ⟨sig, hsig, rfl⟩ := List.mem_map.mp hitem
  obtain ⟨i, rfl⟩ := List.get_of_mem hsig
  rw [hown i hkey hverifies, hown i hkey' hverifies']

/-- The positions of the signers are an assignment. -/
theorem matched_of_signedAt (h : env.tx.SignedAt env.spend pairs sigs position)
    (hchecks : ∀ i, (env.tx.checkSignature env.spend (pairs.get (position i)).publicKey
      (sigs.get i) .empty).1 = true) :
    env.Matched (sigs.map TxSignature.encode) (keyItems (pairs.map KeyPair.publicKey)) := by
  have hsigs : (sigs.map TxSignature.encode).length = sigs.length := List.length_map _
  have hkeys : pairs.length = (keyItems (pairs.map KeyPair.publicKey)).length := by
    rw [length_keyItems, List.length_map]
  have hassigns : env.Assigns (sigs.map TxSignature.encode)
      (keyItems (pairs.map KeyPair.publicKey))
      (fun i => (position (i.cast hsigs)).cast hkeys) := by
    constructor
    case injective =>
      exact (Fin.cast_injective hkeys).comp (h.injective.comp (Fin.cast_injective hsigs))
    case verifies =>
      intro i
      have hverifies := (env.verifies_iff _ _).mpr (hchecks (i.cast hsigs))
      simp only [List.get_eq_getElem, keyItems, List.getElem_map, Fin.val_cast] at hverifies ⊢
      exact hverifies
  exact matched_of_assigns hassigns

end Setting

namespace Tx

/-- **m of n keys spend what is paid to them.** The output lists the keys of `pairs`,
some of them perhaps more than once, and asks for `required` signatures. Signatures by
the pairs at that many positions, in any order and each with a hash type of its own,
are enough, unless one of them is also a signature by another of the keys. With fewer
signatures the script fails for want of items; with one that is by none of the keys it
says no. -/
theorem payToKeys_spent_by_enough_keys {required : Nat} {pairs : List KeyPair}
    (hrequired : required ≤ pairs.length) (hcount : pairs.length ≤ 16)
    (hderived : ∀ pair ∈ pairs, pair.IsDerived) :
    ∃ script, Script.payToKeys required (pairs.map KeyPair.publicKey) = .ok script ∧
      ∀ (tx : Tx) (outputs : OutputMap) (index : Nat) (input : TxInput) (coin : Coin)
        (sigs : List TxSignature) (cache : SighashCache),
        tx.inputs[index]? = some input → outputs.find? input.outpoint = some coin →
        coin.output.script = script →
        cache.BelongsTo (Signer.setScript tx index (.unlockKeys sigs)) →
          let spend : Spend := ⟨index, script.encode, coin.output.value⟩
          let answer :=
            ((Signer.setScript tx index (.unlockKeys sigs)).checkInput outputs index cache).1
          (sigs.length = required → ∀ position, tx.SignedAt spend pairs sigs position →
            (∀ i digest, (tx.sighash spend (sigs.get i).hashType .empty).1 = .ok digest →
              Ecdsa.CorrectAt (pairs.get (position i)).privateKey digest) →
            answer = .ok ()) ∧
          (sigs.length < required →
            answer = .error (.scriptFailed index (some .invalidStackOperation))) ∧
          (sigs.length = required →
            (∃ sig ∈ sigs, ∀ pair ∈ pairs,
              (tx.checkSignature spend pair.publicKey sig .empty).1 = false) →
            answer = .error (.scriptFailed index none)) := by
  have hrequired : required ≤ (pairs.map KeyPair.publicKey).length := by
    rwa [List.length_map]
  have hcount : (pairs.map KeyPair.publicKey).length ≤ Script.maxKeys := by
    rwa [List.length_map]
  obtain ⟨script, hscript⟩ :
      ∃ script, Script.payToKeys required (pairs.map KeyPair.publicKey) = .ok script := by
    obtain ⟨_, hok⟩ := Script.payToKeys_eq_ok hrequired hcount
    exact ⟨_, hok⟩
  refine ⟨script, hscript, ?_⟩
  rintro tx outputs index input coin sigs cache hinput hcoin rfl hcache spend answer
  let env : Setting := ⟨coin.output.script, tx, index, coin.output.value⟩
  refine ⟨fun hsigs position hsigned hcorrect => ?_,
    checkInput_payToKeys_of_few hrequired hcount hscript hinput hcoin, fun hsigs hforeign => ?_⟩
  -- each signature is matched at its position, and its key is the only one that it verifies
  -- under
  · have hmatched := env.matched_of_signedAt hsigned (hsigned.checkSignature hderived hcorrect)
    have hfull := Setting.matchCount_reverse_of_matched (env.oneKeyEach_of_signedAt hsigned)
      hmatched
    show (Tx.checkInput _ _ _ _).1 = _
    rw [checkInput_payToKeys hrequired hcount hscript hinput hcoin hsigs hcache,
      answerOf_eq_ok_iff, hfull, beq_self_eq_true]
  -- a full count would give the foreign signature a key as well
  · obtain ⟨sig, hmem, hnone⟩ := hforeign
    have hshort : ¬ env.matchCount (sigs.map TxSignature.encode).reverse
        (keyItems (pairs.map KeyPair.publicKey)).reverse =
          (sigs.map TxSignature.encode).length := by
      intro hfull
      obtain ⟨item, hitem, hverifies⟩ :=
        Setting.exists_key_of_matchCount_reverse hfull (List.mem_map_of_mem hmem)
      obtain ⟨key, hkey, rfl⟩ := List.mem_map.mp hitem
      obtain ⟨pair, hpair, rfl⟩ := List.mem_map.mp hkey
      have hyes := (env.verifies_iff pair.publicKey sig).mp hverifies
      exact Bool.false_ne_true ((hnone pair hpair).symm.trans hyes)
    show (Tx.checkInput _ _ _ _).1 = _
    rw [checkInput_payToKeys hrequired hcount hscript hinput hcoin hsigs hcache,
      beq_eq_false_iff_ne.mpr hshort]
    rfl

/-! ### Two of two keys

The signatures of `Machine.MultiSigSample`. -/

namespace PayToKeysSample

open Machine.MultiSigSample (setting firstSig secondSig)

def pairs : List KeyPair := [KeyPairSample.first, KeyPairSample.second]

/-- A signature by nobody. -/
def blank : TxSignature := ⟨HashType.all, .zero⟩

theorem isSignedBy :
    setting.tx.IsSignedBy setting.spend KeyPairSample.first firstSig ∧
      setting.tx.IsSignedBy setting.spend KeyPairSample.second secondSig := by
  have hsigned (pair : KeyPair) (hashType : UInt8) (sig : TxSignature)
      (hsign : (setting.tx.sign setting.spend pair.privateKey hashType .empty).1.toOption =
        some sig) : setting.tx.IsSignedBy setting.spend pair sig := by
    refine ⟨hashType, ?_⟩
    generalize (setting.tx.sign setting.spend pair.privateKey hashType .empty).1 = made at hsign ⊢
    cases made with
    | error error => cases hsign
    | ok sig' =>
      obtain rfl : sig' = sig := Option.some.inj hsign
      rfl
  exact ⟨hsigned KeyPairSample.first 0x01 firstSig (by decide +kernel),
    hsigned KeyPairSample.second 0x83 secondSig (by decide +kernel)⟩

/-- Each signature is one by its own key only. -/
theorem checkSignature_own_key_only :
    ∀ pair ∈ pairs,
      (setting.tx.checkSignature setting.spend pair.publicKey firstSig .empty).1 =
        decide (pair = KeyPairSample.first) ∧
      (setting.tx.checkSignature setting.spend pair.publicKey secondSig .empty).1 =
        decide (pair = KeyPairSample.second) ∧
      (setting.tx.checkSignature setting.spend pair.publicKey blank .empty).1 = false := by
  decide +kernel

/-- The signatures are pushed in the other order than the keys. -/
def position : Fin [secondSig, firstSig].length → Fin pairs.length := @Fin.rev 2

theorem signedAt : setting.tx.SignedAt setting.spend pairs [secondSig, firstSig] position where
  injective := @Fin.rev_injective 2
  made := Fin.forall_fin_two.mpr ⟨isSignedBy.2, isSignedBy.1⟩
  ownKeyOnly := by
    refine Fin.forall_fin_two.mpr ⟨fun pair hmem hcheck => ?_, fun pair hmem hcheck => ?_⟩
    · have hown : decide (pair = KeyPairSample.second) = true :=
        (checkSignature_own_key_only pair hmem).2.1.symm.trans hcheck
      rw [of_decide_eq_true hown]
      rfl
    · have hown : decide (pair = KeyPairSample.first) = true :=
        (checkSignature_own_key_only pair hmem).1.symm.trans hcheck
      rw [of_decide_eq_true hown]
      rfl

/-- What the assumption on signatures comes to here. -/
theorem correctAt : ∀ i digest,
    (setting.tx.sighash setting.spend ([secondSig, firstSig].get i).hashType .empty).1 =
      .ok digest → Ecdsa.CorrectAt (pairs.get (position i)).privateKey digest := by
  have hsecond := (checkSignature_own_key_only KeyPairSample.second (by simp [pairs])).2.1.trans
    (decide_eq_true rfl)
  have hfirst := (checkSignature_own_key_only KeyPairSample.first (by simp [pairs])).1.trans
    (decide_eq_true rfl)
  exact Fin.forall_fin_two.mpr
    ⟨(isSignedBy.2.checkSignature_iff (KeyPairSample.isDerived _ (by simp))).mp hsecond,
      (isSignedBy.1.checkSignature_iff (KeyPairSample.isDerived _ (by simp))).mp hfirst⟩

end PayToKeysSample

open Machine.MultiSigSample PayToKeysSample in
theorem payToKeys_spent_by_enough_keys_sample :
    let coins := OutputMap.empty.insert ⟨.zero, 0⟩ ⟨⟨5, lock⟩, 3⟩
    let answer := fun sigs =>
      ((Signer.setScript setting.tx 0 (.unlockKeys sigs)).checkInput coins 0 .empty).1
    setting.tx.SignedAt setting.spend pairs [secondSig, firstSig] position ∧
      answer [secondSig, firstSig] = .ok () ∧
      answer [firstSig] = .error (.scriptFailed 0 (some .invalidStackOperation)) ∧
      answer [firstSig, blank] = .error (.scriptFailed 0 none) := by
  intro coins answer
  obtain ⟨script, hok, hspends⟩ := @payToKeys_spent_by_enough_keys 2 pairs (by decide) (by decide)
    KeyPairSample.isDerived
  obtain rfl : lock = script := by
    unfold lock
    rw [show Script.payToKeys 2 [Machine.MultiSigSample.first, Machine.MultiSigSample.second] =
      .ok script from hok]
  have hcoin := OutputMap.find?_insert_self .empty ⟨.zero, 0⟩ ⟨⟨5, lock⟩, 3⟩
  have hspend (sigs : List TxSignature) := hspends setting.tx coins 0 _ _ sigs .empty rfl hcoin rfl
    (SighashCache.empty_belongsTo _)
  refine ⟨signedAt, ?_, ?_, ?_⟩
  · exact (hspend [secondSig, firstSig]).1 rfl position signedAt correctAt
  · exact (hspend [firstSig]).2.1 (by decide)
  · exact (hspend [firstSig, blank]).2.2 rfl
      ⟨blank, by simp, fun pair hmem => (checkSignature_own_key_only pair hmem).2.2⟩

end Tx

end UtxoLedger
