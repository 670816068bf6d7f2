/-
UtxoLedger.Proofs.Script.MultiSig — when m of n keys have signed.

A check of several signatures asks for an assignment (`Setting.Assigns`): a key
position for every signature, no position twice, with each signature verifying
under its key. The machine does not search for one. It goes through the
signatures and gives each the first key left that it matches.

The proof counts keys by their bytes. `Setting.Matched` says that a list of keys,
one for each signature, can be taken out of those listed, whatever their order;
`matched_iff_exists_assigns` is the way from there to positions.

* `matched_of_matchCount`: if each signature found a key, the keys that were taken
  are such a list.
* `matchCount_of_matched`: conversely, if no signature verifies under keys with
  different bytes. The key that is taken first then has the bytes of the one in the
  list, so what is left of the list can be taken out of what is left of the keys.
* `answersMultiSig`: the opcode, on a stack that holds what it asks for.
-/
import Mathlib.Data.List.FinRange
import Mathlib.Data.List.Perm.Subperm
import UtxoLedger.Proofs.Script.CacheIndependence
import UtxoLedger.Proofs.Script.NumberForms

namespace UtxoLedger

namespace Setting

variable (env : Setting)

/-! ## Assignments -/

/-- The item `sig` is a signature by the key `key`, over what its own hash type
selects for the spend. -/
def Verifies (key sig : Bytes) : Prop :=
  ∃ key' sig' digest, PublicKey.ofBytes key = .ok key' ∧ TxSignature.decode sig = .ok sig' ∧
    (env.tx.sighash env.spend sig'.hashType .empty).1 = .ok digest ∧
    key'.verify digest sig'.signature = true

theorem matchesItem_iff_verifies {key sig : Bytes} :
    env.matchesItem key sig = true ↔ env.Verifies key sig := by
  simp only [matchesItem_eq_true_iff, Tx.accepts_eq_true_iff, Verifies]
  constructor
  · rintro ⟨key', sig', hkey, hsig, digest, hsighash, hverify⟩
    exact ⟨key', sig', digest, hkey, hsig, hsighash, hverify⟩
  · rintro ⟨key', sig', digest, hkey, hsig, hsighash, hverify⟩
    exact ⟨key', sig', hkey, hsig, digest, hsighash, hverify⟩

/-- Each signature has a position of its own among the keys, and verifies under
the key there. -/
structure Assigns (sigs keys : List Bytes) (position : Fin sigs.length → Fin keys.length) :
    Prop where
  injective : Function.Injective position
  verifies : ∀ i, env.Verifies (keys.get (position i)) (sigs.get i)

/-- No signature verifies under two of the keys that differ. -/
def OneKeyEach (sigs keys : List Bytes) : Prop :=
  ∀ sig ∈ sigs, ∀ key ∈ keys, ∀ key' ∈ keys,
    env.Verifies key sig → env.Verifies key' sig → key = key'

/-- Keys for the signatures, one after the other, can be taken out of those listed. -/
def Matched (sigs keys : List Bytes) : Prop :=
  ∃ chosen, List.Forall₂ (fun sig key => env.Verifies key sig) sigs chosen ∧ chosen.Subperm keys

variable {env} {sigs keys : List Bytes}

/-- A list of keys that can be taken out of another comes from places in it, and these are
put in the order of the signatures. -/
theorem exists_assigns_of_matched (h : env.Matched sigs keys) :
    ∃ position, env.Assigns sigs keys position := by
  obtain ⟨chosen, hverifies, taken, hperm, hsub⟩ := h
  rw [← List.map_get_finRange keys, List.sublist_map_iff] at hsub
  obtain ⟨places, hplaces, rfl⟩ := hsub
  -- the places in the order of the signatures
  have hkeys : List.Forall₂ (fun key place => key = keys.get place) (places.map keys.get) places :=
    List.forall₂_map_left_iff.mpr (List.forall₂_same.mpr fun _ _ => rfl)
  obtain ⟨ordered, hordered, hplace⟩ := List.perm_comp_forall₂ hperm.symm hkeys
  have hnodup : ordered.Nodup :=
    hplace.nodup_iff.mpr (hplaces.nodup (List.nodup_finRange keys.length))
  obtain rfl : chosen = ordered.map keys.get := by
    rw [← List.forall₂_eq_eq_eq, List.forall₂_map_right_iff]
    exact hordered
  rw [List.forall₂_map_right_iff, List.forall₂_iff_get] at hverifies
  obtain ⟨hlength, hverifies⟩ := hverifies
  refine ⟨fun i => ordered.get (i.cast hlength), fun i j hij => ?_, fun i => ?_⟩
  · exact Fin.cast_injective hlength (List.nodup_iff_injective_get.mp hnodup hij)
  · exact hverifies i i.isLt (hlength ▸ i.isLt)

/-- The keys at the positions are the list. -/
theorem matched_of_assigns {position : Fin sigs.length → Fin keys.length}
    (h : env.Assigns sigs keys position) : env.Matched sigs keys := by
  have htaken : (List.ofFn position).Subperm (List.finRange keys.length) :=
    (List.nodup_ofFn.mpr h.injective).subperm fun i _ => List.mem_finRange i
  obtain ⟨places, hperm, hsub⟩ := htaken
  refine ⟨(List.ofFn position).map keys.get, ?_, places.map keys.get, hperm.map _, ?_⟩
  · rw [List.forall₂_iff_get]
    refine ⟨by simp, fun i hsig _ => ?_⟩
    simpa using h.verifies ⟨i, hsig⟩
  · have hkeys := hsub.map keys.get
    rwa [List.map_get_finRange] at hkeys

theorem matched_iff_exists_assigns :
    env.Matched sigs keys ↔ ∃ position, env.Assigns sigs keys position :=
  ⟨exists_assigns_of_matched, fun ⟨_, h⟩ => matched_of_assigns h⟩

/-- The order of the signatures and that of the keys are of no account. -/
theorem Matched.of_perm {sigs' keys' : List Bytes} (hsigs : sigs'.Perm sigs)
    (hkeys : keys'.Perm keys) (h : env.Matched sigs keys) : env.Matched sigs' keys' := by
  obtain ⟨chosen, hverifies, hsub⟩ := h
  obtain ⟨chosen', hverifies', hchosen⟩ := List.perm_comp_forall₂ hsigs hverifies
  exact ⟨chosen', hverifies', (hchosen.subperm_right.mpr hsub).trans hkeys.symm.subperm⟩

theorem OneKeyEach.of_perm {sigs' keys' : List Bytes} (hsigs : sigs'.Perm sigs)
    (hkeys : keys'.Perm keys) (h : env.OneKeyEach sigs keys) : env.OneKeyEach sigs' keys' :=
  fun sig hsig key hkey key' hkey' =>
    h sig (hsigs.mem_iff.mp hsig) key (hkeys.mem_iff.mp hkey) key' (hkeys.mem_iff.mp hkey')

/-! ## One key after the other -/

/-- The key that is taken is one of those listed, and is missing from what is left. -/
theorem perm_of_takeMatch? {sig : Bytes} : ∀ {keys left : List Bytes},
    env.takeMatch? sig keys = some left →
      ∃ key, env.Verifies key sig ∧ keys.Perm (key :: left)
  | key :: keys, left, h => by
      rw [takeMatch?] at h
      by_cases hmatch : env.matchesItem key sig = true
      · rw [if_pos hmatch] at h
        cases h
        exact ⟨key, env.matchesItem_iff_verifies.mp hmatch, .refl _⟩
      · rw [if_neg hmatch] at h
        obtain ⟨rest, hrest, rfl⟩ := Option.map_eq_some_iff.mp h
        obtain ⟨found, hverifies, hperm⟩ := perm_of_takeMatch? hrest
        exact ⟨found, hverifies, (hperm.cons key).trans (.swap found key rest)⟩

/-- All keys that are left are tried. -/
theorem not_verifies_of_takeMatch? {sig : Bytes} : ∀ {keys : List Bytes},
    env.takeMatch? sig keys = none → ∀ key ∈ keys, ¬ env.Verifies key sig
  | [], _ => List.forall_mem_nil _
  | key :: keys, h => by
      rw [takeMatch?] at h
      by_cases hmatch : env.matchesItem key sig = true
      · rw [if_pos hmatch] at h
        cases h
      · rw [if_neg hmatch, Option.map_eq_none_iff] at h
        rw [List.forall_mem_cons]
        exact ⟨fun hverifies => hmatch (env.matchesItem_iff_verifies.mpr hverifies),
          not_verifies_of_takeMatch? h⟩

theorem matchCount_le : ∀ sigs keys : List Bytes, env.matchCount sigs keys ≤ sigs.length
  | [], _ => Nat.le_refl 0
  | sig :: sigs, keys => by
      rw [matchCount]
      cases env.takeMatch? sig keys with
      | some left => exact Nat.succ_le_succ (matchCount_le sigs left)
      | none => exact Nat.le_succ_of_le (matchCount_le sigs keys)

/-- Signatures that all found a key found keys that are all listed. -/
theorem matched_of_matchCount : ∀ {sigs keys : List Bytes},
    env.matchCount sigs keys = sigs.length → env.Matched sigs keys
  | [], keys, _ => ⟨[], .nil, List.nil_subperm⟩
  | sig :: sigs, keys, h => by
      rw [matchCount] at h
      cases htake : env.takeMatch? sig keys with
      | some left =>
        rw [htake] at h
        obtain ⟨key, hverifies, hperm⟩ := perm_of_takeMatch? htake
        obtain ⟨chosen, hchosen, hsub⟩ := matched_of_matchCount (Nat.succ.inj h)
        exact ⟨key :: chosen, .cons hverifies hchosen,
          hperm.subperm_left.mpr ((List.subperm_cons key).mpr hsub)⟩
      | none =>
        simp only [htake, List.length_cons] at h
        have hle : env.matchCount sigs keys ≤ sigs.length := matchCount_le sigs keys
        omega

/-- The first key left will do: if one of the others was chosen for the signature,
it has the same bytes. -/
theorem matchCount_of_matched : ∀ {sigs keys : List Bytes},
    env.OneKeyEach sigs keys → env.Matched sigs keys → env.matchCount sigs keys = sigs.length
  | [], _, _, _ => rfl
  | sig :: sigs, keys, hone, ⟨chosen :: rest, .cons hchosen hrest, hsub⟩ => by
      have hmem : chosen ∈ keys := hsub.subset List.mem_cons_self
      rw [matchCount]
      cases htake : env.takeMatch? sig keys with
      | none => exact absurd hchosen (not_verifies_of_takeMatch? htake chosen hmem)
      | some left =>
        obtain ⟨key, hverifies, hperm⟩ := perm_of_takeMatch? htake
        have hleft : ∀ k ∈ left, k ∈ keys :=
          fun k hk => hperm.mem_iff.mpr (List.mem_cons_of_mem key hk)
        -- the signature verifies under the chosen key and under the first that matches
        obtain rfl : chosen = key :=
          hone sig List.mem_cons_self chosen hmem key (hperm.mem_iff.mpr List.mem_cons_self)
            hchosen hverifies
        have hone' : env.OneKeyEach sigs left := fun s hs k hk k' hk' =>
          hone s (List.mem_cons_of_mem sig hs) k (hleft k hk) k' (hleft k' hk')
        have hsub' : rest.Subperm left :=
          (List.subperm_cons chosen).mp (hperm.subperm_left.mp hsub)
        exact congrArg (· + 1) (matchCount_of_matched hone' ⟨rest, hrest, hsub'⟩)

/-- The greedy count is complete where each signature has one key. -/
theorem matchCount_eq_length_iff (h : env.OneKeyEach sigs keys) :
    env.matchCount sigs keys = sigs.length ↔ env.Matched sigs keys :=
  ⟨matched_of_matchCount, matchCount_of_matched h⟩

end Setting

/-! ## The opcode -/

/-- The stack ends as the opcode asks: signatures, their number, keys, their number,
each pushed in the order of its list. `base` is what stands below. -/
structure Stack.AsksMultiSig (s base : Stack) (sigs keys : List Bytes) : Prop where
  layout : ∃ sigCount keyCount,
    Number.decode sigCount = sigs.length ∧ Number.decode keyCount = keys.length ∧
      s = keyCount :: (keys.reverse ++ sigCount :: (sigs.reverse ++ base))
  sigs_le : sigs.length ≤ keys.length
  keys_le : keys.length ≤ 16
  sigSize : ∀ sig ∈ sigs, sig.length = 65
  keySize : ∀ key ∈ keys, key.length = 33

namespace Machine

/-- The step raises no error, takes what it asks for off the stack and leaves the
truth value `b` above `base`; the cache is still one of the transaction. -/
def AnswersMultiSig (m : Machine) (env : Setting) (base : Stack) (b : Bool) : Prop :=
  ∃ cache, cache.BelongsTo env.tx ∧
    ∀ noData, m.step env (.op .checkMultiSig noData) =
      .next { m with stack := Stack.ofBool b :: base, cache := cache }

theorem takeSized_append {size : Nat} : ∀ {items : List Bytes} (rest : Stack),
    (∀ item ∈ items, item.length = size) →
      takeSized size items.length (items ++ rest) = .ok (items, rest)
  | [], _, _ => rfl
  | item :: items, rest, h => by
      rw [List.forall_mem_cons] at h
      rw [List.length_cons, List.cons_append, takeSized, if_pos h.1, takeSized_append rest h.2]

/-- Where both numbers are in order and the keys are there, it is up to the stack
`s` below the number of signatures. -/
theorem checkMultiSig_of_counts {m : Machine} {keyCount sigCount : Bytes} {keys : List Bytes}
    {s : Stack} {required : Nat} (env : Setting) (thenVerify : Bool)
    (hlayout : m.stack = keyCount :: (keys.reverse ++ sigCount :: s))
    (hkeyCount : Number.decode keyCount = keys.length)
    (hsigCount : Number.decode sigCount = required) (hrequired : required ≤ keys.length)
    (hkeys : keys.length ≤ 16) (hkeySize : ∀ key ∈ keys, key.length = 33) :
    m.checkMultiSig env thenVerify =
      if s.length < required then .fail .invalidStackOperation { m with stack := s }
      else
        match takeSized TxSignature.size required s with
        | .error s => .fail .invalidSignatureLength { m with stack := s }
        | .ok (sigs, s) =>
          conclude { m with stack := s, cache := (countMatches env sigs keys.reverse m.cache).2 }
            thenVerify ((countMatches env sigs keys.reverse m.cache).1 == required) := by
  have hdeep : ¬ (keys.reverse ++ sigCount :: s).length < keys.length + 1 := by
    simp only [List.length_append, List.length_reverse, List.length_cons]
    omega
  have htakeKeys : takeSized PublicKey.size keys.length (keys.reverse ++ sigCount :: s) =
      .ok (keys.reverse, sigCount :: s) := by
    rw [← List.length_reverse]
    exact takeSized_append _ fun key hmem => hkeySize key (List.mem_reverse.mp hmem)
  unfold checkMultiSig
  rw [hlayout]
  dsimp only
  rw [hkeyCount, Number.toCount?_natCast (by omega)]
  simp only [Option.filter_some, Script.maxKeys, hkeys, decide_true, if_true]
  rw [if_neg hdeep, htakeKeys]
  dsimp only
  rw [hsigCount, Number.toCount?_natCast (by omega)]
  by_cases hfew : s.length < required
  · simp only [Option.filter_some, hrequired, decide_true, if_true, if_pos hfew]
  · cases htake : takeSized TxSignature.size required s with
    | error rest =>
      simp only [Option.filter_some, hrequired, decide_true, if_true, if_neg hfew, htake]
    | ok taken =>
      obtain ⟨sigs, rest⟩ := taken
      simp only [Option.filter_some, hrequired, decide_true, if_true, if_neg hfew, htake]

/-- The answer is whether each signature found a key. -/
theorem answersMultiSig {env : Setting} {m : Machine} {base : Stack} {sigs keys : List Bytes}
    (hstack : m.stack.AsksMultiSig base sigs keys) (hcache : m.cache.BelongsTo env.tx) :
    m.AnswersMultiSig env base (env.matchCount sigs.reverse keys.reverse == sigs.length) := by
  obtain ⟨⟨sigCount, keyCount, hsigCount, hkeyCount, hlayout⟩, hsigs, hkeys, hsigSize, hkeySize⟩ :=
    hstack
  have hdeep : ¬ (sigs.reverse ++ base).length < sigs.length := by
    simp only [List.length_append, List.length_reverse]
    omega
  have htakeSigs : takeSized TxSignature.size sigs.length (sigs.reverse ++ base) =
      .ok (sigs.reverse, base) := by
    rw [← List.length_reverse]
    exact takeSized_append _ fun sig hmem => hsigSize sig (List.mem_reverse.mp hmem)
  obtain ⟨hcount, hcache⟩ := settled_countMatches env sigs.reverse keys.reverse m.cache hcache
  refine ⟨_, hcache, fun _ => ?_⟩
  show m.checkMultiSig env false = _
  rw [checkMultiSig_of_counts env false hlayout hkeyCount hsigCount hsigs hkeys hkeySize,
    if_neg hdeep, htakeSigs, ← hcount]
  rfl

/-- **A multi-signature check finds an assignment.** It raises no error and answers
yes only if there is one. Where no signature verifies under keys that differ, it
answers yes whenever there is one, so neither the order of the signatures nor that
of the keys changes the answer. -/
theorem checkMultiSig_finds_assignment {env : Setting} {m : Machine} {base : Stack}
    {sigs keys : List Bytes} (hstack : m.stack.AsksMultiSig base sigs keys)
    (hcache : m.cache.BelongsTo env.tx) :
    ∃ b, m.AnswersMultiSig env base b ∧
      (b = true → ∃ position, env.Assigns sigs keys position) ∧
      (env.OneKeyEach sigs keys →
        (b = true ↔ ∃ position, env.Assigns sigs keys position) ∧
        ∀ (m' : Machine) (base' : Stack) (sigs' keys' : List Bytes),
          sigs'.Perm sigs → keys'.Perm keys → m'.stack.AsksMultiSig base' sigs' keys' →
            m'.cache.BelongsTo env.tx → m'.AnswersMultiSig env base' b) := by
  have hreverse (items : List Bytes) : items.reverse.Perm items := List.reverse_perm items
  have hyes (h : env.matchCount sigs.reverse keys.reverse = sigs.length) :
      env.Matched sigs keys := by
    rw [← List.length_reverse] at h
    exact (Setting.matched_of_matchCount h).of_perm (hreverse sigs).symm (hreverse keys).symm
  refine ⟨_, answersMultiSig hstack hcache, fun h => ?_, fun hone => ?_⟩
  · exact Setting.matched_iff_exists_assigns.mp (hyes (beq_iff_eq.mp h))
  · -- on lists in any order, the count is full when the lists given can be matched
    have hcount (sigs' keys' : List Bytes) (hsigs : sigs'.Perm sigs) (hkeys : keys'.Perm keys) :
        (env.matchCount sigs'.reverse keys'.reverse == sigs'.length) = true ↔
          env.Matched sigs keys := by
      have hsigs := (hreverse sigs').trans hsigs
      have hkeys := (hreverse keys').trans hkeys
      rw [beq_iff_eq, ← List.length_reverse,
        Setting.matchCount_eq_length_iff (hone.of_perm hsigs hkeys)]
      exact ⟨.of_perm hsigs.symm hkeys.symm, .of_perm hsigs hkeys⟩
    refine ⟨?_, fun m' base' sigs' keys' hsigs hkeys hstack' hcache' => ?_⟩
    · rw [← Setting.matched_iff_exists_assigns]
      exact hcount sigs keys (.refl _) (.refl _)
    · have hsame := Bool.eq_iff_iff.mpr
        ((hcount sigs' keys' hsigs hkeys).trans (hcount sigs keys (.refl _) (.refl _)).symm)
      rw [← hsame]
      exact answersMultiSig hstack' hcache'

/-! ### Two of two keys

The keys of the scalars 1 and 2 have signed, the second for a single output and
with other inputs left open. The signatures are pushed in the other order than the
keys. -/

namespace MultiSigSample

def first : PublicKey :=
  ⟨.ofNat 33 0x0279be667ef9dcbbac55a06295ce870b07029bfcdb2dce28d959f2815b16f81798,
    by decide +kernel⟩

def second : PublicKey :=
  ⟨.ofNat 33 0x02c6047f9441ed7d6d3045406e95c07cd85c778e4b8cef3ca7abac09b95c709ee5,
    by decide +kernel⟩

/-- A signature of all outputs. -/
def firstSig : TxSignature :=
  ⟨0x01, Ecdsa.encode
    0x373965a5d2bb275b0570806c9e32dc2534751d5b4c56f15256a9fddfb200c40c
    0x43efe3dcd6d1742359aa331309265d22d8f55a79fb6e8542129f92950ddeef39⟩

/-- A signature of the output beside the input, which leaves other inputs open. -/
def secondSig : TxSignature :=
  ⟨0x83, Ecdsa.encode
    0x921154407f9cdf3f68cc2c84b1121d36eb2b10488e6830ff0bab20eb8d666b74
    0x50ec7665c37303c9833b1d6f439133237f69369ff33b3ebe778a9e02b152b514⟩

def lock : Script :=
  match Script.payToKeys 2 [first, second] with
  | .ok script => script
  | .error _ => .empty

def setting : Setting := ⟨lock, ⟨0, [⟨⟨.zero, 0⟩, .empty, 0⟩], [⟨5, .empty⟩], 0⟩, 0, 5⟩

def sigs : List Bytes := [secondSig.encode, firstSig.encode]

def keys : List Bytes := [first.bytes.toList, second.bytes.toList]

def machine : Machine :=
  (Evaluation.start ([2] :: (keys.reverse ++ [2] :: sigs.reverse)) .empty).machine

/-- Each signature verifies under its own key and under no other. -/
theorem matchesItem_own_key_only :
    setting.matchesItem first.bytes.toList firstSig.encode = true ∧
      setting.matchesItem second.bytes.toList secondSig.encode = true ∧
      setting.matchesItem first.bytes.toList secondSig.encode = false ∧
      setting.matchesItem second.bytes.toList firstSig.encode = false := by
  decide +kernel

theorem asks : machine.stack.AsksMultiSig [] sigs keys where
  layout := ⟨[2], [2], by decide +kernel, by decide +kernel,
    by simp [machine, Evaluation.start]⟩
  sigs_le := by decide
  keys_le := by decide
  sigSize := by decide +kernel
  keySize := by decide +kernel

theorem oneKeyEach : setting.OneKeyEach sigs keys := by
  obtain ⟨hfirst, hsecond, hcross, hcross'⟩ := matchesItem_own_key_only
  simp [Setting.OneKeyEach, ← Setting.matchesItem_iff_verifies, sigs, keys, hfirst, hsecond,
    hcross, hcross']

theorem matched : setting.Matched sigs keys := by
  obtain ⟨hfirst, hsecond, -, -⟩ := matchesItem_own_key_only
  exact ⟨[second.bytes.toList, first.bytes.toList],
    .cons (setting.matchesItem_iff_verifies.mp hsecond)
      (.cons (setting.matchesItem_iff_verifies.mp hfirst) .nil),
    (List.Perm.swap first.bytes.toList second.bytes.toList []).subperm⟩

end MultiSigSample

open MultiSigSample in
theorem checkMultiSig_finds_assignment_sample :
    machine.stack.AsksMultiSig [] sigs keys ∧ machine.cache.BelongsTo setting.tx ∧
      setting.OneKeyEach sigs keys ∧ machine.AnswersMultiSig setting [] true := by
  have hcache : machine.cache.BelongsTo setting.tx := SighashCache.empty_belongsTo setting.tx
  obtain ⟨b, hanswer, -, hexact⟩ := checkMultiSig_finds_assignment asks hcache
  have hyes : b = true :=
    (hexact oneKeyEach).1.mpr (Setting.matched_iff_exists_assigns.mp matched)
  exact ⟨asks, hcache, oneKeyEach, hyes ▸ hanswer⟩

end Machine

end UtxoLedger
