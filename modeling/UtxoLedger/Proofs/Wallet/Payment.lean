/-
UtxoLedger.Proofs.Wallet.Payment — a payment that is built can be signed and spent.

Coin selection takes a front part of the map's list (`of_build_eq_ok`), so the inputs are
known and, the list having no outpoint twice, different. Whatever the chosen coins
are worth beyond the request goes to the change, so the transaction creates exactly
what it spends (`Balanced`), and no sum of the later checks is larger than one that
selection has already computed in 64 bits.

The rest is `UtxoLedger.Proofs.Wallet.Signing`: each chosen coin is paid to a key of
the ring, so each input has a task, all of them are signed, and each is satisfied in
the transaction that is left.
-/
import UtxoLedger.Proofs.Wallet.Selection
import UtxoLedger.Proofs.Wallet.Signing

namespace UtxoLedger

/-- Every coin of the map is paid to a key of the ring. -/
def KeyRing.Owns (ring : KeyRing) (outputs : OutputMap) : Prop :=
  ∀ o coin, outputs.find? o = some coin →
    ∃ hash pair, coin.output.script = .payToKeyHash hash ∧ ring.find? hash = some pair ∧
      pair.IsDerived

namespace TxRequest

/-- The transaction spends coins of the map, each outpoint from another place in its
list, and creates the requested outputs and the rest of the value. -/
structure Balanced (r : TxRequest) (outputs : OutputMap) (tx : Tx) : Prop where
  hasInput : tx.inputs ≠ []
  chosen : ∃ k, tx.outpoints = (outputs.toList.take k).map Prod.fst
  requested : ∃ change, tx.outputs = r.outputs ++ change
  fits : tx.outputTotal < 18446744073709551616
  even : tx.spentTotal outputs = tx.outputTotal

/-- What a request comes to has distinct inputs, all known, and spends what it makes. -/
theorem balanced_of_build {r : TxRequest} {outputs : OutputMap} {tx : Tx}
    (h : r.build outputs = .ok tx) : r.Balanced outputs tx := by
  obtain ⟨k, change, rfl, hleast, hworth, hchange⟩ := of_build_eq_ok h
  obtain ⟨hpos, hk, -⟩ := hleast.1
  constructor
  case hasInput =>
    intro hnil
    have hlength := congrArg List.length hnil
    rw [payment, List.length_map, List.length_take, List.length_nil] at hlength
    omega
  case chosen => exact ⟨k, r.outpoints_payment outputs k change⟩
  case requested => exact ⟨_, rfl⟩
  case fits =>
    rw [outputTotal_payment, hchange]
    exact hworth
  case even => rw [spentTotal_payment, outputTotal_payment, hchange]

/-- Selection spends no coin twice. -/
theorem Balanced.distinct {r : TxRequest} {outputs : OutputMap} {tx : Tx}
    (h : r.Balanced outputs tx) (houtputs : outputs.Built) : tx.outpoints.Nodup := by
  obtain ⟨k, houtpoints⟩ := h.chosen
  rw [houtpoints, List.map_take]
  exact houtputs.aligned.nodup_toList.sublist (List.take_sublist _ _)

/-- The inputs are coins of the map. -/
theorem Balanced.known {r : TxRequest} {outputs : OutputMap} {tx : Tx}
    (h : r.Balanced outputs tx) {input : TxInput} (hmem : input ∈ tx.inputs) :
    ∃ coin, outputs.find? input.outpoint = some coin := by
  obtain ⟨k, houtpoints⟩ := h.chosen
  have hmem : input.outpoint ∈ tx.outpoints := List.mem_map_of_mem hmem
  rw [houtpoints] at hmem
  obtain ⟨⟨o, coin⟩, hentry, rfl⟩ := List.mem_map.mp hmem
  exact ⟨coin, OutputMap.find?_of_mem_toList (List.mem_of_mem_take hentry)⟩

/-- Nothing is left to check but the scripts, whatever these are. -/
theorem Balanced.valid {r : TxRequest} {outputs : OutputMap} {tx final : Tx}
    (h : r.Balanced outputs tx) (houtputs : outputs.Built) (hrequest : r.outputs ≠ [])
    (houtpoints : final.outpoints = tx.outpoints) (hcreated : final.outputs = tx.outputs)
    (hsatisfied : ∀ i input, final.inputs[i]? = some input → final.Satisfies outputs i input) :
    final.Valid outputs := by
  obtain ⟨change, hrequested⟩ := h.requested
  have hspent : final.spentTotal outputs = tx.outputTotal := by
    rw [Tx.spentTotal, houtpoints]
    exact h.even
  have hmade : final.outputTotal = tx.outputTotal := by
    rw [Tx.outputTotal, hcreated, Tx.outputTotal]
  -- outpoints and outputs are those of the draft, so only the scripts have to be satisfied
  -- anew
  constructor
  case hasInput =>
    intro hnil
    rw [Tx.outpoints, hnil, List.map_nil, eq_comm, Tx.outpoints, List.map_eq_nil_iff] at houtpoints
    exact h.hasInput houtpoints
  case hasOutput =>
    rw [hcreated, hrequested]
    simp [hrequest]
  case distinct =>
    rw [houtpoints]
    exact h.distinct houtputs
  case satisfied => exact hsatisfied
  case spentFits =>
    rw [hspent]
    exact h.fits
  case createdFits =>
    rw [hmade]
    exact h.fits
  case covers => exact Nat.le_of_eq (hmade.trans hspent.symm)

/-! ## Build, sign, verify -/

/-- For each input there is a key in the ring, since its coin is owned. -/
theorem Balanced.exists_task {r : TxRequest} {outputs : OutputMap} {ring : KeyRing} {tx : Tx}
    (h : r.Balanced outputs tx) (howned : ring.Owns outputs) {i : Nat}
    (hi : i < tx.inputs.length) :
    ∃ task, tx.signingTask? outputs ring i = some task ∧ task.pair.IsDerived := by
  obtain ⟨coin, hcoin⟩ := h.known (List.getElem_mem hi)
  obtain ⟨hash, pair, hscript, hpair, hderived⟩ := howned _ coin hcoin
  exact ⟨⟨pair, _⟩, Tx.signingTask?_eq_some_iff.mpr
    ⟨tx.inputs[i], coin, hash, List.getElem?_eq_getElem hi, hcoin, hscript, hpair, rfl⟩, hderived⟩

/-- **What is built can be signed, and what is signed is valid.** Every coin is paid
to a key of the ring, and something is requested. If coins are found for it, then all
inputs can be signed, and the signed transaction passes every check. -/
theorem built_tx_is_signed_and_valid {r : TxRequest} {outputs : OutputMap} {ring : KeyRing}
    {tx : Tx} (houtputs : outputs.Built) (hring : ring.Built) (howned : ring.Owns outputs)
    (hcorrect : ∀ index task, tx.signingTask? outputs ring index = some task →
      Ecdsa.CorrectAt task.pair.privateKey task.digest)
    (hrequest : r.outputs ≠ []) (hbuild : r.build outputs = .ok tx) :
    ∃ signer, (Signer.start tx).signAll outputs ring = (.ok (), signer) ∧
      ∀ cache : SighashCache, cache.BelongsTo signer.tx →
        (signer.tx.verify outputs cache).1 = .ok () := by
  have hbalanced := balanced_of_build hbuild
  obtain ⟨signer, hrun, hsigned⟩ :=
    Signer.signAll_of_tasks fun i hi => (hbalanced.exists_task howned hi).imp fun _ h => h.1
  refine ⟨signer, hrun, fun cache hcache => ?_⟩
  have houtpoints : signer.tx.outpoints = tx.outpoints := by
    rw [hsigned.tx_eq, Tx.outpoints_withUnlocks]
  have hcreated : signer.tx.outputs = tx.outputs := by
    rw [hsigned.tx_eq]
    rfl
  have hlength : signer.tx.inputs.length = tx.inputs.length := by
    simpa [Tx.outpoints] using congrArg List.length houtpoints
  -- every input was signed, so each passes the check, and a check that passes is satisfied
  have hvalid : signer.tx.Valid outputs := by
    refine hbalanced.valid houtputs hrequest houtpoints hcreated fun i input hinput => ?_
    obtain ⟨hi, -⟩ := List.getElem?_eq_some_iff.mp hinput
    rw [hlength] at hi
    obtain ⟨task, htask, hderived⟩ := hbalanced.exists_task howned hi
    have hpass := Signer.checkInput_of_hasSigned hsigned hring (List.mem_range.mpr hi) htask
      hderived (hcorrect i task htask) (SighashCache.empty_belongsTo signer.tx)
    obtain ⟨input', hinput', hsatisfies⟩ := (signer.tx.checkInput_eq_ok_iff outputs i).mp hpass
    rw [hinput] at hinput'
    exact Option.some.inj hinput' ▸ hsatisfies
  rw [(signer.tx.settled_verify outputs cache hcache).1]
  exact (signer.tx.verify_eq_ok_iff_valid outputs).mpr hvalid

end TxRequest

namespace WalletSample

/-- Ten are requested of five and seven. -/
def request : TxRequest := ⟨[⟨10, .empty⟩], .payToKeyHash firstHash, 0⟩

/-- Both coins pay to a key of the ring. -/
theorem owns : (KeyRing.ofPairs pairs).Owns coins := by
  have hring : ∀ hash ∈ [firstHash, secondHash],
      ∃ pair ∈ pairs, (KeyRing.ofPairs pairs).find? hash = some pair := by
    decide +kernel
  have hscript (hash : KeyHash) (value : UInt64) (hmem : hash ∈ [firstHash, secondHash]) :
      ∃ hash' pair, (TxOutput.mk value (.payToKeyHash hash)).script = .payToKeyHash hash' ∧
        (KeyRing.ofPairs pairs).find? hash' = some pair ∧ pair.IsDerived := by
    obtain ⟨pair, hfiled, hfind⟩ := hring hash hmem
    exact ⟨hash, pair, rfl, hfind, KeyPairSample.isDerived pair hfiled⟩
  intro o coin hfind
  rw [coins, OutputMap.find?_insert, OutputMap.find?_insert] at hfind
  split at hfind
  · cases hfind
    exact hscript secondHash 7 (by simp)
  · split at hfind
    · cases hfind
      exact hscript firstHash 5 (by simp)
    · cases hfind

end WalletSample

open WalletSample in
theorem TxRequest.built_tx_is_signed_and_valid_sample :
    request.build coins = .ok draft ∧ (KeyRing.ofPairs pairs).Owns coins ∧
      (∀ index task, draft.signingTask? coins (.ofPairs pairs) index = some task →
        Ecdsa.CorrectAt task.pair.privateKey task.digest) ∧
      ∃ signer, (Signer.start draft).signAll coins (.ofPairs pairs) = (.ok (), signer) ∧
        (signer.tx.verify coins .empty).1 = .ok () := by
  have hbuild : request.build coins = .ok draft := by rfl
  have hcoins : coins.Built := (OutputMap.Built.empty.insert _ _).insert _ _
  obtain ⟨signer, hrun, hverify⟩ := built_tx_is_signed_and_valid hcoins
    (KeyRing.built_ofPairs pairs) owns correctAt (by decide) hbuild
  exact ⟨hbuild, owns, correctAt, signer, hrun,
    hverify .empty (SighashCache.empty_belongsTo signer.tx)⟩

end UtxoLedger
