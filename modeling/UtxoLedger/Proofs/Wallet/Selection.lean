/-
UtxoLedger.Proofs.Wallet.Selection — a payment takes the shortest front part of the map that
covers it.

Selection stops at the first place where the coins taken are enough: they cover what is
needed, and there is at least one (`Enough`). `select_eq` says what it comes to for the place
where it stops, whatever that is: the inputs of the coins before that place, and their sum,
which is given up exactly if it does not fit in 64 bits. The induction is on the coins up to
that place, for any coins taken before; none of the places before it is enough, so the loop
goes on there.

From the start there are two kinds of places to stop at. Either it is the least number of
coins that cover the request (`coverings`), or all coins together do not, and selection comes
to their end. A sum before the place is below what is needed, and so fits; only the last coin
can make it too large. `build_cases` lists what a request can come to, each case with the sums
that lead to it, and with the whole transaction (`payment`) where there is one.
-/
import Mathlib.Order.Nat
import UtxoLedger.Proofs.Amounts
import UtxoLedger.Proofs.Outputs.Slots
import UtxoLedger.Wallet.Funding

namespace UtxoLedger

/-- The values of coins that are listed with their outpoints. -/
def Coin.values (coins : List (Outpoint × Coin)) : List UInt64 :=
  coins.map fun entry => entry.2.output.value

/-- The exact sum of the first `k` coins of the map. -/
def OutputMap.worth (m : OutputMap) (k : Nat) : Nat :=
  Value.exactSum (Coin.values (m.toList.take k))

namespace TxRequest

/-! ## The loop -/

/-- With the first `k` of the coins that are left, the coins taken cover what is needed, and
there is at least one. -/
def Enough (needed available : UInt64) (taken : List TxInput) (coins : List (Outpoint × Coin))
    (k : Nat) : Prop :=
  needed.toNat ≤ available.toNat + Value.exactSum (Coin.values (coins.take k)) ∧
    (taken ≠ [] ∨ 0 < k)

/-- The inputs behind those taken, with a sum that may not fit. -/
def selected (taken : List TxInput) (coins : List (Outpoint × Coin)) :
    Option UInt64 → Except Error (List TxInput × UInt64)
  | some total => .ok (taken.reverse ++ coins.map (fun entry => unsigned entry.1), total)
  | none => .error .valueOverflow

/-- The test that the loop makes before it takes another coin. -/
theorem enough_zero_iff {needed available : UInt64} {taken : List TxInput}
    {coins : List (Outpoint × Coin)} :
    Enough needed available taken coins 0 ↔ needed ≤ available ∧ taken ≠ [] := by
  simp [Enough, Coin.values, UInt64.le_iff_toNat_le]

/-- The same place, seen from behind the next coin. -/
theorem enough_succ_iff {needed available next : UInt64} {taken : List TxInput} {o : Outpoint}
    {coin : Coin} {rest : List (Outpoint × Coin)} {k : Nat}
    (hnext : Value.add? available coin.output.value = some next) :
    Enough needed available taken ((o, coin) :: rest) (k + 1) ↔
      Enough needed next (unsigned o :: taken) rest k := by
  rw [Value.add?_eq_some_iff] at hnext
  simp [Enough, Coin.values, hnext, Nat.add_assoc]

/-- By induction on the coins up to the place `k` where the loop stops. That no place before
it is enough keeps the loop going there. -/
theorem select_eq {needed : UInt64} : ∀ {k : Nat} {coins : List (Outpoint × Coin)}
    {available : UInt64} {taken : List TxInput},
      k ≤ coins.length → (∀ j < k, ¬ Enough needed available taken coins j) →
      (k = coins.length ∨ Enough needed available taken coins k) →
        select needed available taken coins =
          selected taken (coins.take k) (Value.sumFrom? available (Coin.values (coins.take k)))
  | 0, [], available, taken, _, _, _ => by simp [select, selected, Coin.values, Value.sumFrom?]
  | 0, (o, coin) :: rest, available, taken, _, _, hstops => by
      have henough := enough_zero_iff.mp (hstops.resolve_left (Nat.succ_ne_zero _).symm)
      rw [select, if_pos henough]
      simp [selected, Coin.values, Value.sumFrom?]
  | k + 1, (o, coin) :: rest, available, taken, hk, hbefore, hstops => by
      have hmore : ¬ (needed ≤ available ∧ taken ≠ []) := fun h =>
        hbefore 0 (Nat.succ_pos k) (enough_zero_iff.mpr h)
      rw [select, if_neg hmore, List.take_succ_cons, Coin.values, List.map_cons, Value.sumFrom?]
      -- a sum that does not fit here is missing on both sides, since it is the same partial
      -- sum
      cases hnext : Value.add? available coin.output.value with
      | none => rfl
      | some next =>
        have ih : select needed next (unsigned o :: taken) rest =
            selected (unsigned o :: taken) (rest.take k)
              (Value.sumFrom? next (Coin.values (rest.take k))) :=
          select_eq (Nat.le_of_succ_le_succ hk)
            (fun j hj h => hbefore (j + 1) (Nat.succ_lt_succ hj) ((enough_succ_iff hnext).mpr h))
            (hstops.imp Nat.succ.inj (enough_succ_iff hnext).mp)
        dsimp only
        rw [ih, Coin.values]
        cases Value.sumFrom? next ((rest.take k).map fun entry => entry.2.output.value) with
        | none => rfl
        | some total => simp [selected]

/-! ## Where it stops -/

/-- The exact sum of the requested values. -/
def need (r : TxRequest) : Nat := Value.exactSum (r.outputs.map TxOutput.value)

/-- How many coins from the front of the map, one at least, cover the request. -/
def coverings (r : TxRequest) (outputs : OutputMap) : Set Nat :=
  { k | 0 < k ∧ k ≤ outputs.toList.length ∧ r.need ≤ outputs.worth k }

/-- If some number of coins covers the request, there is a least one. -/
theorem exists_isLeast_coverings {r : TxRequest} {outputs : OutputMap} {k : Nat}
    (h : k ∈ r.coverings outputs) : ∃ least, IsLeast (r.coverings outputs) least := by
  classical
  have hsome : (r.coverings outputs).Nonempty := ⟨k, h⟩
  exact ⟨_, hsome.isLeast_natFind⟩

/-- Covering the request is what the loop tests from its start. -/
theorem mem_coverings_iff {r : TxRequest} {outputs : OutputMap} {needed : UInt64}
    (hneeded : needed.toNat = r.need) {k : Nat} (hk : k ≤ outputs.toList.length) :
    k ∈ r.coverings outputs ↔ Enough needed 0 [] outputs.toList k := by
  show (0 < k ∧ k ≤ outputs.toList.length ∧ r.need ≤ outputs.worth k) ↔ _
  simp [Enough, OutputMap.worth, hneeded, hk, and_comm]

/-- Selection takes the least number of coins that cover the request. -/
theorem select_of_isLeast {r : TxRequest} {outputs : OutputMap} {needed : UInt64}
    (hneeded : needed.toNat = r.need) {k : Nat} (hleast : IsLeast (r.coverings outputs) k) :
    select needed 0 [] outputs.toList =
      selected [] (outputs.toList.take k) (Value.sum? (Coin.values (outputs.toList.take k))) := by
  have hk : k ≤ outputs.toList.length := hleast.1.2.1
  refine select_eq hk (fun j hj henough => ?_) (Or.inr ((mem_coverings_iff hneeded hk).mp hleast.1))
  have hmem := (mem_coverings_iff hneeded (Nat.le_trans (Nat.le_of_lt hj) hk)).mpr henough
  exact Nat.not_le.mpr hj (hleast.2 hmem)

/-- Where nothing covers the request, selection takes all coins. -/
theorem select_of_uncovered {r : TxRequest} {outputs : OutputMap} {needed : UInt64}
    (hneeded : needed.toNat = r.need) (hnone : ∀ k, k ∉ r.coverings outputs) :
    select needed 0 [] outputs.toList =
      selected [] outputs.toList (Value.sum? (Coin.values outputs.toList)) := by
  have hall : select needed 0 [] outputs.toList =
      selected [] (outputs.toList.take outputs.toList.length)
        (Value.sum? (Coin.values (outputs.toList.take outputs.toList.length))) :=
    select_eq (Nat.le_refl _)
      (fun j hj henough => hnone j ((mem_coverings_iff hneeded (Nat.le_of_lt hj)).mpr henough))
      (Or.inl rfl)
  rwa [List.take_length] at hall

/-- What does not cover the request is not worth more than it; if it is worth as much, there
is no coin. -/
theorem short_of_uncovered {r : TxRequest} {outputs : OutputMap}
    (hnone : ∀ k, k ∉ r.coverings outputs) :
    Value.exactSum (Coin.values outputs.toList) < r.need ∨ outputs.toList = [] := by
  rcases Nat.eq_zero_or_pos outputs.toList.length with hempty | hpos
  · exact Or.inr (List.length_eq_zero_iff.mp hempty)
  · refine Or.inl (Nat.lt_of_not_le fun hle => hnone _ ⟨hpos, Nat.le_refl _, ?_⟩)
    rwa [OutputMap.worth, List.take_length]

/-! ## The transaction -/

/-- The transaction that spends the first `k` coins, unsigned, and creates what is requested and
the change. -/
def payment (r : TxRequest) (outputs : OutputMap) (k : Nat) (change : UInt64) : Tx :=
  ⟨Tx.currentVersion, (outputs.toList.take k).map fun entry => unsigned entry.1,
    r.outputs ++ r.change change, r.lockAbs⟩

theorem outpoints_payment (r : TxRequest) (outputs : OutputMap) (k : Nat) (change : UInt64) :
    (r.payment outputs k change).outpoints = (outputs.toList.take k).map Prod.fst := by
  rw [Tx.outpoints, payment, List.map_map]
  rfl

/-- The values of a front part of the list are what the map has under its outpoints. -/
theorem spentTotal_payment (r : TxRequest) (outputs : OutputMap) (k : Nat) (change : UInt64) :
    (r.payment outputs k change).spentTotal outputs = outputs.worth k := by
  rw [Tx.spentTotal, outpoints_payment, OutputMap.worth, Value.exactSum, Coin.values, List.map_map,
    List.map_map]
  congr 1
  apply List.map_congr_left
  intro entry hmem
  exact OutputMap.valueAt_of_find? (OutputMap.find?_of_mem_toList (List.mem_of_mem_take hmem))

theorem exactSum_change (r : TxRequest) (value : UInt64) :
    Value.exactSum ((r.change value).map TxOutput.value) = value.toNat := by
  unfold change
  split
  · rename_i hzero
    simp [hzero]
  · simp

/-- The change is an output only if it is not zero, which the sum does not show. -/
theorem outputTotal_payment (r : TxRequest) (outputs : OutputMap) (k : Nat) (change : UInt64) :
    (r.payment outputs k change).outputTotal = change.toNat + r.need := by
  have hchange := r.exactSum_change change
  rw [Value.exactSum] at hchange
  rw [Tx.outputTotal, payment, Value.exactSum, List.map_append, List.map_append, List.sum_append,
    hchange, Nat.add_comm]
  rfl

/-- The outputs are added up before any coin is looked at. -/
theorem build_of_overflow {r : TxRequest} (outputs : OutputMap)
    (h : 18446744073709551616 ≤ r.need) : r.build outputs = .error .valueOverflow := by
  rw [build, (Value.sum?_eq_none_iff _).mpr h]

/-- Where the least number of coins that cover the request is known, all depends on their sum. -/
theorem build_of_isLeast {r : TxRequest} {outputs : OutputMap}
    (hfits : r.need < 18446744073709551616) {k : Nat}
    (hleast : IsLeast (r.coverings outputs) k) :
    (18446744073709551616 ≤ outputs.worth k → r.build outputs = .error .valueOverflow) ∧
      (outputs.worth k < 18446744073709551616 →
        ∃ change : UInt64, change.toNat + r.need = outputs.worth k ∧
          r.build outputs = .ok (r.payment outputs k change)) := by
  obtain ⟨needed, hsum, hneeded⟩ := Value.exists_sum? hfits
  have hselect := select_of_isLeast hneeded hleast
  obtain ⟨hpos, hk, hcovers⟩ := hleast.1
  constructor
  · intro hlarge
    rw [(Value.sum?_eq_none_iff _).mpr hlarge] at hselect
    simp only [build, hsum, hselect, selected]
  · intro hworth
    obtain ⟨available, havailable, htotal⟩ := Value.exists_sum? hworth
    have htotal : available.toNat = outputs.worth k := htotal
    have hle : needed ≤ available := by
      rw [UInt64.le_iff_toNat_le, hneeded, htotal]
      exact hcovers
    -- at least one coin is taken, also where nothing is needed
    have hinputs : (outputs.toList.take k).map (fun entry => unsigned entry.1) ≠ [] := by
      intro hnil
      have hlength := congrArg List.length hnil
      rw [List.length_map, List.length_take, List.length_nil] at hlength
      omega
    refine ⟨available - needed, ?_, ?_⟩
    · rw [UInt64.toNat_sub_of_le _ _ hle, htotal, hneeded]
      exact Nat.sub_add_cancel hcovers
    · rw [havailable] at hselect
      have henough : ¬ (available < needed ∨
          (outputs.toList.take k).map (fun entry => unsigned entry.1) = []) :=
        not_or.mpr ⟨UInt64.not_lt.mpr hle, hinputs⟩
      simp only [build, payment, hsum, hselect, selected, List.reverse_nil, List.nil_append,
        if_neg henough]

/-- The error names all that there is and what is needed, both exact. -/
theorem build_of_uncovered {r : TxRequest} {outputs : OutputMap}
    (hfits : r.need < 18446744073709551616) (hnone : ∀ k, k ∉ r.coverings outputs) :
    ∃ available needed : UInt64,
      r.build outputs = .error (.insufficientFunds available needed) ∧
        available.toNat = Value.exactSum (Coin.values outputs.toList) ∧ needed.toNat = r.need := by
  obtain ⟨needed, hsum, hneeded⟩ := Value.exists_sum? hfits
  have hshort := short_of_uncovered hnone
  -- all coins together are below what is needed, so their sum fits
  have htotal : Value.exactSum (Coin.values outputs.toList) < 18446744073709551616 := by
    rcases hshort with hless | hempty
    · exact Nat.lt_trans hless hfits
    · simp [hempty, Coin.values]
  obtain ⟨available, havailable, hworth⟩ := Value.exists_sum? htotal
  have hselect := select_of_uncovered hneeded hnone
  rw [havailable] at hselect
  refine ⟨available, needed, ?_, hworth, hneeded⟩
  have hfails : available < needed ∨
      outputs.toList.map (fun entry => unsigned entry.1) = [] := by
    refine hshort.imp (fun hless => ?_) (fun hempty => ?_)
    · rw [UInt64.lt_iff_toNat_lt, hworth, hneeded]
      exact hless
    · rw [hempty, List.map_nil]
  simp only [build, hsum, hselect, selected, List.reverse_nil, List.nil_append, if_pos hfails]

/-- What a request comes to. -/
theorem build_cases (r : TxRequest) (outputs : OutputMap) :
    (r.build outputs = .error .valueOverflow ∧
      (18446744073709551616 ≤ r.need ∨
        ∃ k, IsLeast (r.coverings outputs) k ∧ 18446744073709551616 ≤ outputs.worth k)) ∨
    (∃ available needed : UInt64,
      r.build outputs = .error (.insufficientFunds available needed) ∧
        available.toNat = Value.exactSum (Coin.values outputs.toList) ∧ needed.toNat = r.need ∧
        r.need < 18446744073709551616 ∧ ¬ ∃ k, IsLeast (r.coverings outputs) k) ∨
    ∃ k change, r.build outputs = .ok (r.payment outputs k change) ∧
      IsLeast (r.coverings outputs) k ∧ outputs.worth k < 18446744073709551616 ∧
      change.toNat + r.need = outputs.worth k := by
  rcases Nat.lt_or_ge r.need 18446744073709551616 with hfits | hlarge
  · by_cases hcovered : ∃ k, IsLeast (r.coverings outputs) k
    · obtain ⟨k, hleast⟩ := hcovered
      obtain ⟨hoverflow, hbuilt⟩ := build_of_isLeast hfits hleast
      rcases Nat.lt_or_ge (outputs.worth k) 18446744073709551616 with hworth | hlarge
      · obtain ⟨change, hchange, hbuild⟩ := hbuilt hworth
        exact Or.inr (Or.inr ⟨k, change, hbuild, hleast, hworth, hchange⟩)
      · exact Or.inl ⟨hoverflow hlarge, Or.inr ⟨k, hleast, hlarge⟩⟩
    · obtain ⟨available, needed, hbuild, havailable, hneeded⟩ :=
        build_of_uncovered hfits fun k hmem => hcovered (exists_isLeast_coverings hmem)
      exact Or.inr (Or.inl ⟨available, needed, hbuild, havailable, hneeded, hfits, hcovered⟩)
  · exact Or.inl ⟨build_of_overflow outputs hlarge, Or.inl hlarge⟩

/-- A transaction is only made in one of the cases. -/
theorem of_build_eq_ok {r : TxRequest} {outputs : OutputMap} {tx : Tx}
    (h : r.build outputs = .ok tx) :
    ∃ k change, tx = r.payment outputs k change ∧ IsLeast (r.coverings outputs) k ∧
      outputs.worth k < 18446744073709551616 ∧ change.toNat + r.need = outputs.worth k := by
  rcases r.build_cases outputs with ⟨hbuild, -⟩ | ⟨_, _, hbuild, -⟩ | ⟨k, change, hbuild, hrest⟩
  · cases h.symm.trans hbuild
  · cases h.symm.trans hbuild
  · exact ⟨k, change, Except.ok.inj (h.symm.trans hbuild), hrest⟩

/-! ## Exact selection -/

/-- The transaction spends the first `k` coins and no others, unsigned and unlocked, and
creates what is requested. What the coins are worth beyond that goes to the change script, in
an output of its own behind the others, unless it is nothing. -/
structure SpendsFirst (r : TxRequest) (outputs : OutputMap) (k : Nat) (tx : Tx) : Prop where
  inputs_eq : tx.inputs = (outputs.toList.take k).map fun entry => ⟨entry.1, .empty, 0⟩
  distinct : tx.outpoints.Nodup
  outputs_eq : ∃ change : UInt64, change.toNat + r.need = outputs.worth k ∧
    tx.outputs = r.outputs ++ if 0 < change then [⟨change, r.changeScript⟩] else []
  lockAbs_eq : tx.lockAbs = r.lockAbs
  even : tx.spentTotal outputs = tx.outputTotal

theorem change_eq (r : TxRequest) (value : UInt64) :
    r.change value = if 0 < value then [⟨value, r.changeScript⟩] else [] := by
  unfold change
  by_cases hzero : value = 0
  · simp [hzero]
  · rw [if_neg hzero, if_pos (UInt64.pos_iff_ne_zero.mpr hzero)]

theorem nodup_outpoints_payment (r : TxRequest) {outputs : OutputMap} (houtputs : outputs.Built)
    (k : Nat) (change : UInt64) : (r.payment outputs k change).outpoints.Nodup := by
  rw [outpoints_payment, List.map_take]
  exact houtputs.aligned.nodup_toList.sublist (List.take_sublist _ _)

theorem spendsFirst_payment {r : TxRequest} {outputs : OutputMap} (houtputs : outputs.Built)
    {k : Nat} {change : UInt64} (hchange : change.toNat + r.need = outputs.worth k) :
    r.SpendsFirst outputs k (r.payment outputs k change) where
  inputs_eq := rfl
  distinct := r.nodup_outpoints_payment houtputs k change
  outputs_eq := ⟨change, hchange, by rw [← change_eq]; rfl⟩
  lockAbs_eq := rfl
  even := by rw [spentTotal_payment, outputTotal_payment, hchange]

/-- **Coin selection is exact.** A request is given up as an overflow exactly if its own sum
does not fit in 64 bits or the sum of the coins that are taken does not; it fails for want of
funds exactly if no front part of the map covers it, and then names both exact sums. In all
other cases the transaction spends the shortest front part that covers the request, and
creates exactly what it spends. -/
theorem build_takes_shortest_front (r : TxRequest) {outputs : OutputMap}
    (houtputs : outputs.Built) :
    (r.build outputs = .error .valueOverflow ↔
      18446744073709551616 ≤ r.need ∨
        ∃ k, IsLeast (r.coverings outputs) k ∧ 18446744073709551616 ≤ outputs.worth k) ∧
    ((∃ available needed, r.build outputs = .error (.insufficientFunds available needed)) ↔
      r.need < 18446744073709551616 ∧ ¬ ∃ k, IsLeast (r.coverings outputs) k) ∧
    (∀ available needed, r.build outputs = .error (.insufficientFunds available needed) →
      available.toNat = Value.exactSum (Coin.values outputs.toList) ∧ needed.toNat = r.need) ∧
    (∀ k, r.need < 18446744073709551616 → IsLeast (r.coverings outputs) k →
      outputs.worth k < 18446744073709551616 →
        ∃ tx, r.build outputs = .ok tx ∧ r.SpendsFirst outputs k tx) := by
  refine ⟨⟨fun h => ?_, ?_⟩, ⟨?_, ?_⟩, fun available needed h => ?_,
    fun k hfits hleast hworth => ?_⟩
  · rcases r.build_cases outputs with ⟨-, hlarge⟩ | ⟨_, _, hbuild, -⟩ | ⟨_, _, hbuild, -⟩
    · exact hlarge
    · cases h.symm.trans hbuild
    · cases h.symm.trans hbuild
  · rintro (hlarge | ⟨k, hleast, hlarge⟩)
    · exact build_of_overflow outputs hlarge
    · rcases Nat.lt_or_ge r.need 18446744073709551616 with hfits | hneed
      · exact (build_of_isLeast hfits hleast).1 hlarge
      · exact build_of_overflow outputs hneed
  · rintro ⟨_, _, h⟩
    rcases r.build_cases outputs with ⟨hbuild, -⟩ | ⟨_, _, -, -, -, hshort⟩ | ⟨_, _, hbuild, -⟩
    · cases h.symm.trans hbuild
    · exact hshort
    · cases h.symm.trans hbuild
  · rintro ⟨hfits, hnone⟩
    obtain ⟨available, needed, hbuild, -⟩ :=
      build_of_uncovered hfits fun k hmem => hnone (exists_isLeast_coverings hmem)
    exact ⟨available, needed, hbuild⟩
  · rcases r.build_cases outputs with ⟨hbuild, -⟩ | ⟨_, _, hbuild, hsums⟩ | ⟨_, _, hbuild, -⟩
    · cases h.symm.trans hbuild
    · cases h.symm.trans hbuild
      exact ⟨hsums.1, hsums.2.1⟩
    · cases h.symm.trans hbuild
  · obtain ⟨change, hchange, hbuild⟩ := (build_of_isLeast hfits hleast).2 hworth
    exact ⟨_, hbuild, spendsFirst_payment houtputs hchange⟩

/-! ### Two coins

One is worth five and the other seven, and ten are requested of them: both are needed. Beside
a coin that is worth almost all that a sum can hold, the second is one too many. -/

namespace SelectionSample

def pair (first second : UInt64) : OutputMap :=
  (OutputMap.empty.insert ⟨.zero, 0⟩ ⟨⟨first, .empty⟩, 3⟩).insert ⟨.zero, 1⟩ ⟨⟨second, .empty⟩, 3⟩

def asking (value : UInt64) : TxRequest := ⟨[⟨value, .empty⟩], .empty, 0⟩

theorem built_pair (first second : UInt64) : (pair first second).Built :=
  (OutputMap.Built.empty.insert _ _).insert _ _

theorem isLeast_two {r : TxRequest} {outputs : OutputMap} (htwo : 2 ∈ r.coverings outputs)
    (hone : outputs.worth 1 < r.need) : IsLeast (r.coverings outputs) 2 := by
  refine ⟨htwo, fun k hk => ?_⟩
  obtain ⟨hpos, -, hcovers⟩ := hk
  by_contra hless
  obtain rfl : k = 1 := by omega
  exact absurd hcovers (Nat.not_le.mpr hone)

end SelectionSample

open SelectionSample in
theorem build_takes_shortest_front_sample :
    (∃ tx, (asking 10).build (pair 5 7) = .ok tx ∧ (asking 10).SpendsFirst (pair 5 7) 2 tx) ∧
      (asking 18446744073709551615).build (pair 18446744073709551614 10) =
        .error .valueOverflow := by
  have hsmall : IsLeast ((asking 10).coverings (pair 5 7)) 2 :=
    isLeast_two ⟨by decide, by decide +kernel, by decide +kernel⟩ (by decide +kernel)
  have hlarge : IsLeast
      ((asking 18446744073709551615).coverings (pair 18446744073709551614 10)) 2 :=
    isLeast_two ⟨by decide, by decide +kernel, by decide +kernel⟩ (by decide +kernel)
  obtain ⟨-, -, -, hbuilt⟩ := build_takes_shortest_front (asking 10) (built_pair 5 7)
  obtain ⟨hoverflow, -⟩ := build_takes_shortest_front (asking 18446744073709551615)
    (built_pair 18446744073709551614 10)
  exact ⟨hbuilt 2 (by decide +kernel) hsmall (by decide +kernel),
    hoverflow.mpr (Or.inr ⟨2, hlarge, by decide +kernel⟩)⟩

end TxRequest

end UtxoLedger
