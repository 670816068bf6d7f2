/-
UtxoLedger.Proofs.Block.Locks — a lock that a script demands is kept by the block
that spends the output.

Four checks that do not know of each other meet here. The script is run against
the locks that the transaction and its input declare; the block is checked
against the declared locks.

  demanded by the script     declared                 kept by the block
  CHECKLOCKABSVERIFY    ≤    lock of the transaction   ≤   block number
  CHECKLOCKRELVERIFY    ≤    lock of the input         ≤   age of the output

* `Tx.checkLocks_eq_ok_iff` and `checkFinal_eq_ok_iff` are the right column, in
  exact numbers: an age that would not fit in 64 bits is refused.
* `Executes.le_lockAbs` and `Executes.le_lockRel` are the left one, for every place
  where a run executes such an opcode.
* `blockNum_of_created` and `find?_working_of_not_created` say at which block an
  output counts as created: at this one if a transaction before the spending one
  creates it, even where the given map knew it before.
-/
import UtxoLedger.Proofs.Block.SpendOnce
import UtxoLedger.Proofs.Script.Executed
import UtxoLedger.Proofs.Tx.Acceptance

namespace UtxoLedger

/-! ## The locks that transactions declare -/

namespace Tx

/-- The check in 64 bits is the exact one: a sum that does not fit is not reached. -/
theorem isUnlocked_eq_true_iff (coin : Coin) (lockRel : UInt32) (blockNum : UInt64) :
    isUnlocked coin lockRel blockNum = true ↔
      coin.blockNum.toNat + lockRel.toNat ≤ blockNum.toNat := by
  have hwiden : lockRel.toUInt64.toNat = lockRel.toNat := UInt32.toNat_toUInt64 lockRel
  unfold isUnlocked
  cases hsum : Value.add? coin.blockNum lockRel.toUInt64 with
  | some unlocksAt =>
    rw [Value.add?_eq_some_iff, hwiden] at hsum
    simp [UInt64.le_iff_toNat_le, hsum]
  | none =>
    -- the exact sum exceeds every block number
    rw [Value.add?_eq_none_iff, hwiden] at hsum
    have hfits := blockNum.toNat_lt
    simp only [Bool.false_eq_true, false_iff]
    omega

theorem checkLocksFrom_eq_ok_iff (outputs : OutputMap) (blockNum : UInt64) :
    ∀ (inputs : List TxInput) (index : Nat),
      checkLocksFrom outputs blockNum index inputs = .ok () ↔
        ∀ input ∈ inputs, ∃ coin, outputs.find? input.outpoint = some coin ∧
          coin.blockNum.toNat + input.lockRel.toNat ≤ blockNum.toNat
  | [], index => by simp [checkLocksFrom]
  | input :: rest, index => by
      rw [checkLocksFrom, List.forall_mem_cons]
      cases hfind : outputs.find? input.outpoint with
      | none => simp
      | some coin =>
        simp only [Option.some.injEq, exists_eq_left', ← isUnlocked_eq_true_iff]
        split
        · rename_i hunlocked
          rw [checkLocksFrom_eq_ok_iff outputs blockNum rest, and_iff_right hunlocked]
          simp only [isUnlocked_eq_true_iff]
        · rename_i hlocked
          simp [hlocked]

/-- Every spent output is as old at the block as its input asks. -/
theorem checkLocks_eq_ok_iff (tx : Tx) (outputs : OutputMap) (blockNum : UInt64) :
    tx.checkLocks outputs blockNum = .ok () ↔
      ∀ input ∈ tx.inputs, ∃ coin, outputs.find? input.outpoint = some coin ∧
        coin.blockNum.toNat + input.lockRel.toNat ≤ blockNum.toNat :=
  checkLocksFrom_eq_ok_iff outputs blockNum tx.inputs 0

/-! ## The run of an output's script -/

/-- The machine on which the script of a spent output starts: on its stack is what
the script of the input left there. -/
def unlockedMachine (tx : Tx) (index : Nat) (input : TxInput) (cache : SighashCache) : Machine :=
  let e := (Evaluation.start [] cache).run ⟨input.script, tx, index, 0⟩
  (Evaluation.start e.machine.stack e.machine.cache).machine

/-- The script starts on the items that were pushed, with the cache as it was. -/
theorem unlockedMachine_of_pushOnly {tx : Tx} {index : Nat} {input : TxInput}
    (cache : SighashCache) (h : input.script.isPushOnly = true) :
    tx.unlockedMachine index input cache =
      (Evaluation.start input.script.pushed.reverse cache).machine := by
  rw [unlockedMachine, (@Evaluation.run_pushOnly ⟨input.script, tx, index, 0⟩ cache h).2]

/-- In a valid transaction the run of every spent output's script ends without an
error, on each cache of the transaction. -/
theorem run_of_satisfies {tx : Tx} {outputs : OutputMap} {index : Nat} {input : TxInput}
    {coin : Coin} {cache : SighashCache} (h : tx.Satisfies outputs index input)
    (hcoin : outputs.find? input.outpoint = some coin) (hcache : cache.BelongsTo tx) :
    (runFrom ⟨coin.output.script, tx, index, coin.output.value⟩ coin.output.script.chunks
      (tx.unlockedMachine index input cache)).2 = none := by
  obtain ⟨coin', hcoin', hpush, herror, -⟩ := h
  obtain rfl : coin' = coin := Option.some.inj (hcoin'.symm.trans hcoin)
  obtain ⟨final, failure, hrun, heval⟩ := Evaluation.run_start
    ⟨coin'.output.script, tx, index, coin'.output.value⟩ input.script.pushed.reverse .empty
  rw [heval] at herror
  obtain rfl : failure = none := herror
  have hempty := SighashCache.empty_belongsTo tx
  have halike : (tx.unlockedMachine index input cache).Alike tx
      (Evaluation.start input.script.pushed.reverse .empty).machine := by
    rw [unlockedMachine_of_pushOnly cache hpush]
    exact ⟨rfl, hcache, hempty⟩
  have hsame := (@runFrom_alike ⟨coin'.output.script, tx, index, coin'.output.value⟩
    coin'.output.script.chunks _ _ halike).2
  rw [hsame, hrun]

end Tx

/-! ## When an output counts as created -/

namespace OutputMap

/-- An output of the transaction is found with the number of its block, whatever
was under its outpoint before. -/
theorem blockNum_insertOutputs (txId : Digest) (blockNum : UInt64) {o : Outpoint} {coin : Coin}
    (hid : o.txId = txId) :
    ∀ (outputs : List TxOutput) (index : Nat) (m : OutputMap),
      index ≤ o.index.toNat → o.index.toNat < index + outputs.length →
        (insertOutputs txId blockNum index outputs m).find? o = some coin →
          coin.blockNum = blockNum
  | [], index, _, hle, hlt, _ => by
      rw [List.length_nil] at hlt
      omega
  | output :: rest, index, m, hle, hlt, h => by
      rw [insertOutputs] at h
      rw [List.length_cons] at hlt
      rcases Nat.eq_or_lt_of_le hle with hindex | hindex
      · have ho : (⟨txId, UInt32.ofNat index⟩ : Outpoint) = o := by
          rw [hindex, UInt32.ofNat_toNat, ← hid]
        rcases origin_insertOutputs txId blockNum o coin rest (index + 1) _ h with
          hfound | ⟨-, -, hnew⟩
        · rw [ho, find?_insert_self] at hfound
          rw [← Option.some.inj hfound]
        · exact hnew
      · exact blockNum_insertOutputs txId blockNum hid rest (index + 1) _ hindex (by omega) h

theorem blockNum_insertTx {m : OutputMap} {tx : Tx} {blockNum : UInt64} {o : Outpoint}
    {coin : Coin} (hnames : o.NamesOutputOf tx)
    (h : (m.insertTx tx blockNum).find? o = some coin) : coin.blockNum = blockNum := by
  have hlt : o.index.toNat < 0 + tx.outputs.length := by
    rw [Nat.zero_add]
    exact hnames.2
  exact blockNum_insertOutputs tx.id blockNum hnames.1 tx.outputs 0 m (Nat.zero_le _) hlt h

end OutputMap

namespace Block

section Working

variable {b : Block} {outputs : OutputMap} {o : Outpoint} {coin : Coin} {i : Nat}

/-- An output that the block creates before position `i` is recorded there at the
block's own number. -/
theorem blockNum_of_created {k : Nat} {tx : Tx} (hki : k < i) (hat : b.txs[k]? = some tx)
    (hnames : o.NamesOutputOf tx) (h : (b.working outputs i).find? o = some coin) :
    coin.blockNum = b.header.blockNum := by
  rcases find?_working (k + 1) hki h with hnext | ⟨-, -, -, -, -, -, hnew⟩
  · by_cases hk : k = 0
    · subst hk
      rw [working_first outputs hat] at hnext
      exact OutputMap.blockNum_insertTx hnames hnext
    · rw [working_succ outputs (Nat.pos_of_ne_zero hk) hat] at hnext
      exact OutputMap.blockNum_insertTx hnames hnext
  · exact hnew

/-- Any other entry is the one of the given map. -/
theorem find?_working_of_not_created
    (hnew : ∀ k tx, k < i → b.txs[k]? = some tx → ¬ o.NamesOutputOf tx)
    (h : (b.working outputs i).find? o = some coin) : outputs.find? o = some coin := by
  rcases find?_working 0 (Nat.zero_le i) h with hgiven | ⟨k, tx, -, hki, hat, hnames, -⟩
  · exact hgiven
  · exact absurd hnames (hnew k tx hki hat)

end Working

/-! ## What an accepted block says of declared locks -/

/-- All transactions that are left are final. -/
theorem checkFinalFrom_eq_ok_iff (blockNum : UInt64) : ∀ (txs : List Tx) (index : Nat),
    checkFinalFrom blockNum index txs = .ok () ↔ ∀ tx ∈ txs, tx.lockAbs.toNat ≤ blockNum.toNat
  | [], index => by simp [checkFinalFrom]
  | tx :: rest, index => by
      rw [checkFinalFrom, List.forall_mem_cons]
      split
      · rename_i hlocked
        rw [UInt64.lt_iff_toNat_lt] at hlocked
        simp only [reduceCtorEq, false_iff, not_and]
        omega
      · rename_i hfinal
        rw [UInt64.lt_iff_toNat_lt, Nat.not_lt] at hfinal
        rw [checkFinalFrom_eq_ok_iff blockNum rest, and_iff_right hfinal]

/-- The first transaction is not looked at. -/
theorem checkFinal_eq_ok_iff (b : Block) :
    b.checkFinal = .ok () ↔
      ∀ i tx, 0 < i → b.txs[i]? = some tx → tx.lockAbs.toNat ≤ b.header.blockNum.toNat := by
  rw [checkFinal, checkFinalFrom_eq_ok_iff]
  constructor
  · intro h i tx hi hat
    have hdrop : (b.txs.drop 1)[i - 1]? = some tx := by
      rw [List.getElem?_drop, Nat.add_sub_cancel' hi]
      exact hat
    exact h tx (List.mem_of_getElem? hdrop)
  · intro h tx hmem
    obtain ⟨i, hat⟩ := List.mem_iff_getElem?.mp hmem
    rw [List.getElem?_drop] at hat
    exact h (1 + i) tx (by omega) hat

/-! ## What it says of the locks in scripts -/

/-- **Locks written in scripts are kept.** In an accepted block, take any input
behind the coinbase and the coin that it spends. Wherever the coin's script, run on
what the input's script left, executes a check of an absolute lock, the number on
top is at most the number of the block; wherever it executes one of a relative
lock, the coin was created at least as many blocks before. A coin of the same block
counts as created at the block's number. -/
theorem script_locks_are_kept {b : Block} {outputs : OutputMap} {i index : Nat} {tx : Tx}
    {input : TxInput} (h : b.verify outputs = .ok ()) (hat : b.txs[i]? = some tx)
    (hspends : tx.isCoinbase = false) (hinput : tx.inputs[index]? = some input) :
    ∃ coin, (b.working outputs i).find? input.outpoint = some coin ∧
      (∀ k tx', k < i → b.txs[k]? = some tx' → input.outpoint.NamesOutputOf tx' →
        coin.blockNum = b.header.blockNum) ∧
      ((∀ k tx', k < i → b.txs[k]? = some tx' → ¬ input.outpoint.NamesOutputOf tx') →
        outputs.find? input.outpoint = some coin) ∧
      ∀ cache : SighashCache, cache.BelongsTo tx → ∀ (code : Opcode) noData met,
        Executes ⟨coin.output.script, tx, index, coin.output.value⟩ coin.output.script.chunks
            (tx.unlockedMachine index input cache) (.op code noData) met →
          (code = .checkLockAbs → ∃ top below, met.stack = top :: below ∧
            0 ≤ Number.decode top ∧ Number.decode top ≤ (b.header.blockNum.toNat : Int)) ∧
          (code = .checkLockRel → ∃ top below, met.stack = top :: below ∧
            0 ≤ Number.decode top ∧ (coin.blockNum.toNat : Int) + Number.decode top ≤
              (b.header.blockNum.toNat : Int)) := by
  obtain ⟨hstructure, -, hfinal, htxs⟩ := (b.verify_eq_ok_iff outputs).mp h
  have hi : 0 < i := by
    rw [isCoinbase_of_checkStructure hstructure hat, decide_eq_false_iff_not] at hspends
    omega
  -- the block bounds the locks of the transaction, and the script bounds its items by those
  have hlockAbs := b.checkFinal_eq_ok_iff.mp hfinal i tx hi hat
  have hvalid := (b.checkTxs_eq_ok_iff outputs).mp htxs i tx hi hat
  obtain ⟨hverify, hlocks⟩ := (tx.verifyInBlock_eq_ok_iff _ _).mp hvalid
  have hsatisfied :=
    ((tx.verify_eq_ok_iff_valid _).mp hverify).satisfied index input hinput
  obtain ⟨coin, hcoin, hage⟩ :=
    (tx.checkLocks_eq_ok_iff _ _).mp hlocks input (List.mem_of_getElem? hinput)
  refine ⟨coin, hcoin, fun k tx' hki hat' hnames => blockNum_of_created hki hat' hnames hcoin,
    fun hnew => find?_working_of_not_created hnew hcoin, ?_⟩
  intro cache hcache code noData met hmet
  have hrun := Tx.run_of_satisfies hsatisfied hcoin hcache
  refine ⟨?_, ?_⟩
  · rintro rfl
    obtain ⟨top, below, hstack, hnonneg, hreached⟩ := hmet.le_lockAbs hrun
    have hreached : Number.decode top ≤ (tx.lockAbs.toNat : Int) := hreached
    exact ⟨top, below, hstack, hnonneg, by omega⟩
  · rintro rfl
    obtain ⟨top, below, input', hstack, hinput', hnonneg, hreached⟩ := hmet.le_lockRel hrun
    obtain rfl : input' = input := Option.some.inj (hinput'.symm.trans hinput)
    exact ⟨top, below, hstack, hnonneg, by omega⟩

/-! ### Locks that are reached exactly

The one coin of the map was created in block 3, and its script demands the locks 7
and 4. The transaction declares no more than these, in block 7. Its other input
spends the coinbase of the same block, whose script demands an age of 0. -/

namespace LockSample

def agedLock : Script :=
  ⟨[.smallNat 7 (by decide), .op .checkLockAbs rfl, .smallNat 4 (by decide),
    .op .checkLockRel rfl]⟩

def freshLock : Script :=
  ⟨[.smallNat 0 (by decide), .op .checkLockRel rfl, .smallNat 1 (by decide)]⟩

def known : Outpoint := ⟨.zero, 0⟩

def aged : Coin := ⟨⟨5, agedLock⟩, 3⟩

def outputs : OutputMap := OutputMap.empty.insert known aged

def coinbase : Tx := .coinbase .empty ⟨50, freshLock⟩ 7

def spend : Tx := ⟨0, [⟨known, .empty, 4⟩, ⟨⟨coinbase.id, 0⟩, .empty, 0⟩], [⟨55, .empty⟩], 7⟩

def root : Digest :=
  match MerkleTree.ofTxs [coinbase, spend] with
  | .ok tree => tree.rootHash
  | .error _ => .zero

def block : Block := ⟨⟨1, .zero, root, 0, 7, .zero, .zero, 0, .zero, 0, .zero⟩, [coinbase, spend]⟩

/-- The machine at the last chunk of `agedLock`. -/
def met : Machine := ⟨[[4], [7]], [], [], 3, 1, .empty⟩

theorem executes : Executes ⟨agedLock, spend, 0, 5⟩ agedLock.chunks
    (spend.unlockedMachine 0 ⟨known, .empty, 4⟩ .empty) (.op .checkLockRel rfl) met := by
  have hseven : Machine.visit ⟨agedLock, spend, 0, 5⟩ (.op (.small 6) rfl)
      (spend.unlockedMachine 0 ⟨known, .empty, 4⟩ .empty) =
        .next ⟨[[7]], [], [], 0, 0, .empty⟩ := by decide +kernel
  have hreached : Machine.visit ⟨agedLock, spend, 0, 5⟩ (.op .checkLockAbs rfl)
      ⟨[[7]], [], [], 1, 0, .empty⟩ = .next ⟨[[7]], [], [], 1, 1, .empty⟩ := by decide +kernel
  have hfour : Machine.visit ⟨agedLock, spend, 0, 5⟩ (.op (.small 3) rfl)
      ⟨[[7]], [], [], 2, 1, .empty⟩ = .next ⟨[[4], [7]], [], [], 2, 1, .empty⟩ := by
    decide +kernel
  exact .later hseven (.later hreached (.later hfour (.here rfl)))

end LockSample

open LockSample in
theorem script_locks_are_kept_sample :
    block.verify outputs = .ok () ∧ (block.working outputs 1).find? known = some aged ∧
      (aged.blockNum.toNat : Int) + Number.decode [4] ≤ (block.header.blockNum.toNat : Int) := by
  have h : block.verify outputs = .ok () := eq_ok_of_isOk (by decide +kernel)
  obtain ⟨coin, hcoin, -, hgiven, hkept⟩ :=
    @script_locks_are_kept block outputs 1 0 spend ⟨known, .empty, 4⟩ h rfl (by decide) rfl
  have hold : outputs.find? known = some coin := by
    refine hgiven fun k tx hk hat hnames => ?_
    obtain rfl : k = 0 := by omega
    obtain rfl : coinbase = tx := Option.some.inj hat
    exact absurd hnames.1 (by decide +kernel)
  obtain rfl : aged = coin :=
    Option.some.inj ((OutputMap.find?_insert_self .empty known aged).symm.trans hold)
  obtain ⟨-, hrel⟩ := hkept .empty (SighashCache.empty_belongsTo spend) _ _ _ executes
  obtain ⟨top, below, hstack, -, hage⟩ := hrel rfl
  obtain ⟨rfl, -⟩ := List.cons.inj hstack
  exact ⟨h, hcoin, hage⟩

end Block

end UtxoLedger
