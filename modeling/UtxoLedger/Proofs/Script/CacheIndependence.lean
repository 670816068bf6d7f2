/-
UtxoLedger.Proofs.Script.CacheIndependence — a script runs the same on every
cache of its transaction.

Signature checks are the only steps that touch the cache. `matchesItem`,
`takeMatch?` and `matchCount` say what they come to without one, and the
`settled_` lemmas tie the machine's own loops to them.

`Machine.Alike` relates two machines that differ in their caches alone, both of
them caches of the transaction. One step keeps it (`visit_alike`, by the opcodes:
only the signature opcodes need more than unfolding), so a whole run keeps it
(`runFrom_alike`) and ends with the same error.
-/
import UtxoLedger.Proofs.Tx.SharedDigests
import UtxoLedger.Script.Evaluation

namespace UtxoLedger

/-! ## Signature checks without a cache -/

/-- Whether the item `sig` is a signature by the key `key`, in the script that is
executed. -/
def Setting.matchesItem (env : Setting) (key sig : Bytes) : Bool :=
  match PublicKey.ofBytes key, TxSignature.decode sig with
  | .ok key, .ok sig => env.tx.accepts env.spend key sig
  | _, _ => false

/-- Items that are no key or no signature match nothing. -/
theorem Setting.matchesItem_eq_true_iff (env : Setting) (key sig : Bytes) :
    env.matchesItem key sig = true ↔
      ∃ key' sig', PublicKey.ofBytes key = .ok key' ∧ TxSignature.decode sig = .ok sig' ∧
        env.tx.accepts env.spend key' sig' = true := by
  unfold matchesItem
  cases PublicKey.ofBytes key with
  | error _ => simp
  | ok key' =>
    cases TxSignature.decode sig with
    | error _ => simp
    | ok sig' => simp

/-- The keys without the first that the signature matches, if one does. -/
def Setting.takeMatch? (env : Setting) (sig : Bytes) : List Bytes → Option (List Bytes)
  | [] => none
  | key :: keys =>
    if env.matchesItem key sig then some keys else (env.takeMatch? sig keys).map (key :: ·)

/-- How many signatures match a key of their own, each taking the first that is
left. -/
def Setting.matchCount (env : Setting) : (sigs keys : List Bytes) → Nat
  | [], _ => 0
  | sig :: sigs, keys =>
    match env.takeMatch? sig keys with
    | some left => env.matchCount sigs left + 1
    | none => env.matchCount sigs keys

namespace Machine

/-- Only where key and signature can be read is the cache looked at. -/
theorem settled_checkItem (env : Setting) (key sig : Bytes) :
    Settled env.tx (checkItem env key sig) (env.matchesItem key sig) := by
  intro cache h
  unfold checkItem Setting.matchesItem
  cases PublicKey.ofBytes key with
  | error _ => exact ⟨rfl, h⟩
  | ok key =>
    cases TxSignature.decode sig with
    | error _ => exact ⟨rfl, h⟩
    | ok sig => exact env.tx.settled_checkSignature env.spend key sig cache h

/-- The keys are tried one after another, each on the cache that the last one left. By
induction on the keys that are left. -/
theorem settled_takeMatch (env : Setting) (sig : Bytes) : ∀ keys : List Bytes,
    Settled env.tx (takeMatch env sig keys) (env.takeMatch? sig keys)
  | [], _, h => ⟨rfl, h⟩
  | key :: keys, cache, h => by
      obtain ⟨hitem, h⟩ := settled_checkItem env key sig cache h
      rw [takeMatch, Setting.takeMatch?, ← hitem]
      generalize checkItem env key sig cache = checked at h
      obtain ⟨found, cache'⟩ := checked
      cases found with
      | true => exact ⟨rfl, h⟩
      | false =>
        obtain ⟨hrest, h⟩ := settled_takeMatch env sig keys cache' h
        simp only [Bool.false_eq_true, if_false]
        rw [← hrest]
        generalize takeMatch env sig keys cache' = taken at h
        obtain ⟨left, cache''⟩ := taken
        cases left <;> exact ⟨rfl, h⟩

/-- And so are the signatures, against the keys that are not taken yet. -/
theorem settled_countMatches (env : Setting) : ∀ sigs keys : List Bytes,
    Settled env.tx (countMatches env sigs keys) (env.matchCount sigs keys)
  | [], _, _, h => ⟨rfl, h⟩
  | sig :: sigs, keys, cache, h => by
      obtain ⟨htake, h⟩ := settled_takeMatch env sig keys cache h
      rw [countMatches, Setting.matchCount, ← htake]
      generalize takeMatch env sig keys cache = taken at h
      obtain ⟨left, cache'⟩ := taken
      cases left with
      | some left =>
        obtain ⟨hrest, h⟩ := settled_countMatches env sigs left cache' h
        exact ⟨congrArg (· + 1) hrest, h⟩
      | none => exact settled_countMatches env sigs keys cache' h

/-! ## Machines that differ in their caches -/

/-- The machines agree in everything but the cache, and both caches belong to the
transaction. -/
structure Alike (tx : Tx) (m m' : Machine) : Prop where
  same : m' = { m with cache := m'.cache }
  left : m.cache.BelongsTo tx
  right : m'.cache.BelongsTo tx

theorem Alike.stack_eq {tx : Tx} {m m' : Machine} (h : m.Alike tx m') : m'.stack = m.stack := by
  rw [h.same]

/-- Which branch is executed does not depend on the cache. -/
theorem Alike.isExecuting_eq {tx : Tx} {m m' : Machine} (h : m.Alike tx m') :
    m'.isExecuting = m.isExecuting := by
  rw [h.same]
  rfl

end Machine

/-- Two steps that end in the same way, on machines that differ in their caches. -/
inductive Visit.Alike (tx : Tx) : Visit → Visit → Prop where
  | next {m m' : Machine} (h : m.Alike tx m') : Visit.Alike tx (.next m) (.next m')
  | stop {m m' : Machine} (h : m.Alike tx m') : Visit.Alike tx (.stop m) (.stop m')
  | fail (error : ScriptError) {m m' : Machine} (h : m.Alike tx m') :
    Visit.Alike tx (.fail error m) (.fail error m')

namespace Machine

theorem onStack_alike {tx : Tx} {m m' : Machine} (h : m.Alike tx m') (operation : Stack → Popped) :
    (m.onStack operation).Alike tx (m'.onStack operation) := by
  obtain ⟨stack, alt, conditions, position, opCount, cache⟩ := m
  obtain ⟨hsame, hl, hr⟩ := h
  rw [hsame]
  unfold onStack
  dsimp only
  cases operation stack with
  | ok s => exact .next ⟨rfl, hl, hr⟩
  | fail error s => exact .fail error ⟨rfl, hl, hr⟩

theorem openGroup_alike {tx : Tx} {m m' : Machine} (h : m.Alike tx m') (wanted : Bool) :
    (m.openGroup wanted).Alike tx (m'.openGroup wanted) := by
  obtain ⟨stack, alt, conditions, position, opCount, cache⟩ := m
  obtain ⟨hsame, hl, hr⟩ := h
  rw [hsame]
  unfold openGroup isExecuting
  dsimp only
  by_cases hon : conditions.all id = true
  · rw [if_pos hon, if_pos hon]
    cases stack with
    | nil => exact .fail _ ⟨rfl, hl, hr⟩
    | cons a s => exact .next ⟨rfl, hl, hr⟩
  · rw [if_neg hon, if_neg hon]
    exact .next ⟨rfl, hl, hr⟩

theorem branch_alike {tx : Tx} {m m' : Machine} (h : m.Alike tx m') (kind : Branch) :
    (m.branch kind).Alike tx (m'.branch kind) := by
  cases kind with
  | ifTrue => exact openGroup_alike h true
  | ifFalse => exact openGroup_alike h false
  | otherwise | endIf =>
    obtain ⟨stack, alt, conditions, position, opCount, cache⟩ := m
    obtain ⟨hsame, hl, hr⟩ := h
    rw [hsame]
    unfold branch
    dsimp only
    cases conditions with
    | nil => exact .fail _ ⟨rfl, hl, hr⟩
    | cons c cs => exact .next ⟨rfl, hl, hr⟩

theorem toAlt_alike {tx : Tx} {m m' : Machine} (h : m.Alike tx m') :
    m.toAlt.Alike tx m'.toAlt := by
  obtain ⟨stack, alt, conditions, position, opCount, cache⟩ := m
  obtain ⟨hsame, hl, hr⟩ := h
  rw [hsame]
  unfold toAlt
  dsimp only
  cases stack with
  | nil => exact .fail _ ⟨rfl, hl, hr⟩
  | cons a s => exact .next ⟨rfl, hl, hr⟩

theorem fromAlt_alike {tx : Tx} {m m' : Machine} (h : m.Alike tx m') :
    m.fromAlt.Alike tx m'.fromAlt := by
  obtain ⟨stack, alt, conditions, position, opCount, cache⟩ := m
  obtain ⟨hsame, hl, hr⟩ := h
  rw [hsame]
  unfold fromAlt
  dsimp only
  cases alt with
  | nil => exact .fail _ ⟨rfl, hl, hr⟩
  | cons a s => exact .next ⟨rfl, hl, hr⟩

theorem push_alike {tx : Tx} {m m' : Machine} (h : m.Alike tx m') (item : Bytes) :
    Visit.Alike tx (.next (m.push item)) (.next (m'.push item)) := by
  obtain ⟨hsame, hl, hr⟩ := h
  rw [hsame]
  exact .next ⟨rfl, hl, hr⟩

/-- A lock is compared with the transaction, which is the same for both. -/
theorem checkLockAbs_alike {env : Setting} {m m' : Machine} (h : m.Alike env.tx m') :
    (m.checkLockAbs env).Alike env.tx (m'.checkLockAbs env) := by
  obtain ⟨stack, alt, conditions, position, opCount, cache⟩ := m
  obtain ⟨hsame, hl, hr⟩ := h
  rw [hsame]
  unfold checkLockAbs
  dsimp only
  cases stack with
  | nil => exact .fail _ ⟨rfl, hl, hr⟩
  | cons a s =>
    dsimp only
    split
    · exact .next ⟨rfl, hl, hr⟩
    · exact .fail _ ⟨rfl, hl, hr⟩

theorem checkLockRel_alike {env : Setting} {m m' : Machine} (h : m.Alike env.tx m') :
    (m.checkLockRel env).Alike env.tx (m'.checkLockRel env) := by
  obtain ⟨stack, alt, conditions, position, opCount, cache⟩ := m
  obtain ⟨hsame, hl, hr⟩ := h
  rw [hsame]
  unfold checkLockRel
  dsimp only
  cases stack with
  | nil => exact .fail _ ⟨rfl, hl, hr⟩
  | cons a s =>
    dsimp only
    cases env.tx.inputs[env.index]? with
    | none => exact .fail _ ⟨rfl, hl, hr⟩
    | some input =>
      dsimp only
      split
      · exact .next ⟨rfl, hl, hr⟩
      · exact .fail _ ⟨rfl, hl, hr⟩

/-! ### Signature opcodes -/

theorem conclude_alike {tx : Tx} {m m' : Machine} (h : m.Alike tx m') (thenVerify success : Bool) :
    (m.conclude thenVerify success).Alike tx (m'.conclude thenVerify success) := by
  obtain ⟨stack, alt, conditions, position, opCount, cache⟩ := m
  obtain ⟨hsame, hl, hr⟩ := h
  rw [hsame]
  unfold conclude
  dsimp only
  split
  · exact .fail _ ⟨rfl, hl, hr⟩
  · exact .next ⟨rfl, hl, hr⟩

/-- The one place where the caches are used. They may hold different digests, but both
belong to the transaction, so the answer is the same and the caches that are left belong to
it again. -/
theorem checkSig_alike {env : Setting} {m m' : Machine} (h : m.Alike env.tx m')
    (thenVerify : Bool) :
    (m.checkSig env thenVerify).Alike env.tx (m'.checkSig env thenVerify) := by
  obtain ⟨stack, alt, conditions, position, opCount, cache⟩ := m
  obtain ⟨hsame, hl, hr⟩ := h
  rw [hsame]
  unfold checkSig
  dsimp only
  rcases stack with _ | ⟨key, _ | ⟨sig, s⟩⟩
  · exact .fail _ ⟨rfl, hl, hr⟩
  · exact .fail _ ⟨rfl, hl, hr⟩
  · dsimp only
    split
    · exact .fail _ ⟨rfl, hl, hr⟩
    · split
      · exact .fail _ ⟨rfl, hl, hr⟩
      · obtain ⟨hanswer, hl⟩ := settled_checkItem env key sig cache hl
        obtain ⟨hanswer', hr⟩ := settled_checkItem env key sig m'.cache hr
        rw [hanswer, hanswer']
        exact conclude_alike ⟨rfl, hl, hr⟩ thenVerify _

/-- The counts and the items come from the stack, which is the same; the matching is settled
as a whole by `settled_countMatches`. -/
theorem checkMultiSig_alike {env : Setting} {m m' : Machine} (h : m.Alike env.tx m')
    (thenVerify : Bool) :
    (m.checkMultiSig env thenVerify).Alike env.tx (m'.checkMultiSig env thenVerify) := by
  obtain ⟨stack, alt, conditions, position, opCount, cache⟩ := m
  obtain ⟨hsame, hl, hr⟩ := h
  rw [hsame]
  unfold checkMultiSig
  dsimp only
  cases stack with
  | nil => exact .fail _ ⟨rfl, hl, hr⟩
  | cons top s =>
    dsimp only
    cases (Number.toCount? (Number.decode top)).filter (decide <| · ≤ Script.maxKeys) with
    | none => exact .fail _ ⟨rfl, hl, hr⟩
    | some keyCount =>
      dsimp only
      split
      · exact .fail _ ⟨rfl, hl, hr⟩
      · cases takeSized PublicKey.size keyCount s with
        | error s => exact .fail _ ⟨rfl, hl, hr⟩
        | ok taken =>
          obtain ⟨keys, _ | ⟨top, s⟩⟩ := taken
          · exact .fail _ ⟨rfl, hl, hr⟩
          · dsimp only
            cases (Number.toCount? (Number.decode top)).filter (decide <| · ≤ keyCount) with
            | none => exact .fail _ ⟨rfl, hl, hr⟩
            | some sigCount =>
              dsimp only
              split
              · exact .fail _ ⟨rfl, hl, hr⟩
              · cases takeSized TxSignature.size sigCount s with
                | error s => exact .fail _ ⟨rfl, hl, hr⟩
                | ok taken =>
                  -- only here is the cache used, and the answer is the same on both
                  obtain ⟨hcount, hl⟩ := settled_countMatches env taken.1 keys cache hl
                  obtain ⟨hcount', hr⟩ := settled_countMatches env taken.1 keys m'.cache hr
                  dsimp only
                  rw [hcount, hcount']
                  exact conclude_alike ⟨rfl, hl, hr⟩ thenVerify _

/-! ### One chunk -/

/-- By the opcodes. -/
theorem exec_alike {env : Setting} {m m' : Machine} (h : m.Alike env.tx m') (code : Opcode) :
    (m.exec env code).Alike env.tx (m'.exec env code) := by
  cases code with
  | branch kind => exact branch_alike h kind
  | toAlt => exact toAlt_alike h
  | fromAlt => exact fromAlt_alike h
  | checkSig => exact checkSig_alike h false
  | checkSigVerify => exact checkSig_alike h true
  | checkMultiSig => exact checkMultiSig_alike h false
  | checkMultiSigVerify => exact checkMultiSig_alike h true
  | zero | negativeOne | small _ => exact push_alike h _
  | pushData _ => exact .fail _ h
  | ret => exact .stop h
  | depth => exact onStack_alike h Stack.depth
  | checkLockAbs => exact checkLockAbs_alike h
  | checkLockRel => exact checkLockRel_alike h
  | _ => exact onStack_alike h _

theorem step_alike {env : Setting} {m m' : Machine} (h : m.Alike env.tx m') (chunk : Chunk) :
    (m.step env chunk).Alike env.tx (m'.step env chunk) := by
  cases chunk with
  | op code _ => exact exec_alike h code
  | unknown _ _ => exact .fail _ h
  | push data _ => exact push_alike h data

theorem tally_alike {tx : Tx} {m m' : Machine} (h : m.Alike tx m') (chunk : Chunk) :
    Alike tx (m.tally chunk) (m'.tally chunk) := by
  obtain ⟨hsame, hl, hr⟩ := h
  rw [hsame]
  unfold tally
  split
  · exact ⟨rfl, hl, hr⟩
  · exact ⟨rfl, hl, hr⟩

/-- A visit keeps the machines alike, whether the chunk is executed or skipped. -/
theorem visit_alike {env : Setting} {m m' : Machine} (h : m.Alike env.tx m') (chunk : Chunk) :
    (m.visit env chunk).Alike env.tx (m'.visit env chunk) := by
  unfold visit
  rw [h.isExecuting_eq]
  split
  · exact step_alike (tally_alike h chunk) chunk
  · exact .next h

end Machine

/-! ## The run -/

/-- **The cache does not show**: runs on machines that differ in their caches end
on such machines, and with the same error. -/
theorem runFrom_alike {env : Setting} : ∀ (chunks : List Chunk) {m m' : Machine},
    m.Alike env.tx m' →
      (runFrom env chunks m).1.Alike env.tx (runFrom env chunks m').1 ∧
        (runFrom env chunks m).2 = (runFrom env chunks m').2
  | [], m, m', h => by
      refine ⟨h, ?_⟩
      rw [runFrom, runFrom, h.same]
  | chunk :: rest, m, m', h => by
      have hvisit := Machine.visit_alike h chunk
      rw [runFrom, runFrom]
      generalize m.visit env chunk = v at hvisit
      generalize m'.visit env chunk = v' at hvisit
      cases hvisit with
      | next h =>
        refine runFrom_alike rest ?_
        obtain ⟨hsame, hl, hr⟩ := h
        rw [hsame]
        exact ⟨rfl, hl, hr⟩
      | stop h => exact ⟨h, rfl⟩
      | fail error h => exact ⟨h, rfl⟩

/-- The first run of an evaluation, read off the run of its machine. -/
theorem Evaluation.run_start (env : Setting) (stack : Stack) (cache : SighashCache) :
    ∃ final failure, runFrom env env.script.chunks (start stack cache).machine = (final, failure) ∧
      (start stack cache).run env =
        ⟨final, failure, some (final.stack.headD []),
          some (failure.isNone && Number.isTrue (final.stack.headD []))⟩ := by
  unfold run
  rw [show (start stack cache).machine.position = 0 from rfl, List.drop_zero]
  cases runFrom env env.script.chunks (start stack cache).machine with
  | mk final failure =>
    refine ⟨final, failure, rfl, ?_⟩
    cases failure <;> rfl

/-- First runs that start on two caches of the transaction come to the same. -/
theorem Evaluation.run_start_alike (env : Setting) (stack : Stack) {cache cache' : SighashCache}
    (h : cache.BelongsTo env.tx) (h' : cache'.BelongsTo env.tx) :
    ((start stack cache).run env).machine.Alike env.tx ((start stack cache').run env).machine ∧
      ((start stack cache).run env).error = ((start stack cache').run env).error ∧
      ((start stack cache).run env).success = ((start stack cache').run env).success := by
  have halike : (start stack cache).machine.Alike env.tx (start stack cache').machine :=
    ⟨rfl, h, h'⟩
  obtain ⟨hmachine, hfailure⟩ := runFrom_alike env.script.chunks halike
  obtain ⟨final, failure, hrun, heval⟩ := run_start env stack cache
  obtain ⟨final', failure', hrun', heval'⟩ := run_start env stack cache'
  rw [hrun, hrun'] at hmachine hfailure
  have hstack : final'.stack = final.stack := hmachine.stack_eq
  simp only at hfailure
  rw [heval, heval', hstack, hfailure]
  exact ⟨hmachine, rfl, rfl⟩

end UtxoLedger
