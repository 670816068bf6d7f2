/-
UtxoLedger.Proofs.Tx.PushOnlyInputs — what the script of an input can do to the check of it.

Two places say what a push is: the recogniser that looks at the opcode of each chunk, and
the machine when it executes the chunk. `Chunk.Pushes` says it a third time, by the item and
without the machine, and `Script.forall₂_pushes` is their agreement, chunk by chunk. So a
script that the recogniser accepts cannot fail, and what is refused about its input is
refused by the script of the spent output.

That a script which is not accepted does not come to be run is a statement about the checks
and not about their answer. `Tx.checkInputBy` has the interpreter as a parameter; where the
answer is the same for all interpreters, none was asked.
-/
import Mathlib.Data.List.Forall2
import UtxoLedger.Proofs.Script.NumberForms
import UtxoLedger.Proofs.Tx.Acceptance

namespace UtxoLedger

/-! ## Shortest forms -/

namespace Number

/-- The byte string writes the number, and all others that do are longer. -/
structure IsShortest (z : Int) (bs : Bytes) : Prop where
  decode_eq : decode bs = z
  shorter : ∀ other, decode other = z → other ≠ bs → bs.length < other.length

/-- No byte string for the number is shorter, and one that is as long is the same. -/
theorem isShortest_encode (z : Int) : IsShortest z (encode z) where
  decode_eq := decode_encode z
  shorter other hother hne := by
    have hle := length_encode_decode_le other
    rw [hother] at hle
    refine Nat.lt_of_le_of_ne hle fun hlength => hne ?_
    exact eq_of_decode_eq hlength.symm (hother.trans (decode_encode z).symm)

end Number

/-! ## What a chunk pushes -/

/-- The chunk only pushes, and this is the item. -/
inductive Chunk.Pushes : Chunk → Bytes → Prop where
  | payload (data : Bytes) (pushable : Pushable data) : Pushes (.push data pushable) data
  | zero (noData : Opcode.zero.lengthWidth? = none) : Pushes (.op .zero noData) []
  | negativeOne (noData : Opcode.negativeOne.lengthWidth? = none) {item : Bytes}
    (h : Number.IsShortest (-1) item) : Pushes (.op .negativeOne noData) item
  | small (index : Fin 16) (noData : (Opcode.small index).lengthWidth? = none) {item : Bytes}
    (h : Number.IsShortest (index.val + 1) item) : Pushes (.op (.small index) noData) item

/-- What the recognizer sees is what the chunk stands for. -/
theorem Chunk.pushes_of_pushed? {chunk : Chunk} {item : Bytes} (h : chunk.pushed? = some item) :
    chunk.Pushes item := by
  cases chunk with
  | op code noData =>
    cases code with
    | zero =>
      cases h
      exact .zero noData
    | negativeOne =>
      cases h
      exact .negativeOne noData (Number.isShortest_encode _)
    | small index =>
      cases h
      exact .small index noData (Number.isShortest_encode _)
    | _ => cases h
  | unknown _ _ => cases h
  | push data pushable =>
    cases h
    exact .payload _ pushable

/-- One item for each chunk, in their order. -/
theorem Script.forall₂_pushes {script : Script} (h : script.isPushOnly = true) :
    List.Forall₂ Chunk.Pushes script.chunks script.pushed := by
  have hall : ∀ chunks : List Chunk, (∀ chunk ∈ chunks, chunk.pushed?.isSome = true) →
      List.Forall₂ Chunk.Pushes chunks (chunks.filterMap Chunk.pushed?) := by
    intro chunks hpush
    induction chunks with
    | nil => exact .nil
    | cons chunk rest ih =>
      obtain ⟨item, hitem⟩ := Option.isSome_iff_exists.mp (hpush chunk List.mem_cons_self)
      rw [List.filterMap_cons_some hitem]
      exact .cons (Chunk.pushes_of_pushed? hitem)
        (ih fun c hc => hpush c (List.mem_cons_of_mem chunk hc))
  exact hall script.chunks (script.isPushOnly_iff.mp h)

namespace Evaluation

/-- The evaluation has pushed an item for each of the chunks, and done nothing else. -/
structure OnlyPushed (e : Evaluation) (chunks : List Chunk) (cache : SighashCache) : Prop where
  error_eq : e.error = none
  alt_eq : e.machine.alt = []
  cache_eq : e.machine.cache = cache
  items : List.Forall₂ Chunk.Pushes chunks e.machine.stack.reverse

/-- A run of pushes goes to the end and touches nothing but the stack. -/
theorem onlyPushed_run {env : Setting} (cache : SighashCache) (h : env.script.isPushOnly = true) :
    ((start [] cache).run env).OnlyPushed env.script.chunks cache := by
  obtain ⟨herror, hmachine⟩ := run_pushOnly cache h
  refine ⟨herror, by rw [hmachine], by rw [hmachine], ?_⟩
  rw [hmachine, List.reverse_reverse]
  exact Script.forall₂_pushes h

end Evaluation

namespace Tx

/-! ## The checks with any interpreter -/

section

variable (run : Setting → Evaluation → Evaluation) (tx : Tx)

def checkOutputScriptBy (index : Nat) (output : TxOutput) (stack : Stack)
    (cache : SighashCache) : Except ValidityError Unit × SighashCache :=
  let e := run ⟨output.script, tx, index, output.value⟩ (.start stack cache)
  if e.succeeded then (.ok (), e.machine.cache)
  else (.error (.scriptFailed index e.error), e.machine.cache)

def checkScriptsBy (index : Nat) (input : TxInput) (output : TxOutput)
    (cache : SighashCache) : Except ValidityError Unit × SighashCache :=
  let e := run ⟨input.script, tx, index, 0⟩ (.start [] cache)
  match e.error with
  | some error => (.error (.scriptFailed index (some error)), e.machine.cache)
  | none => checkOutputScriptBy run tx index output e.machine.stack e.machine.cache

def checkInputBy (outputs : OutputMap) (index : Nat) (cache : SighashCache) :
    Except ValidityError Unit × SighashCache :=
  match tx.inputs[index]? with
  | none => (.error (.missingOutput index), cache)
  | some input =>
    match outputs.find? input.outpoint with
    | none => (.error (.missingOutput index), cache)
    | some coin =>
      if input.script.isPushOnly then checkScriptsBy run tx index input coin.output cache
      else (.error (.inputScriptNotPushOnly index), cache)

end

/-- With the interpreter of scripts it is the check of an input. -/
theorem checkInputBy_run : checkInputBy Evaluation.run = checkInput := rfl

section

variable {tx : Tx} {outputs : OutputMap} {index : Nat} {input : TxInput} {cache : SighashCache}

/-- Whether the script is run does not depend on what running would do. -/
theorem checkInputBy_of_not_pushOnly (run : Setting → Evaluation → Evaluation)
    (hinput : tx.inputs[index]? = some input) (h : input.script.isPushOnly = false) :
    checkInputBy run tx outputs index cache =
      (.error (match outputs.find? input.outpoint with
        | some _ => .inputScriptNotPushOnly index
        | none => .missingOutput index), cache) := by
  unfold checkInputBy
  rw [hinput]
  dsimp only
  cases outputs.find? input.outpoint with
  | none => rfl
  | some coin =>
    dsimp only
    rw [h]
    rfl

/-! ## Failures -/

/-- The evaluation of the script of an input. -/
def inputRun (tx : Tx) (index : Nat) (input : TxInput) (cache : SighashCache) : Evaluation :=
  (Evaluation.start [] cache).run ⟨input.script, tx, index, 0⟩

/-- The evaluation of the script of an output on the stack that the input left. -/
def outputRun (tx : Tx) (index : Nat) (output : TxOutput) (stack : Stack) (cache : SighashCache) :
    Evaluation :=
  (Evaluation.start stack cache).run ⟨output.script, tx, index, output.value⟩

/-- The error that is reported is that of the output script. -/
theorem of_checkOutputScript_eq_scriptFailed {output : TxOutput} {stack : Stack} {i : Nat}
    {error : Option ScriptError}
    (h : (tx.checkOutputScript index output stack cache).1 = .error (.scriptFailed i error)) :
    i = index ∧ (tx.outputRun index output stack cache).succeeded = false ∧
      (tx.outputRun index output stack cache).error = error := by
  unfold checkOutputScript at h
  dsimp only at h
  split at h
  · cases h
  · rename_i hfailed
    cases h
    exact ⟨rfl, eq_false_of_ne_true hfailed, rfl⟩

/-- A script fails only where the script of the input had none but pushes. -/
theorem of_checkInput_eq_scriptFailed {i : Nat} {error : Option ScriptError}
    (h : (tx.checkInput outputs index cache).1 = .error (.scriptFailed i error)) :
    ∃ input coin, tx.inputs[index]? = some input ∧ outputs.find? input.outpoint = some coin ∧
      input.script.isPushOnly = true ∧
        (tx.checkScripts index input coin.output cache).1 = .error (.scriptFailed i error) := by
  unfold checkInput at h
  cases hinput : tx.inputs[index]? with
  | none =>
    rw [hinput] at h
    cases h
  | some input =>
    rw [hinput] at h
    dsimp only at h
    cases hfind : outputs.find? input.outpoint with
    | none =>
      rw [hfind] at h
      cases h
    | some coin =>
      rw [hfind] at h
      dsimp only at h
      split at h
      -- the exits in front of the scripts report other errors
      · exact ⟨input, coin, rfl, hfind, ‹_›, h⟩
      · cases h

/-- The input script can not be what fails. -/
theorem checkScripts_of_onlyPushed {output : TxOutput}
    (h : (tx.inputRun index input cache).OnlyPushed input.script.chunks cache) :
    tx.checkScripts index input output cache =
      tx.checkOutputScript index output (tx.inputRun index input cache).machine.stack cache := by
  have herror := h.error_eq
  have hcache := h.cache_eq
  unfold inputRun at herror hcache ⊢
  rw [checkScripts, herror, hcache]

end

/-- **Push-only scripts of inputs only push.** A script that the recogniser accepts runs
without an error and leaves nothing but an item for each chunk: the data that stands in it,
the empty string for zero, the shortest form of the other numbers. So where the check of an
input says that a script failed, it is the script of the output, on those items. A script
that the recogniser does not accept is not run at all. -/
theorem push_only_inputs_only_push :
    (∀ (env : Setting) (cache : SighashCache), env.script.isPushOnly = true →
      ((Evaluation.start [] cache).run env).OnlyPushed env.script.chunks cache) ∧
    (∀ (tx : Tx) (outputs : OutputMap) (index : Nat) (cache : SighashCache) (i : Nat)
        (error : Option ScriptError),
      (tx.checkInput outputs index cache).1 = .error (.scriptFailed i error) →
        i = index ∧ ∃ input coin, tx.inputs[index]? = some input ∧
          outputs.find? input.outpoint = some coin ∧
          (tx.inputRun index input cache).OnlyPushed input.script.chunks cache ∧
          let stack := (tx.inputRun index input cache).machine.stack
          (tx.outputRun index coin.output stack cache).succeeded = false ∧
            (tx.outputRun index coin.output stack cache).error = error) ∧
    checkInputBy Evaluation.run = checkInput ∧
    (∀ (tx : Tx) (outputs : OutputMap) (index : Nat) (cache : SighashCache) (input : TxInput),
      tx.inputs[index]? = some input → input.script.isPushOnly = false →
        ∀ run, checkInputBy run tx outputs index cache =
          (.error (match outputs.find? input.outpoint with
            | some _ => .inputScriptNotPushOnly index
            | none => .missingOutput index), cache)) := by
  refine ⟨fun env cache h => Evaluation.onlyPushed_run cache h, ?_, checkInputBy_run, ?_⟩
  · intro tx outputs index cache i error h
    obtain ⟨input, coin, hinput, hfind, hpush, hscripts⟩ := of_checkInput_eq_scriptFailed h
    have honly : (tx.inputRun index input cache).OnlyPushed input.script.chunks cache :=
      Evaluation.onlyPushed_run cache hpush
    -- the input script has no error, so the error is from the output script
    rw [checkScripts_of_onlyPushed honly] at hscripts
    obtain ⟨hindex, hsucceeded, herror⟩ := of_checkOutputScript_eq_scriptFailed hscripts
    exact ⟨hindex, input, coin, hinput, hfind, honly, hsucceeded, herror⟩
  · intro tx outputs index cache input hinput h run
    exact checkInputBy_of_not_pushOnly run hinput h

/-! ### Two inputs

The spent output asks for a true item on top. The first input leaves the empty string there;
the second would copy an item to have one. -/

namespace PushOnlySample

def items : Script := ⟨(Chunk.ofSmallInt? (-1)).toList ++ (Chunk.ofSmallInt? 0).toList⟩

def copies : Script := ⟨(Chunk.ofSmallInt? 1).toList ++ [.op .dupIfTrue rfl]⟩

def known : Outpoint := ⟨.zero, 0⟩

def unspent : OutputMap := OutputMap.empty.insert known ⟨⟨5, .empty⟩, 3⟩

def spend : Tx := ⟨0, [⟨known, items, 0⟩, ⟨known, copies, 0⟩], [⟨5, .empty⟩], 0⟩

end PushOnlySample

open PushOnlySample in
theorem push_only_inputs_only_push_sample :
    (spend.inputRun 0 ⟨known, items, 0⟩ .empty).OnlyPushed items.chunks .empty ∧
      (∃ error, (spend.checkInput unspent 0 .empty).1 = .error (.scriptFailed 0 error) ∧
        ∃ output stack, (spend.outputRun 0 output stack .empty).error = error) ∧
      ∀ run, checkInputBy run spend unspent 1 .empty =
        (.error (.inputScriptNotPushOnly 1), .empty) := by
  obtain ⟨hpushed, hfailed, -, hrefused⟩ := push_only_inputs_only_push
  refine ⟨hpushed ⟨items, spend, 0, 0⟩ .empty (by decide), ?_, fun run => ?_⟩
  · have hanswer : (spend.checkInput unspent 0 .empty).1 = .error (.scriptFailed 0 none) := by
      decide +kernel
    obtain ⟨-, _, _, -, -, -, -, herror⟩ := hfailed spend unspent 0 .empty 0 none hanswer
    exact ⟨none, hanswer, _, _, herror⟩
  · have hknown : unspent.find? known = some ⟨⟨5, .empty⟩, 3⟩ := by decide +kernel
    have hanswer := hrefused spend unspent 1 .empty ⟨known, copies, 0⟩ rfl (by decide) run
    rwa [hknown] at hanswer

end Tx

end UtxoLedger
