/-
UtxoLedger.Proofs.Script.Indexed — the machine over a vector, with every access checked.

The opcodes that work by position or by unsigned arithmetic, or divide, are written out
here as programs over the vector of items. Each asks first whether the stack is deep enough
and takes its operands away before it looks at them, in the order in which the errors come.
All other opcodes only push an item, pop one, with an error where there is none, or look at
the top; they are taken from the machine as they are (`visited`).

The loop reads each chunk by its position. It is given as many turns as chunks are left
(`run`), and is at fault if it has not ended by then.
-/
import UtxoLedger.Proofs.Script.CheckedStack

namespace UtxoLedger.Indexed

/-! ## Rearrangements -/

/-- Pushes copies of `count` items, the lowest of which is `depth` from the top. -/
def copyFromDepth (depth count : Nat) : Act Unit := do
  require depth
  let start ← fromTop depth
  let stop ← add (← length) start count
  extend (← slice (← items) start stop)

/-- Moves the items to the top that begin `depth` from it and end above the one `above`
from it. -/
def raise (depth above : Nat) : Act Unit := do
  require depth
  extend (← drain (← fromTop depth) (← fromTop above))

/-- Moves the item `depth` from the top to the top. -/
def bring (depth : Nat) : Act Unit := do
  require depth
  push (← remove (← fromTop depth))

def nip : Act Unit := do
  require 2
  let _ ← remove (← fromTop 2)

def tuck : Act Unit := do
  require 2
  let a ← top
  insert (← fromTop 2) a

def drop2 : Act Unit := do
  require 2
  truncate (← fromTop 2)

def drop : Act Unit := do
  let _ ← pop

def shuffle : Shuffle → Act Unit
  | .drop2 => drop2
  | .dup2 => copyFromDepth 2 2
  | .dup3 => copyFromDepth 3 3
  | .over2 => copyFromDepth 4 2
  | .rot2 => raise 6 4
  | .swap2 => raise 4 2
  | .drop => drop
  | .dup => copyFromDepth 1 1
  | .nip => nip
  | .over => copyFromDepth 2 1
  | .rot => bring 3
  | .swap => bring 2
  | .tuck => tuck

/-! ## Positions that the script asks for -/

/-- The position of the item that is as many places down as the top, taken away, says. -/
def popPosition : Act Nat := do
  require 1
  let count ← popCount
  let len ← length
  let n ← orHalt .invalidStackOperation (count.filter (decide <| · < len))
  sub (← sub len n) 1

def pick : Act Unit := do
  push (← itemAt (← popPosition))

def roll : Act Unit := do
  push (← remove (← popPosition))

/-! ## Parts of an item -/

/-- The first position and the number of bytes, if the data is long enough. -/
def range? (length : Nat) : (start count : Option Nat) → Option (Nat × Nat)
  | some i, some n =>
    if (checkedAdd length i n).any (decide <| · ≤ length) then some (i, n) else none
  | _, _ => none

def substr : Act Unit := do
  require 3
  let count ← popCount
  let start ← popCount
  let data ← pop
  let (i, n) ← orHalt .invalidStackOperation (range? data.length start count)
  push (← slice data i (← add data.length i n))

/-- How many bytes the top, taken away, asks for, and the data below, which has as many. -/
def popPart : Act (Nat × Bytes) := do
  require 2
  let count ← popCount
  let data ← pop
  let n ← atMost data.length .invalidStackOperation count
  return (n, data)

def left : Act Unit := do
  let (n, data) ← popPart
  push (← slice data 0 n)

def right : Act Unit := do
  let (n, data) ← popPart
  push (← slice data (← sub data.length n) data.length)

/-! ## Division -/

/-- The functions of two numbers, with a division that has to be guarded. -/
def apply (kind : Binary) (a b : Int) : Act Int :=
  match kind with
  | .div => if b = 0 then halt .divisionByZero else quot a b
  | .mod => if b = 0 then halt .divisionByZero else rem a b
  | kind =>
    match kind.apply a b with
    | .ok z => pure z
    | .error error => halt error

def binary (kind : Binary) : Act Unit := do
  require 2
  let b ← pop
  let a ← pop
  push (Number.encode (← apply kind (Number.decode a) (Number.decode b)))

/-! ## Signatures -/

/-- How a visit ends that goes well. -/
inductive Flow where
  | next
  | stop
  deriving DecidableEq

/-- What a visit by the machine comes to, which is at no fault. -/
def visited : Visit → Outcome Flow
  | .next m => .done .next m
  | .stop m => .done .stop m
  | .fail error m => .halt error m

/-- Takes `count` items of one size off the stack. -/
def popSized (size : Nat) (error : ScriptError) : (count : Nat) → Act (List Bytes)
  | 0 => pure []
  | count + 1 => do
    let a ← pop
    if a.length = size then
      let rest ← popSized size error count
      return a :: rest
    else halt error

def checkItem (env : Setting) (key sig : Bytes) : Act Bool where
  run m :=
    let (success, cache) := Machine.checkItem env key sig m.cache
    .done success { m with cache := cache }

/-- The position of the first key that the signature matches, among `count` from `j` on. -/
def findKey (env : Setting) (sig : Bytes) (keys : List Bytes) :
    (count j : Nat) → Act (Option Nat)
  | 0, _ => pure none
  | count + 1, j => do
    let key ← get keys j
    if ← checkItem env key sig then return some j
    else findKey env sig keys count (j + 1)

/-- Adds to `matched` the number of signatures that match a key of their own. -/
def matchSigs (env : Setting) : (sigs keys : List Bytes) → (matched : Nat) → Act Nat
  | [], _, matched => pure matched
  | sig :: sigs, keys, matched => do
    match ← findKey env sig keys keys.length 0 with
    | some j => matchSigs env sigs (← removeAt keys j) (← add 0 matched 1)
    | none => matchSigs env sigs keys matched

def checkMultiSig (env : Setting) (thenVerify : Bool) : Act Flow := do
  require 1
  let keyCount ← atMost Script.maxKeys .invalidKeyCount (← popCount)
  require (← add 0 keyCount 1)
  let keys ← popSized PublicKey.size .invalidPublicKeyLength keyCount
  let sigCount ← atMost keyCount .invalidSigCount (← popCount)
  require sigCount
  let sigs ← popSized TxSignature.size .invalidSignatureLength sigCount
  let matched ← matchSigs env sigs keys 0
  ⟨fun m => visited (m.conclude thenVerify (matched == sigCount))⟩

/-! ## Runs -/

def andNext (act : Act Unit) : Act Flow := do
  act
  return .next

def exec (env : Setting) : Opcode → Act Flow
  | .shuffle kind => andNext (shuffle kind)
  | .pick => andNext pick
  | .roll => andNext roll
  | .substr => andNext substr
  | .left => andNext left
  | .right => andNext right
  | .binary kind => andNext (binary kind)
  | .checkMultiSig => checkMultiSig env false
  | .checkMultiSigVerify => checkMultiSig env true
  | code => ⟨fun m => visited (m.exec env code)⟩

def step (env : Setting) : Chunk → Act Flow
  | .op code _ => exec env code
  | chunk => ⟨fun m => visited (m.step env chunk)⟩

def visit (env : Setting) (chunk : Chunk) : Act Flow where
  run m :=
    if m.isExecuting || chunk.isBranch then (step env chunk).run (m.tally chunk)
    else .done .next m

def position : Act Nat := ⟨fun m => .done m.position m⟩

def setPosition (i : Nat) : Act Unit := ⟨fun m => .done () { m with position := i }⟩

/-- Halts if a conditional is open. -/
def close : Act Unit where
  run m := if m.conditions.isEmpty then .done () m else .halt .unbalancedConditional m

/-- Visits chunks by their positions, at most as many as there are turns. -/
def loop (env : Setting) : (turns : Nat) → Act Unit
  | 0 => do
    if (← position) < env.script.chunks.length then fault .unfinished else close
  | turns + 1 => do
    let i ← position
    if i < env.script.chunks.length then
      match ← visit env (← get env.script.chunks i) with
      | .stop => pure ()
      | .next =>
        setPosition (← add env.script.chunks.length i 1)
        loop env turns
    else close

/-- Runs the chunks that are left, in as many turns as there are of them. -/
def run (env : Setting) (e : Evaluation) : Except Fault Evaluation :=
  let finish (m : Machine) (error : Option ScriptError) : Evaluation :=
    let top := m.stack.headD []
    ⟨m, error, some top, some (error.isNone && Number.isTrue top)⟩
  match (loop env (env.script.chunks.length - e.machine.position)).run e.machine with
  | .done _ m => .ok (finish m e.error)
  | .halt error m => .ok (finish m (some error))
  | .fault reason => .error reason

/-- Runs as often as given, each time from where the run before ended. -/
def runs (env : Setting) (e : Evaluation) : Nat → Except Fault Evaluation
  | 0 => .ok e
  | n + 1 =>
    match runs env e n with
    | .ok e => run env e
    | .error reason => .error reason

end UtxoLedger.Indexed
