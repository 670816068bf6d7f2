/-
UtxoLedger.Script.Machine — the state of a running script and its single steps.

A script runs against a transaction: it can look at the input that it guards, at
the value that is spent and at the locks (`Setting`). The state is a `Machine`:
the stack, a second stack, the open conditionals, the position, the number of
opcodes counted so far and the digests that signature checks share.

`visit` is what the machine does at one chunk. A chunk is executed unless a
surrounding conditional is off; conditionals themselves are always followed, so
that the groups inside a skipped one are matched. `Visit.fail` keeps the state
at the failure, with the operands that were consumed before it gone.
-/
import UtxoLedger.Script.Stack
import UtxoLedger.Tx.Sighash

namespace UtxoLedger

/-- What a script is evaluated against. -/
structure Setting where
  script : Script
  tx : Tx
  /-- The position of the input that the script guards or unlocks. -/
  index : Nat
  /-- The value of the output that is spent. -/
  value : UInt64

/-- The state of a running script. -/
structure Machine where
  stack : Stack
  /-- The second stack. -/
  alt : Stack
  /-- The open conditionals, the innermost first: whether each is on. -/
  conditions : List Bool
  /-- The number of chunks that are behind. -/
  position : Nat
  /-- How many opcodes above the push opcodes were met. -/
  opCount : Nat
  cache : SighashCache
  deriving DecidableEq

/-- What a step comes to. -/
inductive Visit where
  /-- Go on with the next chunk. -/
  | next (m : Machine)
  /-- The script ends here by its own word. -/
  | stop (m : Machine)
  | fail (error : ScriptError) (m : Machine)
  deriving DecidableEq

/-- What the script sees of the output that is spent. -/
def Setting.spend (env : Setting) : Spend := ⟨env.index, env.script.encode, env.value⟩

namespace Machine

/-! ## Steps -/

/-- Pushes an item. -/
def push (m : Machine) (item : Bytes) : Machine := { m with stack := item :: m.stack }

/-- Runs an operation on the stack alone. -/
def onStack (m : Machine) (operation : Stack → Popped) : Visit :=
  match operation m.stack with
  | .ok s => .next { m with stack := s }
  | .fail error s => .fail error { m with stack := s }

/-- Whether no surrounding conditional is off. -/
def isExecuting (m : Machine) : Bool := m.conditions.all id

/-- Opens a conditional that is on if the top counts as `wanted`. Inside a group
that is skipped it takes no item and is off. -/
def openGroup (m : Machine) (wanted : Bool) : Visit :=
  if m.isExecuting then
    match m.stack with
    | [] => .fail .unbalancedConditional m
    | a :: s =>
      .next { m with stack := s, conditions := (Number.isTrue a == wanted) :: m.conditions }
  else .next { m with conditions := false :: m.conditions }

def branch (kind : Branch) (m : Machine) : Visit :=
  match kind with
  | .ifTrue => m.openGroup true
  | .ifFalse => m.openGroup false
  | .otherwise =>
    match m.conditions with
    | [] => .fail .unbalancedConditional m
    | c :: cs => .next { m with conditions := (!c) :: cs }
  | .endIf =>
    match m.conditions with
    | [] => .fail .unbalancedConditional m
    | _ :: cs => .next { m with conditions := cs }

def toAlt (m : Machine) : Visit :=
  match m.stack with
  | [] => .fail .invalidStackOperation m
  | a :: s => .next { m with stack := s, alt := a :: m.alt }

def fromAlt (m : Machine) : Visit :=
  match m.alt with
  | [] => .fail .invalidStackOperation m
  | a :: rest => .next { m with stack := a :: m.stack, alt := rest }

/-! ## Signatures -/

/-- Whether the item `sig` is a signature by the key `key`, both as found on the
stack. Items that are no key or no signature do not match and need no digest. -/
def checkItem (env : Setting) (key sig : Bytes) (cache : SighashCache) : Bool × SighashCache :=
  match PublicKey.ofBytes key, TxSignature.decode sig with
  | .ok key, .ok sig => env.tx.checkSignature env.spend key sig cache
  | _, _ => (false, cache)

/-- Puts the outcome of a signature check on the stack, where it stays also if
`thenVerify` asks for it to be true and it is not. -/
def conclude (m : Machine) (thenVerify success : Bool) : Visit :=
  let m := m.push (Stack.ofBool success)
  if thenVerify && !success then .fail .verifyFailed m else .next m

def checkSig (env : Setting) (thenVerify : Bool) (m : Machine) : Visit :=
  match m.stack with
  | key :: sig :: s =>
    if key.length ≠ PublicKey.size then .fail .invalidPublicKeyLength { m with stack := sig :: s }
    else if sig.length ≠ TxSignature.size then .fail .invalidSignatureLength { m with stack := s }
    else
      let (success, cache) := checkItem env key sig m.cache
      conclude { m with stack := s, cache := cache } thenVerify success
  | _ => .fail .invalidStackOperation m

/-- Takes `count` items of one size off a stack, or gives the stack below the
first item of another size. -/
def takeSized (size : Nat) : (count : Nat) → Stack → Except Stack (List Bytes × Stack)
  | 0, s => .ok ([], s)
  | _ + 1, [] => .error []
  | count + 1, a :: s =>
    if a.length = size then
      match takeSized size count s with
      | .ok (items, rest) => .ok (a :: items, rest)
      | .error rest => .error rest
    else .error s

/-- The keys without the first that the signature matches, if one does. -/
def takeMatch (env : Setting) (sig : Bytes) :
    List Bytes → SighashCache → Option (List Bytes) × SighashCache
  | [], cache => (none, cache)
  | key :: keys, cache =>
    match checkItem env key sig cache with
    | (true, cache) => (some keys, cache)
    | (false, cache) =>
      match takeMatch env sig keys cache with
      | (some left, cache) => (some (key :: left), cache)
      | (none, cache) => (none, cache)

/-- How many signatures match a key of their own. Each takes the first key left
that it matches; one that matches none is passed over. -/
def countMatches (env : Setting) :
    (sigs keys : List Bytes) → SighashCache → Nat × SighashCache
  | [], _, cache => (0, cache)
  | sig :: sigs, keys, cache =>
    match takeMatch env sig keys cache with
    | (some left, cache) =>
      let (count, cache) := countMatches env sigs left cache
      (count + 1, cache)
    | (none, cache) => countMatches env sigs keys cache

/-- From below: signatures, their number, keys, their number. -/
def checkMultiSig (env : Setting) (thenVerify : Bool) (m : Machine) : Visit :=
  let failAt (error : ScriptError) (s : Stack) : Visit := .fail error { m with stack := s }
  match m.stack with
  | [] => failAt .invalidStackOperation []
  | top :: s =>
    match (Number.toCount? (Number.decode top)).filter (decide <| · ≤ Script.maxKeys) with
    | none => failAt .invalidKeyCount s
    | some keyCount =>
      -- behind the keys there must be room for the number of signatures
      if s.length < keyCount + 1 then failAt .invalidStackOperation s
      else
        match takeSized PublicKey.size keyCount s with
        | .error s => failAt .invalidPublicKeyLength s
        | .ok (_, []) => failAt .invalidStackOperation []
        | .ok (keys, top :: s) =>
          match (Number.toCount? (Number.decode top)).filter (decide <| · ≤ keyCount) with
          | none => failAt .invalidSigCount s
          | some sigCount =>
            if s.length < sigCount then failAt .invalidStackOperation s
            else
              match takeSized TxSignature.size sigCount s with
              | .error s => failAt .invalidSignatureLength s
              | .ok (sigs, s) =>
                let (count, cache) := countMatches env sigs keys m.cache
                conclude { m with stack := s, cache := cache } thenVerify (count == sigCount)

/-! ## Locks -/

/-- Whether a lock reaches what the item asks for. -/
def reaches (lock : Nat) (item : Bytes) : Bool :=
  let required := Number.decode item
  decide (0 ≤ required) && decide (required ≤ (lock : Int))

def checkLockAbs (env : Setting) (m : Machine) : Visit :=
  match m.stack with
  | [] => .fail .invalidStackOperation m
  | a :: _ => if reaches env.tx.lockAbs.toNat a then .next m else .fail .lockNotSatisfied m

def checkLockRel (env : Setting) (m : Machine) : Visit :=
  match m.stack with
  | [] => .fail .invalidStackOperation m
  | a :: _ =>
    match env.tx.inputs[env.index]? with
    | none => .fail .lockNotSatisfied m
    | some input =>
      if reaches input.lockRel.toNat a then .next m else .fail .lockNotSatisfied m

/-! ## One chunk -/

/-- Executes an opcode that announces no data. -/
def exec (env : Setting) (m : Machine) : Opcode → Visit
  | .zero => .next (m.push [])
  | .pushData _ => .fail .invalidOpcode m
  | .negativeOne => .next (m.push (Number.encode (-1)))
  | .small index => .next (m.push (Stack.ofCount (index.val + 1)))
  | .branch kind => m.branch kind
  | .verify => m.onStack Stack.verify
  | .ret => .stop m
  | .toAlt => m.toAlt
  | .fromAlt => m.fromAlt
  | .shuffle kind => m.onStack (Stack.shuffle kind)
  | .dupIfTrue => m.onStack Stack.dupIfTrue
  | .depth => m.onStack Stack.depth
  | .pick => m.onStack Stack.pick
  | .roll => m.onStack Stack.roll
  | .cat => m.onStack Stack.cat
  | .substr => m.onStack Stack.substr
  | .left => m.onStack Stack.left
  | .right => m.onStack Stack.right
  | .size => m.onStack Stack.size
  | .invert => m.onStack Stack.invert
  | .bitwise kind => m.onStack (Stack.bitwise kind)
  | .equal => m.onStack Stack.equal
  | .equalVerify => m.onStack Stack.equalVerify
  | .unary kind => m.onStack (Stack.unary kind)
  | .binary kind => m.onStack (Stack.binary kind)
  | .numEqualVerify => m.onStack Stack.numEqualVerify
  | .within => m.onStack Stack.within
  | .blake3 => m.onStack Stack.blake3
  | .doubleBlake3 => m.onStack Stack.doubleBlake3
  | .checkSig => m.checkSig env false
  | .checkSigVerify => m.checkSig env true
  | .checkMultiSig => m.checkMultiSig env false
  | .checkMultiSigVerify => m.checkMultiSig env true
  | .checkLockAbs => m.checkLockAbs env
  | .checkLockRel => m.checkLockRel env

def step (env : Setting) (chunk : Chunk) (m : Machine) : Visit :=
  match chunk with
  | .op code _ => m.exec env code
  | .unknown _ _ => .fail .invalidOpcode m
  | .push data _ => .next (m.push data)

/-- The last byte of the opcodes that are not counted. -/
def lastUncounted : UInt8 := 0x60

/-- Counts the chunk unless it is a push. -/
def tally (chunk : Chunk) (m : Machine) : Machine :=
  if lastUncounted < chunk.byte then { m with opCount := m.opCount + 1 } else m

end Machine

/-- Whether the chunk is a conditional, which acts also where it is skipped. -/
def Chunk.isBranch : Chunk → Bool
  | .op (.branch _) _ => true
  | _ => false

/-- What the machine does at a chunk, the position apart. -/
def Machine.visit (env : Setting) (chunk : Chunk) (m : Machine) : Visit :=
  if m.isExecuting || chunk.isBranch then (m.tally chunk).step env chunk else .next m

end UtxoLedger
