/-
UtxoLedger.OutputMap — the outputs that can be spent.

The map finds an output by its outpoint and lists the outputs in the order in
which they were added; coin selection follows that order. A slot table holds
the order and an index holds the entries, each with the number of its slot.
Removing an output empties its slot and leaves the others where they are. When
empty slots outnumber the outputs, the table is compacted and the entries get
their new slots, so the table is never more than twice as long as needed.

Replacing an output keeps its place. `toList` is the view that the operations
are described by.
-/
import Std.Data.TreeMap
import UtxoLedger.Tx.Basic

namespace UtxoLedger

/-- An output with the number of the block that created it. -/
structure Coin where
  output : TxOutput
  blockNum : UInt64
  deriving DecidableEq

structure OutputMap where
  /-- The outpoints in the order of their arrival; none where one was removed. -/
  slots : Array (Option Outpoint)
  /-- For each outpoint its slot and its coin. -/
  index : Std.TreeMap Outpoint (Nat × Coin) Outpoint.order

namespace OutputMap

def empty : OutputMap := ⟨#[], ∅⟩

def size (m : OutputMap) : Nat := m.index.size

def isEmpty (m : OutputMap) : Bool := m.index.isEmpty

def find? (m : OutputMap) (o : Outpoint) : Option Coin := (m.index[o]?).map Prod.snd

def contains (m : OutputMap) (o : Outpoint) : Bool := m.index.contains o

/-- The output under an outpoint, without the number of its block. -/
def output? (m : OutputMap) (o : Outpoint) : Option TxOutput := (m.find? o).map Coin.output

/-- The coins with their outpoints, in the order of arrival. -/
def toList (m : OutputMap) : List (Outpoint × Coin) :=
  m.slots.toList.filterMap fun slot =>
    match slot with
    | some o => (m.find? o).map fun coin => (o, coin)
    | none => none

/-- The outputs in the order of arrival. -/
def outputs (m : OutputMap) : List TxOutput := m.toList.map fun entry => entry.2.output

/-! ## Adding -/

/-- Adds a coin, or replaces the one under its outpoint where it stands. -/
def insert (m : OutputMap) (o : Outpoint) (coin : Coin) : OutputMap :=
  match m.index[o]? with
  | some (slot, _) => { m with index := m.index.insert o (slot, coin) }
  | none => ⟨m.slots.push (some o), m.index.insert o (m.slots.size, coin)⟩

/-- Adds outputs of one transaction, the first of them at position `index`. -/
def insertOutputs (txId : Digest) (blockNum : UInt64) :
    (index : Nat) → List TxOutput → OutputMap → OutputMap
  | _, [], m => m
  | index, output :: rest, m =>
    -- the index in the outpoint has 32 bits, and a position beyond them is cut
    insertOutputs txId blockNum (index + 1) rest
      (m.insert ⟨txId, UInt32.ofNat index⟩ ⟨output, blockNum⟩)

/-- Adds every output of a transaction of block `blockNum`. -/
def insertTx (m : OutputMap) (tx : Tx) (blockNum : UInt64) : OutputMap :=
  insertOutputs tx.id blockNum 0 tx.outputs m

/-! ## Removing -/

/-- Gives the live outpoints consecutive slots. -/
def compact (m : OutputMap) : OutputMap :=
  let live := m.slots.toList.filterMap id
  ⟨(live.map some).toArray,
   live.zipIdx.foldl (fun index entry => index.modify entry.1 fun old => (entry.2, old.2)) m.index⟩

/-- Removes the output under an outpoint, if there is one. -/
def erase (m : OutputMap) (o : Outpoint) : OutputMap :=
  match m.index[o]? with
  | none => m
  | some (slot, _) =>
    let rest : OutputMap := ⟨m.slots.setIfInBounds slot none, m.index.erase o⟩
    -- empty slots are dropped once they are more than half of all
    if 2 * rest.index.size < rest.slots.size then rest.compact else rest

/-- Removes the output under an outpoint and hands it back. -/
def remove (m : OutputMap) (o : Outpoint) : Option TxOutput × OutputMap := (m.output? o, m.erase o)

/-- Removes the outputs under several outpoints. -/
def eraseAll (m : OutputMap) (os : List Outpoint) : OutputMap := os.foldl erase m

end OutputMap

end UtxoLedger
