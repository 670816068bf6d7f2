/-
UtxoLedger.Wallet.KeyRing — key pairs, found by the hash that outputs are paid to.
-/
import Std.Data.TreeMap
import UtxoLedger.Key

namespace UtxoLedger

structure KeyRing where
  pairs : Std.TreeMap KeyHash KeyPair

namespace KeyRing

def empty : KeyRing := ⟨∅⟩

def size (ring : KeyRing) : Nat := ring.pairs.size

def isEmpty (ring : KeyRing) : Bool := ring.pairs.isEmpty

/-- Files a key pair under its own hash. -/
def insert (ring : KeyRing) (pair : KeyPair) : KeyRing := ⟨ring.pairs.insert pair.hash pair⟩

def find? (ring : KeyRing) (hash : KeyHash) : Option KeyPair := ring.pairs[hash]?

def contains (ring : KeyRing) (hash : KeyHash) : Bool := ring.pairs.contains hash

def erase (ring : KeyRing) (hash : KeyHash) : KeyRing := ⟨ring.pairs.erase hash⟩

/-- The hashes under which there are keys, in ascending order. -/
def hashes (ring : KeyRing) : List KeyHash := ring.pairs.keys

end KeyRing

end UtxoLedger
