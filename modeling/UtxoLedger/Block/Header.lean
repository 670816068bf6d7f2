/-
UtxoLedger.Block.Header — block headers.

A header places a block in the chain, commits to its transactions by their
Merkle root and carries the proof of work. All fields have a fixed width, so the
nonce stands at a fixed place in the bytes: `nonceOffset` bytes from the front.
The id of a block is the double hash of its header's bytes.
-/
import UtxoLedger.Codec.VarInt
import UtxoLedger.Hash.Digest

namespace UtxoLedger

structure Header where
  version : UInt32
  prevBlockId : Digest
  merkleRoot : Digest
  /-- Milliseconds since 1970. -/
  timestamp : UInt64
  blockNum : UInt64
  target : Digest
  /-- What the search for a low id varies. -/
  nonce : Digest
  workSerAlgo : UInt32
  workSerHash : Digest
  workParAlgo : UInt32
  workParHash : Digest
  deriving DecidableEq

namespace Header

/-- How many bytes stand before the nonce. -/
def nonceOffset : Nat := 4 + 32 + 32 + 8 + 8 + 32

/-- How many bytes a header has. -/
def size : Nat := nonceOffset + 32 + 4 + 32 + 4 + 32

/-- The bytes before the nonce. -/
def encodeFront (h : Header) : Bytes :=
  encodeUInt32 h.version ++ (h.prevBlockId.toList ++ (h.merkleRoot.toList ++
    (encodeUInt64 h.timestamp ++ (encodeUInt64 h.blockNum ++ h.target.toList))))

/-- The bytes behind the nonce. -/
def encodeBack (h : Header) : Bytes :=
  encodeUInt32 h.workSerAlgo ++ (h.workSerHash.toList ++
    (encodeUInt32 h.workParAlgo ++ h.workParHash.toList))

def encode (h : Header) : Bytes := h.encodeFront ++ (h.nonce.toList ++ h.encodeBack)

def read : Reader Header := do
  let version ← Reader.uint32
  let prevBlockId ← Reader.fixed 32
  let merkleRoot ← Reader.fixed 32
  let timestamp ← Reader.uint64
  let blockNum ← Reader.uint64
  let target ← Reader.fixed 32
  let nonce ← Reader.fixed 32
  let workSerAlgo ← Reader.uint32
  let workSerHash ← Reader.fixed 32
  let workParAlgo ← Reader.uint32
  let workParHash ← Reader.fixed 32
  pure ⟨version, prevBlockId, merkleRoot, timestamp, blockNum, target, nonce,
    workSerAlgo, workSerHash, workParAlgo, workParHash⟩

instance : Codec Header := ⟨encode, read⟩

def id (h : Header) : Digest := .double h.encode

end Header

end UtxoLedger
