/-
UtxoLedger.Hash.Digest — 256-bit digests and the three ways to make one.

  `Digest.of`        one BLAKE3 hash, for checksums and keys of a purpose
  `Digest.double`    BLAKE3 of a BLAKE3 hash: ids, public-key hashes, Merkle
                     nodes and signature hashes
  `Digest.mac`       keyed BLAKE3, which binds a message to a key
-/
import UtxoLedger.Bytes.Fixed
import UtxoLedger.Hash.Blake3

namespace UtxoLedger

/-- A 256-bit digest. -/
abbrev Digest := Fixed 32

namespace Digest

def ofChain (c : Blake3.Chain) : Digest := ⟨c.toBytes, c.length_toBytes⟩

def of (data : Bytes) : Digest := ofChain (Blake3.digest data)

def double (data : Bytes) : Digest := of (of data).toList

def mac (key : Digest) (data : Bytes) : Digest := ofChain (Blake3.keyedDigest key.toList data)

end Digest

end UtxoLedger
