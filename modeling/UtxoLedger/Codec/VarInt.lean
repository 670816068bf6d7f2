/-
UtxoLedger.Codec.VarInt — numbers of variable length, and data behind its length.

A value up to 252 is its own byte. A larger one is a marker byte and then two,
four or eight bytes, least significant first, at the narrowest width that holds
it. The reader takes the full width before it asks whether a narrower one would
have done, so an input that is both cut short and too wide counts as cut short.
-/
import UtxoLedger.Codec.Reader

namespace UtxoLedger

namespace VarInt

def encode (v : UInt64) : Bytes :=
  let n := v.toNat
  if n ≤ 0xfc then [UInt8.ofNat n]
  else if n ≤ 0xffff then 0xfd :: LittleEndian.encode 2 n
  else if n ≤ 0xffffffff then 0xfe :: LittleEndian.encode 4 n
  else 0xff :: LittleEndian.encode 8 n

/-- A number of the given width that no narrower form can write. -/
def readWide (width least : Nat) : Reader UInt64 := do
  let n ← Reader.littleEndian width
  if n < least then throw .nonMinimalEncoding else pure (UInt64.ofNat n)

def read : Reader UInt64 := do
  let marker ← Reader.uint8
  if marker ≤ 0xfc then pure marker.toUInt64
  else if marker = 0xfd then readWide 2 0xfd
  else if marker = 0xfe then readWide 4 0x10000
  else readWide 8 0x100000000

/-- The number of items of a list, in front of the items. -/
def encodeCount (count : Nat) : Bytes := encode (UInt64.ofNat count)

def readCount : Reader Nat := UInt64.toNat <$> read

end VarInt

namespace VarBytes

/-- A byte string behind its length. -/
def encode (bs : Bytes) : Bytes := VarInt.encodeCount bs.length ++ bs

def read : Reader Bytes := do
  let length ← VarInt.readCount
  Reader.bytes length

end VarBytes

namespace VarList

/-- The items of a list behind their number. -/
def encode {α : Type} [Codec α] (items : List α) : Bytes :=
  VarInt.encodeCount items.length ++ items.flatMap Codec.encode

def read {α : Type} [Codec α] : Reader (List α) := do
  let count ← VarInt.readCount
  Reader.many Codec.read count

end VarList

end UtxoLedger
