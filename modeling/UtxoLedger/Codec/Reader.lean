/-
UtxoLedger.Codec.Reader — reading values from the front of a byte string.

A `Reader α` takes a value off the front of the bytes that are left, or says
why it cannot. The primitive is `fixed`, which takes an exact number of bytes;
it is the only reader that can find the bytes at an end.

`Codec` collects, for one type, the bytes that stand for a value and the reader
that takes such a value off the front. `Codec.decode` reads a whole byte string
and refuses anything behind the value.
-/
import UtxoLedger.Bytes.Fixed

namespace UtxoLedger

/-- A step that consumes bytes from the front of what is left. -/
abbrev Reader := StateT Bytes (Except Error)

namespace Reader

/-- Exactly `n` bytes. A count far beyond the input costs no more than the
input is long. -/
def fixed (n : Nat) : Reader (Fixed n) := fun bs =>
  let front := bs.take n
  if h : front.length = n then .ok (⟨front, h⟩, bs.drop n) else .error .notEnoughData

def bytes (n : Nat) : Reader Bytes := Fixed.toList <$> fixed n

/-- A number in `width` bytes, least significant first. -/
def littleEndian (width : Nat) : Reader Nat := LittleEndian.decode <$> bytes width

def uint8 : Reader UInt8 := UInt8.ofNat <$> littleEndian 1

def uint16 : Reader UInt16 := UInt16.ofNat <$> littleEndian 2

def uint32 : Reader UInt32 := UInt32.ofNat <$> littleEndian 4

def uint64 : Reader UInt64 := UInt64.ofNat <$> littleEndian 8

/-- `count` values one after another. The count is not trusted: each value has
to arrive before the next is looked for. -/
def many {α : Type} (item : Reader α) : (count : Nat) → Reader (List α)
  | 0 => pure []
  | count + 1 => do
    let first ← item
    let others ← many item count
    pure (first :: others)

/-- Reports every failure of `item` as the one given. -/
def orFail {α : Type} (item : Reader α) (error : Error) : Reader α := fun bs =>
  match item bs with
  | .ok result => .ok result
  | .error _ => .error error

/-! ## How much a reader takes -/

/-- On success the reader has taken at least `k` bytes. A loop that reads until
nothing is left ends because each of its steps takes at least one. -/
def Takes {α : Type} (k : Nat) (item : Reader α) : Prop :=
  ∀ bs a rest, item bs = .ok (a, rest) → rest.length + k ≤ bs.length

/-- Where bytes are missing nothing is read. -/
theorem takes_fixed (n : Nat) : Takes n (fixed n) := by
  intro bs a rest h
  unfold fixed at h
  dsimp only at h
  split at h
  · rename_i hlen
    injection h with h
    injection h with _ hrest
    rw [List.length_take] at hlen
    rw [← hrest, List.length_drop]
    omega
  · injection h

theorem takes_pure {α : Type} (a : α) : Takes 0 (pure a : Reader α) := by
  intro bs b rest h
  injection h with h
  injection h with _ hrest
  rw [hrest]
  omega

theorem takes_throw {α : Type} (k : Nat) (error : Error) : Takes k (throw error : Reader α) := by
  intro bs a rest h
  injection h

/-- Readers in turn take what they take together. -/
theorem takes_bind {α β : Type} {j k : Nat} {item : Reader α} {next : α → Reader β}
    (hitem : Takes j item) (hnext : ∀ a, Takes k (next a)) : Takes (j + k) (item >>= next) := by
  intro bs b rest h
  change (item bs >>= fun ar => next ar.1 ar.2) = .ok (b, rest) at h
  cases hi : item bs with
  | error e =>
    rw [hi] at h
    injection h
  | ok ar =>
    rw [hi] at h
    have h1 := hitem bs ar.1 ar.2 hi
    have h2 := hnext ar.1 ar.2 b rest h
    omega

theorem takes_map {α β : Type} {k : Nat} {item : Reader α} (f : α → β) (hitem : Takes k item) :
    Takes k (f <$> item) := takes_bind hitem fun a => takes_pure (f a)

/-- Another error does not change what is taken. -/
theorem takes_orFail {α : Type} {k : Nat} {item : Reader α} (error : Error)
    (hitem : Takes k item) : Takes k (orFail item error) := by
  intro bs a rest h
  unfold orFail at h
  split at h
  · rename_i result hi
    injection h with h
    rw [h] at hi
    exact hitem bs a rest hi
  · injection h

theorem Takes.mono {α : Type} {j k : Nat} {item : Reader α} (hitem : Takes k item) (h : j ≤ k) :
    Takes j item := by
  intro bs a rest hi
  have := hitem bs a rest hi
  omega

theorem takes_littleEndian (width : Nat) : Takes width (littleEndian width) :=
  takes_map _ (takes_map _ (takes_fixed width))

theorem takes_uint8 : Takes 1 uint8 := takes_map _ (takes_littleEndian 1)

/-! ## Whole values -/

/-- Reads one value that must take up all the bytes. -/
def whole {α : Type} (item : Reader α) (bs : Bytes) : Except Error α :=
  match item bs with
  | .ok (value, []) => .ok value
  | .ok (_, _ :: _) => .error .trailingData
  | .error error => .error error

end Reader

/-- A type with one canonical byte form. -/
class Codec (α : Type) where
  encode : α → Bytes
  read : Reader α

namespace Codec

/-- Decodes a complete byte string. -/
def decode {α : Type} [Codec α] (bs : Bytes) : Except Error α := Reader.whole read bs

end Codec

/-! ## Words -/

def encodeUInt32 (v : UInt32) : Bytes := LittleEndian.encode 4 v.toNat

def encodeUInt64 (v : UInt64) : Bytes := LittleEndian.encode 8 v.toNat

end UtxoLedger
