/-
UtxoLedger.Bytes.Fixed — byte strings whose length is part of their type.

Digests, keys, signatures and nonces are all of some fixed length. The length
is checked once, where such a value is made from untrusted bytes (`ofList`,
`ofHex`), and no later operation has to look at it again.

The order is that of the first difference, which is also the order of the
big-endian numbers that the bytes write (`compare_toNat`). `toNat_injective`
says that the number determines the bytes.
-/
import UtxoLedger.Bytes.Basic
import UtxoLedger.Error

namespace UtxoLedger

/-- A byte string of exactly `n` bytes. -/
structure Fixed (n : Nat) where
  toList : Bytes
  length_toList : toList.length = n
  deriving DecidableEq

namespace Fixed

variable {n : Nat}

theorem ext {a b : Fixed n} (h : a.toList = b.toList) : a = b := by
  cases a
  cases b
  simp only [mk.injEq]
  exact h

/-! ## Making one -/

/-- Takes a byte string of the right length. -/
def ofList (n : Nat) (bs : Bytes) : Except Error (Fixed n) :=
  if h : bs.length = n then .ok ⟨bs, h⟩ else .error (.invalidSize n bs.length)

/-- `n` copies of one byte. -/
def replicate (n : Nat) (b : UInt8) : Fixed n := ⟨List.replicate n b, List.length_replicate⟩

def zero : Fixed n := replicate n 0

/-- The `n` low bytes of a number, most significant first. -/
def ofNat (n value : Nat) : Fixed n := ⟨BigEndian.encode n value, BigEndian.length_encode n value⟩

/-- Reads strict hexadecimal; the text is judged before its length. -/
def ofHex (n : Nat) (text : String) : Except Error (Fixed n) :=
  match Hex.decode? text with
  | some bs => ofList n bs
  | none => .error .invalidHex

/-! ## Views -/

/-- The big-endian number that the bytes write. -/
def toNat (a : Fixed n) : Nat := BigEndian.decode a.toList

def toHex (a : Fixed n) : String := Hex.encode a.toList

theorem toNat_injective {a b : Fixed n} (h : a.toNat = b.toNat) : a = b :=
  ext (BigEndian.eq_of_decode_eq (a.length_toList.trans b.length_toList.symm) h)

/-- A field of `n` bytes holds no number that needs more. -/
theorem decode_lt (a : Fixed n) : LittleEndian.decode a.toList < 1 <<< (8 * n) := by
  have hlt := LittleEndian.decode_lt a.toList
  rwa [a.length_toList] at hlt

theorem ofList_toList (a : Fixed n) : ofList n a.toList = .ok a := by
  rw [ofList, dif_pos a.length_toList]

instance : Inhabited (Fixed n) := ⟨zero⟩

/-! ## Order -/

instance : Ord (Fixed n) := ⟨compareOn toList⟩

instance : Std.TransOrd (Fixed n) := inferInstanceAs (Std.TransCmp (compareOn toList))

instance : Std.LawfulEqOrd (Fixed n) where
  eq_of_compare h := ext (Std.LawfulEqOrd.eq_of_compare h)

theorem compare_toNat (a b : Fixed n) : compare a.toNat b.toNat = compare a b :=
  BigEndian.compare_decode (a.length_toList.trans b.length_toList.symm)

/-! ## For people -/

/-- A text for people that shows the length beside the digits. -/
def describe (a : Fixed n) : String := "FixedBuf<" ++ toString n ++ ">(" ++ a.toHex ++ ")"

end Fixed

end UtxoLedger
