/-
UtxoLedger.Value — sums of amounts that must fit in 64 bits.

Amounts are 64-bit words. A sum is taken one amount after another and is given
up at the first step that does not fit; since amounts are not negative, that is
the case exactly when the whole sum does not fit.
-/

namespace UtxoLedger.Value

/-- The sum of two amounts, if it fits. -/
def add? (a b : UInt64) : Option UInt64 :=
  if a.toNat + b.toNat < 18446744073709551616 then some (a + b) else none

/-- The sum of a list of amounts behind the sum so far, if it fits. -/
def sumFrom? (total : UInt64) : List UInt64 → Option UInt64
  | [] => some total
  | v :: vs =>
    match add? total v with
    | some total => sumFrom? total vs
    | none => none

def sum? (values : List UInt64) : Option UInt64 := sumFrom? 0 values

end UtxoLedger.Value
