/-
UtxoLedger.Block.Search — the search for a nonce that gives a header a low id.

Trial `i` takes the header's nonce plus `i`. The header is encoded once; a trial
only exchanges the nonce in those bytes (`withNonceBytes`). Of several trials
with the lowest id the earliest counts.

The trials are made one after another (`search`) or side by side. In the second
case two results are compared as they come in, so that which ones meet is not
known beforehand: it is an argument of `searchSideBySide`.
-/
import UtxoLedger.Block.Header

namespace UtxoLedger

namespace Nonce

/-- Adds `carry` to a number given by its bytes, least significant first. What
does not fit is dropped. -/
def addLow : (carry : Nat) → Bytes → Bytes
  | _, [] => []
  | carry, b :: bs =>
    if carry = 0 then b :: bs
    else
      let sum := b.toNat + carry
      UInt8.ofNat sum :: addLow (sum / 256) bs

theorem length_addLow (carry : Nat) (bs : Bytes) : (addLow carry bs).length = bs.length := by
  induction bs generalizing carry with
  | nil => rfl
  | cons b bs ih =>
    rw [addLow]
    split
    · rfl
    · rw [List.length_cons, ih, List.length_cons]

/-- The nonce `i` after `start`, beginning again at zero behind the last one. -/
def add (start : Digest) (i : UInt64) : Digest :=
  ⟨(addLow i.toNat start.toList.reverse).reverse, by
    rw [List.length_reverse, length_addLow, List.length_reverse, start.length_toList]⟩

end Nonce

namespace Header

def withNonce (h : Header) (nonce : Digest) : Header := { h with nonce := nonce }

/-- The bytes of a header with another nonce in the nonce's place. -/
def withNonceBytes (header : Bytes) (nonce : Digest) : Bytes :=
  header.take nonceOffset ++ (nonce.toList ++ header.drop (nonceOffset + 32))

end Header

/-- The best trial of a search. -/
structure SearchResult where
  nonce : Digest
  id : Digest
  /-- How many headers were tried. -/
  trials : UInt64
  deriving DecidableEq

namespace SearchResult

/-- The nonce of a trial and the id that it gives. -/
def trial (start : Digest) (header : Bytes) (i : Nat) : Digest × Digest :=
  let nonce := Nonce.add start (UInt64.ofNat i)
  (nonce, .double (Header.withNonceBytes header nonce))

/-- Continues with `count` trials from trial `i` on. -/
def improve (start : Digest) (header : Bytes) :
    (count i : Nat) → (best : Digest × Digest) → Digest × Digest
  | 0, _, best => best
  | count + 1, i, best =>
    let next := trial start header i
    improve start header count (i + 1) (if compare next.2 best.2 = .lt then next else best)

end SearchResult

/-- Trials that are made side by side, by their numbers, and how their results meet. -/
inductive Tournament where
  | entry (i : Nat)
  | game (left right : Tournament)

namespace Tournament

/-- The numbers of all trials. -/
def entries : Tournament → List Nat
  | .entry i => [i]
  | .game left right => left.entries ++ right.entries

/-- The number, the nonce and the id of the best trial. A lower id wins, and of two trials
with one id the earlier. -/
def winner (start : Digest) (header : Bytes) : Tournament → Nat × Digest × Digest
  | .entry i => (i, SearchResult.trial start header i)
  | .game left right =>
    let a := winner start header left
    let b := winner start header right
    -- the numbers of the trials decide between equal ids, and not who came first
    match compare a.2.2 b.2.2 with
    | .lt => a
    | .gt => b
    | .eq => if a.1 ≤ b.1 then a else b

end Tournament

namespace Header

/-- The lowest id among `n` trials, of which there is at least one. -/
def search (h : Header) (n : UInt64) : SearchResult :=
  let trials := if n = 0 then 1 else n
  let bytes := h.encode
  let first := SearchResult.trial h.nonce bytes 0
  let best := SearchResult.improve h.nonce bytes (trials.toNat - 1) 1 first
  ⟨best.1, best.2, trials⟩

/-- The same search with its trials made side by side. -/
def searchSideBySide (h : Header) (n : UInt64) (trials : Tournament) : SearchResult :=
  let best := trials.winner h.nonce h.encode
  ⟨best.2.1, best.2.2, if n = 0 then 1 else n⟩

/-- The lowest id alone. -/
def lowestId (h : Header) (n : UInt64) : Digest := (h.search n).id

/-- The nonce of the lowest id alone. -/
def lowestNonce (h : Header) (n : UInt64) : Digest := (h.search n).nonce

end Header

end UtxoLedger
