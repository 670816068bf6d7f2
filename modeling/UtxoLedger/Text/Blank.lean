/-
UtxoLedger.Text.Blank — white space, and the words between it.

Blank characters are the 25 with the Unicode property White_Space (Unicode
15.1): more than the four that the core library knows, and without the
zero-width characters, which belong to a word.
-/

namespace UtxoLedger.Blank

/-- Closed ranges of code points, ascending and apart. -/
def ranges : List (Nat × Nat) :=
  [(0x09, 0x0d), (0x20, 0x20), (0x85, 0x85), (0xa0, 0xa0), (0x1680, 0x1680), (0x2000, 0x200a),
   (0x2028, 0x2029), (0x202f, 0x202f), (0x205f, 0x205f), (0x3000, 0x3000)]

def isBlank (c : Char) : Bool :=
  ranges.any fun r => decide (r.1 ≤ c.toNat) && decide (c.toNat ≤ r.2)

/-- The words of a text: its maximal runs of characters that are not blank. -/
def words (cs : List Char) : List (List Char) :=
  match h : cs.dropWhile isBlank with
  | [] => []
  | c :: rest =>
    have : (rest.dropWhile (!isBlank ·)).length < cs.length := by
      have h1 := (List.dropWhile_suffix (l := cs) isBlank).length_le
      have h2 := (List.dropWhile_suffix (l := rest) (!isBlank ·)).length_le
      rw [h, List.length_cons] at h1
      omega
    (c :: rest.takeWhile (!isBlank ·)) :: words (rest.dropWhile (!isBlank ·))
termination_by cs.length

end UtxoLedger.Blank
