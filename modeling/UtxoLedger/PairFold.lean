/-
UtxoLedger.PairFold — combining a list in pairs, level by level, down to one value.

A level joins its neighbours left to right, and an odd last value moves up
unchanged. `fold` repeats this until one value is left. Two trees of this
library have that shape: the tree of chunks inside a BLAKE3 hash and the Merkle
tree over the transactions of a block. Moving the odd value up gives each node
a left part whose size is the largest power of two below its own.
-/

namespace UtxoLedger.PairFold

variable {α : Type}

/-- One level: neighbours joined, an odd last value kept. -/
def level (join : α → α → α) : List α → List α
  | [] => []
  | [last] => [last]
  | a :: b :: rest => join a b :: level join rest

theorem length_level (join : α → α → α) (xs : List α) :
    (level join xs).length = (xs.length + 1) / 2 := by
  fun_induction level join xs with
  | case1 => simp only [List.length_nil]
  | case2 => simp only [List.length_cons, List.length_nil]
  | case3 a b rest ih =>
    rw [List.length_cons, ih]
    simp only [List.length_cons]
    omega

/-- Levels one above the other until a single value is left; the empty list has
none. -/
def fold (join : α → α → α) (xs : List α) : Option α :=
  if xs.length ≤ 1 then xs.head? else fold join (level join xs)
termination_by xs.length
decreasing_by rw [length_level]; omega

end UtxoLedger.PairFold
