/-
UtxoLedger.Proofs.PairFold — what folding by levels keeps.

A level acts on neighbours two at a time and lets an odd last value pass, so a value may
move up any number of levels before it is joined. Nothing here counts those levels: each
statement is about one level of a whole list and is then carried to the top by the
recursion of `fold`.

* `level_rel`, `fold_rel`: a relation that joining keeps holds of the results when it
  holds position by position. Lists of one length are folded in step, and so are the
  trees over them.
* `fold_map`: a function that commutes with joining commutes with folding.
* `forall_fold`: a property that joining keeps.
* `flatMap_fold`: what joining concatenates is concatenated in the order of the list.
* `getElem?_level`: the value at a position of the next level, joined from the values at
  two positions of this one. Seen from below, a value at an even position meets the next
  one, if there is one, and a value at an odd position the one before it.
* `fold_append`: a list that is cut behind a power of two is folded in its two parts, if
  the part behind is not the longer one. `fold_eq_join` names the place where every list of
  two values and more can be cut so.
-/
import Mathlib.Algebra.Group.Nat.Defs
import Mathlib.Data.List.Forall2
import Mathlib.Order.Bounds.Basic
import UtxoLedger.PairFold

namespace UtxoLedger.PairFold

variable {α β γ : Type} {join : α → α → α} {join' : β → β → β}

/-- There is a result unless there is nothing to fold. -/
theorem exists_fold (join : α → α → α) {xs : List α} (h : xs ≠ []) :
    ∃ top, fold join xs = some top := by
  fun_induction fold join xs with
  | case1 xs hshort =>
    cases xs with
    | nil => exact absurd rfl h
    | cons x rest => exact ⟨x, rfl⟩
  | case2 xs hlong ih =>
    apply ih
    intro hnil
    have hlength := length_level join xs
    rw [hnil, List.length_nil] at hlength
    omega

/-! ## Two folds in step -/

section InStep

variable {R : α → β → Prop}

theorem level_rel (hjoin : ∀ {a a' b b'}, R a a' → R b b' → R (join a b) (join' a' b')) :
    ∀ {xs : List α} {ys : List β}, List.Forall₂ R xs ys →
      List.Forall₂ R (level join xs) (level join' ys)
  | _, _, .nil => .nil
  | _, _, .cons h .nil => .cons h .nil
  | _, _, .cons ha (.cons hb hrest) => .cons (hjoin ha hb) (level_rel hjoin hrest)

/-- Two foldings over related lists go the same way. -/
theorem fold_rel (hjoin : ∀ {a a' b b'}, R a a' → R b b' → R (join a b) (join' a' b'))
    {xs : List α} {ys : List β} (h : List.Forall₂ R xs ys) :
    Option.Rel R (fold join xs) (fold join' ys) := by
  fun_induction fold join xs generalizing ys with
  | case1 xs hshort =>
    rw [fold, if_pos (h.length_eq ▸ hshort)]
    cases h with
    | nil => exact .none
    | cons hhead _ => exact .some hhead
  | case2 xs hlong ih =>
    rw [fold.eq_def join' ys, if_neg (h.length_eq ▸ hlong)]
    exact ih (level_rel hjoin h)

end InStep

/-! ## What commutes with joining -/

theorem level_map {f : α → β} (hf : ∀ a b, f (join a b) = join' (f a) (f b)) (xs : List α) :
    (level join xs).map f = level join' (xs.map f) := by
  fun_induction level join xs with
  | case1 => rfl
  | case2 => rfl
  | case3 a b rest ih => simp [level, hf, ih]

theorem fold_map {f : α → β} (hf : ∀ a b, f (join a b) = join' (f a) (f b)) (xs : List α) :
    (fold join xs).map f = fold join' (xs.map f) := by
  fun_induction fold join xs with
  | case1 xs hshort => rw [fold, if_pos (by simpa using hshort), List.head?_map]
  | case2 xs hlong ih =>
    rw [fold.eq_def join' (xs.map f), if_neg (by simpa using hlong), ih, level_map hf]

/-! ## What joining keeps -/

section Keeps

variable {P : α → Prop}

theorem forall_level (hjoin : ∀ {a b}, P a → P b → P (join a b)) {xs : List α}
    (hxs : ∀ x ∈ xs, P x) : ∀ x ∈ level join xs, P x := by
  fun_induction level join xs with
  | case1 => exact hxs
  | case2 => exact hxs
  | case3 a b rest ih =>
    simp only [List.forall_mem_cons] at hxs ⊢
    exact ⟨hjoin hxs.1 hxs.2.1, ih hxs.2.2⟩

/-- What joining keeps is true of the top. -/
theorem forall_fold (hjoin : ∀ {a b}, P a → P b → P (join a b)) {xs : List α}
    (hxs : ∀ x ∈ xs, P x) {top : α} (htop : fold join xs = some top) : P top := by
  fun_induction fold join xs with
  | case1 xs hshort => exact hxs top (List.mem_of_head? htop)
  | case2 xs hlong ih => exact ih (forall_level hjoin hxs) htop

end Keeps

/-! ## What joining concatenates -/

theorem flatMap_level {f : α → List γ} (hf : ∀ a b, f (join a b) = f a ++ f b) (xs : List α) :
    (level join xs).flatMap f = xs.flatMap f := by
  fun_induction level join xs with
  | case1 => rfl
  | case2 => rfl
  | case3 a b rest ih => simp [hf, ih]

/-- The top lists what the items list, in their order. -/
theorem flatMap_fold {f : α → List γ} (hf : ∀ a b, f (join a b) = f a ++ f b) {xs : List α}
    {top : α} (htop : fold join xs = some top) : f top = xs.flatMap f := by
  fun_induction fold join xs with
  | case1 xs hshort =>
    match xs, hshort, htop with
    | [x], _, htop =>
      cases htop
      simp
  | case2 xs hlong ih => rw [ih htop, flatMap_level hf]

/-! ## Positions -/

/-- Two items make one of the next level, and an odd last one goes up as it is. -/
theorem getElem?_level (join : α → α → α) (xs : List α) (i : Nat) :
    (level join xs)[i]? = xs[2 * i]?.map fun a => xs[2 * i + 1]?.elim a (join a) := by
  fun_induction level join xs generalizing i with
  | case1 => simp
  | case2 last => cases i <;> simp
  | case3 a b rest ih =>
    cases i with
    | zero => simp
    | succ i => simp [ih, Nat.mul_add]

variable {xs : List α} {i : Nat} {x : α}

/-- A value at an even position is joined with the next one, if there is one. -/
theorem getElem?_level_of_even (join : α → α → α) (heven : i % 2 = 0) (h : xs[i]? = some x) :
    (level join xs)[i / 2]? = some (xs[i + 1]?.elim x (join x)) := by
  have hself : 2 * (i / 2) = i := by omega
  rw [getElem?_level, hself, h, Option.map_some]

/-- A value at an odd position is joined with the one before it. -/
theorem getElem?_level_of_odd (join : α → α → α) (hodd : i % 2 = 1) (h : xs[i]? = some x) :
    ∃ previous, xs[i - 1]? = some previous ∧
      (level join xs)[i / 2]? = some (join previous x) := by
  have hself : 2 * (i / 2) + 1 = i := by omega
  have hbefore : 2 * (i / 2) = i - 1 := by omega
  obtain ⟨hlt, -⟩ := List.getElem?_eq_some_iff.mp h
  have hprevious : xs[i - 1]? = some xs[i - 1] := List.getElem?_eq_getElem (by omega)
  refine ⟨xs[i - 1], hprevious, ?_⟩
  rw [getElem?_level, hself, hbefore, h, hprevious, Option.map_some, Option.elim_some]

/-! ## Parts of a list -/

/-- Neighbours stay together where the list is cut at an even place. -/
theorem level_append (join : α → α → α) {front : List α} (heven : front.length % 2 = 0)
    (back : List α) : level join (front ++ back) = level join front ++ level join back := by
  fun_induction level join front with
  | case1 => rfl
  | case2 last => simp at heven
  | case3 a b rest ih =>
    simp only [List.length_cons] at heven
    simp only [List.cons_append, level]
    rw [ih (by omega)]

theorem fold_nil (join : α → α → α) : fold join [] = none := by
  rw [fold, if_pos (by simp), List.head?_nil]

theorem fold_singleton (join : α → α → α) (x : α) : fold join [x] = some x := by
  rw [fold, if_pos (by simp), List.head?_cons]

/-- A level more below makes no difference, also to a list that needs none. -/
theorem fold_level (join : α → α → α) (xs : List α) :
    fold join (level join xs) = fold join xs := by
  match xs with
  | [] => rfl
  | [x] => rfl
  | x :: y :: rest => rw [fold.eq_def join (x :: y :: rest), if_neg (by simp)]

/-- The length of the part in front is a power of two, so each level halves it evenly until
one value is left. The part behind is not longer and has come down to one value by then. -/
theorem fold_append {n : Nat} {front back : List α} {a b : α} (hfront : front.length = 2 ^ n)
    (hback : back.length ≤ 2 ^ n) (ha : fold join front = some a) (hb : fold join back = some b) :
    fold join (front ++ back) = some (join a b) := by
  induction n generalizing front back with
  | zero =>
    match front, back, hfront, hback with
    | [x], [y], _, _ =>
      rw [fold_singleton] at ha hb
      cases ha
      cases hb
      rw [← fold_level]
      exact fold_singleton join (join a b)
    | [x], [], _, _ =>
      rw [fold_nil] at hb
      cases hb
  | succ n ih =>
    rw [Nat.pow_succ] at hfront hback
    rw [← fold_level] at ha hb
    rw [← fold_level, level_append join (by omega)]
    exact ih (by rw [length_level]; omega) (by rw [length_level]; omega) ha hb

/-- The powers of two below a number. -/
def powersBelow (n : Nat) : Set Nat := {k | (∃ e, k = 2 ^ e) ∧ k < n}

/-- From two items on there is a power of two below the number of items. -/
theorem exists_isGreatest_powersBelow {n : Nat} (h : 2 ≤ n) :
    ∃ k, IsGreatest (powersBelow n) k := by
  refine ⟨2 ^ (n - 1).log2, ⟨⟨_, rfl⟩, ?_⟩, ?_⟩
  · have hle := Nat.log2_self_le (show n - 1 ≠ 0 by omega)
    omega
  · rintro k ⟨⟨e, rfl⟩, hlt⟩
    refine Nat.pow_le_pow_right (by omega) ((Nat.le_log2 (by omega)).mpr (by omega))

/-- The greatest power of two below a length is half of it or more. -/
theorem le_two_mul_of_isGreatest {n k : Nat} (h : IsGreatest (powersBelow n) k) : n ≤ 2 * k := by
  obtain ⟨⟨⟨e, rfl⟩, -⟩, hgreatest⟩ := h
  by_contra hlt
  have hnext : 2 ^ (e + 1) ∈ powersBelow n := ⟨⟨e + 1, rfl⟩, by omega⟩
  have hle := hgreatest hnext
  have hpos := Nat.two_pow_pos e
  omega

/-- **Folding by levels is folding by halves:** the values in front, as many as the
greatest power of two below their number, and the values behind them. -/
theorem fold_eq_join (join : α → α → α) {xs : List α} {k : Nat}
    (h : IsGreatest (powersBelow xs.length) k) :
    ∃ a b, fold join (xs.take k) = some a ∧ fold join (xs.drop k) = some b ∧
      fold join xs = some (join a b) := by
  have hback := le_two_mul_of_isGreatest h
  obtain ⟨⟨⟨e, rfl⟩, hlt⟩, -⟩ := h
  have hfront := Nat.two_pow_pos e
  have hlength : (xs.take (2 ^ e)).length = 2 ^ e := by
    rw [List.length_take]
    omega
  have hlength' : (xs.drop (2 ^ e)).length = xs.length - 2 ^ e := List.length_drop
  have hne : xs.take (2 ^ e) ≠ [] := List.ne_nil_of_length_pos (by omega)
  have hne' : xs.drop (2 ^ e) ≠ [] := List.ne_nil_of_length_pos (by omega)
  obtain ⟨a, ha⟩ := exists_fold join hne
  obtain ⟨b, hb⟩ := exists_fold join hne'
  refine ⟨a, b, ha, hb, ?_⟩
  have hfold := fold_append hlength (by omega) ha hb
  rwa [List.take_append_drop] at hfold

end UtxoLedger.PairFold
