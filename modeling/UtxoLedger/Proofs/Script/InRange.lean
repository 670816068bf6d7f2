/-
UtxoLedger.Proofs.Script.InRange — no access by position is ever out of range.

Each program over the vector of items does what the machine does on its list, and so comes
to no fault: `shuffle_eq`, `pick_eq`, `roll_eq`, `substr_eq`, `left_eq`, `right_eq`,
`binary_eq` and `checkMultiSig_eq`. For the rearrangements it is enough to show where the
items above and below are (`run_copyFromDepth` and the like); a stack that is too short is
refused before anything is subtracted. A depth that the script asks for is compared with
the stack that is left when it has been taken away (`popPosition_cases`), a length with
the data (`popPart_cases`). The keys are searched by position, and the key that is found is
removed at its place (`run_findKey`).

From one visit to a run it is an induction on the turns (`run_loop`): the visit leaves the
position alone, so each turn uses up one of the chunks that are left.
-/
import UtxoLedger.Proofs.Script.Indexed
import UtxoLedger.Proofs.Script.Nesting

namespace UtxoLedger

namespace Indexed

/-! ## Rearrangements -/

section

variable {m : Machine} {back : Stack} {a : Bytes}

/-- A copy of `mid` from under `front`. The range that is cut out ends below `front`, so it
is in the vector, and its end is a position that a word holds. -/
theorem run_copyFromDepth (front mid : Stack) (h : m.stack = front ++ (mid ++ back)) :
    (copyFromDepth (front.length + mid.length) mid.length).run m =
      .done () { m with stack := mid ++ m.stack } := by
  have hsplit : m.stack = (front ++ mid) ++ back := by rw [h, List.append_assoc]
  have hadd : add m.stack.length back.length mid.length = pure (back.length + mid.length) := by
    refine add_of_le_held ?_
    rw [h, List.length_append, List.length_append]
    omega
  simp [copyFromDepth, run_require hsplit List.length_append,
    run_fromTop hsplit List.length_append, hadd, slice_items h, run_extend]

theorem run_raise (front mid : Stack) (h : m.stack = front ++ (mid ++ back)) :
    (raise (front.length + mid.length) front.length).run m =
      .done () { m with stack := mid ++ (front ++ back) } := by
  have hsplit : m.stack = (front ++ mid) ++ back := by rw [h, List.append_assoc]
  have habove : (fromTop front.length).run m = .done (back.length + mid.length) m := by
    rw [run_fromTop h rfl, List.length_append, Nat.add_comm]
  simp [raise, run_require hsplit List.length_append, run_fromTop hsplit List.length_append,
    habove, run_drain h, run_extend]

/-- The item under `front` comes to the top. It is removed before it is pushed, so the
vector is as long as it was. -/
theorem run_bring (front : Stack) (h : m.stack = front ++ a :: back) :
    (bring (front.length + 1)).run m = .done () { m with stack := a :: (front ++ back) } := by
  have hsplit : m.stack = (front ++ [a]) ++ back := by simp [h]
  have hdepth : (front ++ [a]).length = front.length + 1 := List.length_append
  simp [bring, run_require hsplit hdepth, run_fromTop hsplit hdepth, run_remove h, Machine.push]

section

variable {b : Bytes} (h : m.stack = b :: a :: back)
include h

theorem stack_eq_two : m.stack = [b, a] ++ back := h

/-- Two items are there to be worked on, so the subtractions below are in range. -/
theorem run_require_two : (require 2).run m = .done () m := run_require (stack_eq_two h) rfl

theorem run_fromTop_two : (fromTop 2).run m = .done back.length m :=
  run_fromTop (stack_eq_two h) rfl

theorem run_nip : nip.run m = .done () { m with stack := b :: back } := by
  have hsplit : m.stack = [b] ++ a :: back := h
  have hremove : (remove back.length).run m = .done a { m with stack := b :: back } :=
    run_remove hsplit
  simp [nip, run_require_two h, run_fromTop_two h, hremove]

/-- The copy goes below both items, where the lower of them was. -/
theorem run_tuck : tuck.run m = .done () { m with stack := b :: a :: b :: back } := by
  have htop : top.run m = .done b m := by simp [top, h]
  have hinsert := run_insert b (stack_eq_two h)
  simp [tuck, run_require_two h, htop, run_fromTop_two h, hinsert]

theorem run_drop2 : drop2.run m = .done () { m with stack := back } := by
  have htruncate := run_truncate (stack_eq_two h)
  simp [drop2, run_require_two h, run_fromTop_two h, htruncate]

end

end

/-- What an operation on the stack comes to. -/
def popped (m : Machine) : Popped → Outcome Unit
  | .ok s => .done () { m with stack := s }
  | .fail error s => .halt error { m with stack := s }

/-- A program that does what an operation on the stack does comes to the same visit. -/
theorem andNext_eq {act : Act Unit} {m : Machine} {operation : Stack → Popped}
    (h : act.run m = popped m (operation m.stack)) :
    (andNext act).run m = visited (m.onStack operation) := by
  rw [andNext, run_bind, h, Machine.onStack]
  cases operation m.stack <;> rfl

/-- One case per member, and in each the stacks that are too short first. These are refused
by `require`, before a position is computed. -/
theorem shuffle_eq (kind : Shuffle) (m : Machine) :
    (shuffle kind).run m = popped m (Stack.shuffle kind m.stack) := by
  obtain ⟨s, alt, conditions, position, opCount, cache⟩ := m
  -- in each case the short stacks are refused before a position is computed, so both sides
  -- compute
  match kind with
  | .drop =>
    cases s <;> rfl
  | .dup =>
    rcases s with _ | ⟨a, s⟩
    · rfl
    · exact run_copyFromDepth [] [a] rfl
  | .dup2 =>
    rcases s with _ | ⟨b, _ | ⟨a, s⟩⟩
    iterate 2 rfl
    exact run_copyFromDepth [] [b, a] rfl
  | .dup3 =>
    rcases s with _ | ⟨c, _ | ⟨b, _ | ⟨a, s⟩⟩⟩
    iterate 3 rfl
    exact run_copyFromDepth [] [c, b, a] rfl
  | .over =>
    rcases s with _ | ⟨b, _ | ⟨a, s⟩⟩
    iterate 2 rfl
    exact run_copyFromDepth [b] [a] rfl
  | .over2 =>
    rcases s with _ | ⟨d, _ | ⟨c, _ | ⟨b, _ | ⟨a, s⟩⟩⟩⟩
    iterate 4 rfl
    exact run_copyFromDepth [d, c] [b, a] rfl
  | .drop2 =>
    rcases s with _ | ⟨b, _ | ⟨a, s⟩⟩
    iterate 2 rfl
    exact run_drop2 rfl
  | .nip =>
    rcases s with _ | ⟨b, _ | ⟨a, s⟩⟩
    iterate 2 rfl
    exact run_nip rfl
  | .swap =>
    rcases s with _ | ⟨b, _ | ⟨a, s⟩⟩
    iterate 2 rfl
    exact run_bring [b] rfl
  | .rot =>
    rcases s with _ | ⟨c, _ | ⟨b, _ | ⟨a, s⟩⟩⟩
    iterate 3 rfl
    exact run_bring [c, b] rfl
  | .tuck =>
    rcases s with _ | ⟨b, _ | ⟨a, s⟩⟩
    iterate 2 rfl
    exact run_tuck rfl
  | .swap2 =>
    rcases s with _ | ⟨d, _ | ⟨c, _ | ⟨b, _ | ⟨a, s⟩⟩⟩⟩
    iterate 4 rfl
    exact run_raise [d, c] [b, a] rfl
  | .rot2 =>
    rcases s with _ | ⟨f, _ | ⟨e, _ | ⟨d, _ | ⟨c, _ | ⟨b, _ | ⟨a, s⟩⟩⟩⟩⟩⟩
    iterate 6 rfl
    exact run_raise [f, e, d, c] [b, a] rfl

/-! ## Positions that the script asks for -/

/-- Either there is no such item, or its position is the number of items below it. -/
theorem popPosition_cases (m : Machine) :
    (∃ s, popPosition.run m = .halt .invalidStackOperation { m with stack := s } ∧
      Stack.pick m.stack = Stack.missing s ∧ Stack.roll m.stack = Stack.missing s) ∨
    ∃ a front back,
      popPosition.run m = .done back.length { m with stack := front ++ a :: back } ∧
      Stack.pick m.stack = .ok (a :: (front ++ a :: back)) ∧
      Stack.roll m.stack = .ok (a :: (front ++ back)) := by
  obtain ⟨s, alt, conditions, position, opCount, cache⟩ := m
  rcases Stack.depth_cases s with
    rfl | ⟨n, rest, rfl, hmissing, hpick, hroll⟩ | ⟨n, front, a, back, rfl, hcount⟩
  · exact Or.inl ⟨[], rfl, rfl, rfl⟩
  · refine Or.inl ⟨rest, ?_, hpick, hroll⟩
    rw [popPosition, run_bind, run_require_of_le (Nat.le_add_left _ _)]
    simp only [andThen_done, run_bind, run_popCount, run_length, hmissing]
    rfl
  · refine Or.inr ⟨a, front, back, ?_, Stack.pick_of_count hcount, Stack.roll_of_count hcount⟩
    have hlength : (front ++ a :: back).length = (back.length + 1) + front.length := by
      rw [List.length_append, List.length_cons, Nat.add_comm]
    have hi : front.length < (front ++ a :: back).length := by omega
    rw [popPosition, run_bind, run_require_of_le (Nat.le_add_left _ _)]
    simp only [andThen_done, run_bind, run_popCount, run_length, hcount]
    rw [Option.filter_some, if_pos (decide_eq_true hi), hlength]
    simp only [orHalt, run_bind, run_pure, andThen_done, sub_add]

theorem pick_eq (m : Machine) : pick.run m = popped m (Stack.pick m.stack) := by
  rcases popPosition_cases m with ⟨s, hrun, hpick, -⟩ | ⟨a, front, back, hrun, hpick, -⟩
  · simp [pick, hrun, hpick, Stack.missing, popped]
  · have hitem := run_itemAt (m := { m with stack := front ++ a :: back }) rfl
    simp [pick, hrun, hpick, hitem, Machine.push, popped]

/-- The position of the item that is moved is that of the item that is copied. -/
theorem roll_eq (m : Machine) : roll.run m = popped m (Stack.roll m.stack) := by
  rcases popPosition_cases m with ⟨s, hrun, -, hroll⟩ | ⟨a, front, back, hrun, -, hroll⟩
  · simp [roll, hrun, hroll, Stack.missing, popped]
  · have hremove := run_remove (m := { m with stack := front ++ a :: back }) rfl
    simp [roll, hrun, hroll, hremove, Machine.push, popped]

/-! ## Parts of an item -/

/-- Both ends are compared with the length of the data, as a sum that is checked for
overflow. -/
theorem range?_eq (length i n : Nat) :
    range? length (some i) (some n) = if i + n ≤ length then some (i, n) else none := by
  have hany : (checkedAdd length i n).any (decide <| · ≤ length) = decide (i + n ≤ length) := by
    unfold checkedAdd
    split
    · rfl
    · simp
      omega
  simp only [range?, hany, decide_eq_true_eq]

/-- Where the range is in the data, the slice is; where it is not, the script has failed
already. -/
theorem substr_eq (m : Machine) : substr.run m = popped m (Stack.substr m.stack) := by
  obtain ⟨_ | ⟨count, _ | ⟨start, _ | ⟨data, s⟩⟩⟩, alt, conditions, position, opCount, cache⟩ := m
  · rfl
  · rfl
  · rfl
  · rw [substr, run_bind, run_require_of_le (Nat.le_add_left _ _)]
    simp only [andThen_done, run_bind, run_popCount, run_pop, Stack.substr]
    cases Number.toCount? (Number.decode start) with
    | none => rfl
    | some i =>
      cases Number.toCount? (Number.decode count) with
      | none => rfl
      | some n =>
        dsimp only
        rw [range?_eq]
        by_cases hle : i + n ≤ data.length
        · have hadd : add data.length i n = pure (i + n) := add_of_le_held hle
          have hslice := slice_of_le (Nat.le_add_right i n) hle
          simp [hle, orHalt, hadd, hslice, Machine.push, popped, List.drop_take]
        · simp [hle, orHalt, popped, Stack.missing]

/-- Either the data is too short, or the bytes at both of its ends are there. -/
theorem popPart_cases (m : Machine) :
    (∃ s, popPart.run m = .halt .invalidStackOperation { m with stack := s } ∧
      Stack.left m.stack = Stack.missing s ∧ Stack.right m.stack = Stack.missing s) ∨
    ∃ n data s, n ≤ data.length ∧ popPart.run m = .done (n, data) { m with stack := s } ∧
      Stack.left m.stack = .ok (data.take n :: s) ∧
      Stack.right m.stack = .ok (data.drop (data.length - n) :: s) := by
  obtain ⟨_ | ⟨count, _ | ⟨data, s⟩⟩, alt, conditions, position, opCount, cache⟩ := m
  · exact Or.inl ⟨[], rfl, rfl, rfl⟩
  · exact Or.inl ⟨[count], rfl, rfl, rfl⟩
  · rw [popPart, run_bind, run_require_of_le (Nat.le_add_left _ _)]
    simp only [andThen_done, run_bind, run_popCount, run_pop, Stack.left, Stack.right]
    cases Number.toCount? (Number.decode count) with
    | none => exact Or.inl ⟨s, rfl, rfl, rfl⟩
    | some n =>
      rcases Nat.lt_or_ge data.length n with hlt | hle
      · refine Or.inl ⟨s, ?_, if_neg (Nat.not_le.mpr hlt), if_neg (Nat.not_le.mpr hlt)⟩
        rw [atMost_of_lt _ hlt]
        rfl
      · refine Or.inr ⟨n, data, s, hle, ?_, if_pos hle, if_pos hle⟩
        rw [atMost_of_le _ hle]
        rfl

theorem left_eq (m : Machine) : left.run m = popped m (Stack.left m.stack) := by
  rcases popPart_cases m with ⟨s, hrun, hleft, -⟩ | ⟨n, data, s, hle, hrun, hleft, -⟩
  · simp [left, hrun, hleft, Stack.missing, popped]
  · have hslice := slice_of_le (Nat.zero_le n) hle
    simp [left, hrun, hleft, hslice, Machine.push, popped]

theorem right_eq (m : Machine) : right.run m = popped m (Stack.right m.stack) := by
  rcases popPart_cases m with ⟨s, hrun, -, hright⟩ | ⟨n, data, s, hle, hrun, -, hright⟩
  · simp [right, hrun, hright, Stack.missing, popped]
  · have hslice := slice_of_le (Nat.sub_le data.length n) (Nat.le_refl _)
    simp [right, hrun, hright, sub_of_le hle, hslice, Machine.push, popped]

/-! ## Division -/

/-- A divisor that is zero is refused before anything is divided by it. -/
theorem run_apply (kind : Binary) (a b : Int) (m : Machine) :
    (apply kind a b).run m =
      match kind.apply a b with
      | .ok z => .done z m
      | .error error => .halt error m := by
  unfold apply
  split
  · by_cases hb : b = 0 <;> simp [hb, Binary.apply, quot]
  · by_cases hb : b = 0 <;> simp [hb, Binary.apply, rem]
  · cases kind.apply a b <;> rfl

theorem binary_eq (kind : Binary) (m : Machine) :
    (binary kind).run m = popped m (Stack.binary kind m.stack) := by
  obtain ⟨_ | ⟨b, _ | ⟨a, s⟩⟩, alt, conditions, position, opCount, cache⟩ := m
  · rfl
  · rfl
  · rw [binary, run_bind, run_require_of_le (Nat.le_add_left _ _)]
    simp only [andThen_done, run_bind, run_pop, run_apply, Stack.binary]
    cases kind.apply (Number.decode a) (Number.decode b) <;> rfl

/-! ## Signatures -/

/-- As many items as were asked for, so the search by position knows how many keys there
are. -/
theorem length_of_takeSized {size : Nat} : ∀ {count : Nat} {s rest : Stack} {taken : List Bytes},
    Machine.takeSized size count s = .ok (taken, rest) → taken.length = count
  | 0, _, _, _, h => by
      cases h
      rfl
  | _ + 1, [], _, _, h => by cases h
  | count + 1, a :: s, rest, taken, h => by
      rw [Machine.takeSized] at h
      split at h
      · cases htake : Machine.takeSized size count s with
        | error _ =>
          rw [htake] at h
          cases h
        | ok result =>
          rw [htake] at h
          cases h
          rw [List.length_cons, length_of_takeSized htake]
      · cases h

/-- What taking items off the stack comes to. -/
def taken (m : Machine) (error : ScriptError) : Except Stack (List Bytes × Stack) →
    Outcome (List Bytes)
  | .ok (items, rest) => .done items { m with stack := rest }
  | .error rest => .halt error { m with stack := rest }

/-- That there are enough items has been checked before, once for all of them. -/
theorem run_popSized (size : Nat) (error : ScriptError) : ∀ {count : Nat} {m : Machine},
    count ≤ m.stack.length →
      (popSized size error count).run m = taken m error (Machine.takeSized size count m.stack)
  | 0, _, _ => rfl
  | count + 1, ⟨[], _, _, _, _, _⟩, h => absurd h (Nat.not_succ_le_zero count)
  | count + 1, ⟨a :: s, alt, conditions, position, opCount, cache⟩, h => by
      rw [popSized, run_bind, run_pop, andThen_done]
      dsimp only [Machine.takeSized]
      by_cases hsize : a.length = size
      · have ih := run_popSized size error
          (m := ⟨s, alt, conditions, position, opCount, cache⟩) (Nat.le_of_succ_le_succ h)
        rw [if_pos hsize, if_pos hsize, run_bind, ih]
        dsimp only
        cases Machine.takeSized size count s <;> rfl
      · rw [if_neg hsize, if_neg hsize]
        rfl

variable (env : Setting)

/-- The search by position finds what the machine takes out. -/
theorem run_findKey (sig : Bytes) : ∀ (keys before : List Bytes) (m : Machine),
    ∃ found, (findKey env sig (before ++ keys) keys.length before.length).run m =
        .done found { m with cache := (Machine.takeMatch env sig keys m.cache).2 } ∧
      ((found = none ∧ (Machine.takeMatch env sig keys m.cache).1 = none) ∨
        ∃ front key back, keys = front ++ key :: back ∧
          found = some (before.length + front.length) ∧
          (Machine.takeMatch env sig keys m.cache).1 = some (front ++ back))
  | [], before, m => ⟨none, rfl, Or.inl ⟨rfl, rfl⟩⟩
  | key :: keys, before, m => by
      rw [List.length_cons, findKey, run_bind, get_append, run_pure, andThen_done, run_bind]
      dsimp only [checkItem, Machine.takeMatch]
      cases hcheck : Machine.checkItem env key sig m.cache with
      | mk success cache =>
        cases success with
        | true => exact ⟨_, rfl, Or.inr ⟨[], key, keys, rfl, rfl, rfl⟩⟩
        | false =>
          obtain ⟨found, hrun, hfound⟩ :=
            run_findKey sig keys (before ++ [key]) { m with cache }
          -- a position among the keys that are left is one further among all
          rw [List.append_assoc, List.length_append] at hrun
          dsimp only at hrun hfound ⊢
          cases hrest : Machine.takeMatch env sig keys cache with
          | mk left cache =>
            rw [hrest] at hrun hfound
            rcases hfound with ⟨rfl, hleft⟩ | ⟨front, found, back, rfl, rfl, hleft⟩
            · dsimp only at hleft
              subst hleft
              exact ⟨none, hrun, Or.inl ⟨rfl, rfl⟩⟩
            · dsimp only at hleft
              subst hleft
              refine ⟨_, hrun, Or.inr ⟨key :: front, found, back, rfl, ?_, rfl⟩⟩
              simp only [List.length_append, List.length_cons, List.length_nil]
              congr 1
              omega

/-- The counter cannot overflow: it grows by one for each signature at most. -/
theorem run_matchSigs : ∀ (sigs keys : List Bytes) (matched : Nat) (m : Machine),
    matched + sigs.length ≤ wordMax →
      (matchSigs env sigs keys matched).run m =
        .done (matched + (Machine.countMatches env sigs keys m.cache).1)
          { m with cache := (Machine.countMatches env sigs keys m.cache).2 }
  | [], _, _, _, _ => rfl
  | sig :: sigs, keys, matched, m, h => by
      rw [List.length_cons] at h
      obtain ⟨found, hrun, hfound⟩ := run_findKey env sig keys [] m
      rw [List.nil_append, List.length_nil] at hrun
      rw [matchSigs, run_bind, hrun, andThen_done]
      dsimp only [Machine.countMatches]
      cases htake : Machine.takeMatch env sig keys m.cache with
      | mk left cache =>
        rw [htake] at hfound
        dsimp only at hfound ⊢
        rcases hfound with ⟨rfl, rfl⟩ | ⟨front, key, back, rfl, rfl, rfl⟩
        · exact run_matchSigs sigs keys matched { m with cache } (by omega)
        -- the key at the position that was found is taken out, so the keys before and
        -- behind it are left
        · have hadd : add 0 matched 1 = pure (matched + 1) := add_of_le_wordMax (by omega)
          have ih := run_matchSigs sigs (front ++ back) (matched + 1) { m with cache } (by omega)
          rw [List.length_nil, Nat.zero_add]
          simp only [run_bind, removeAt_append, hadd, run_pure, andThen_done, ih]
          congr 1
          omega

/-- A count that has passed its check is within its bound. -/
theorem le_of_filter {count : Option Nat} {bound n : Nat}
    (h : count.filter (decide <| · ≤ bound) = some n) : n ≤ bound :=
  of_decide_eq_true (Option.filter_eq_some_iff.mp h).2

/-- Each of the two counts is bounded before it is used, so the sums with it are in range. -/
theorem checkMultiSig_eq (thenVerify : Bool) (m : Machine) :
    (checkMultiSig env thenVerify).run m = visited (m.checkMultiSig env thenVerify) := by
  obtain ⟨_ | ⟨top, s⟩, alt, conditions, position, opCount, cache⟩ := m
  · rfl
  · rw [checkMultiSig, run_bind, run_require_of_le (Nat.le_add_left _ _)]
    simp only [andThen_done, run_bind, run_popCount, Machine.checkMultiSig, atMost]
    cases hkeyCount :
      (Number.toCount? (Number.decode top)).filter (decide <| · ≤ Script.maxKeys) with
    | none => rfl
    | some keyCount =>
      -- the bound on the count is what keeps the sum with it in range
      have hmax : keyCount ≤ 16 := le_of_filter hkeyCount
      have hadd : add 0 keyCount 1 = pure (keyCount + 1) :=
        add_of_le_wordMax (Nat.le_trans (Nat.succ_le_succ hmax) (by decide))
      simp only [orHalt, run_pure, andThen_done, run_bind, hadd]
      by_cases hshort : s.length < keyCount + 1
      · rw [if_pos hshort, run_require_of_lt hshort]
        rfl
      · rw [if_neg hshort, run_require_of_le (Nat.not_lt.mp hshort), andThen_done, run_bind,
          run_popSized _ _ (by dsimp only; omega)]
        dsimp only
        cases hkeys : Machine.takeSized PublicKey.size keyCount s with
        | error rest => rfl
        | ok result =>
          obtain ⟨keys, _ | ⟨top, s⟩⟩ := result
          · rfl
          · simp only [taken, andThen_done, run_bind, run_popCount]
            cases hsigCount :
              (Number.toCount? (Number.decode top)).filter (decide <| · ≤ keyCount) with
            | none => rfl
            | some sigCount =>
              have hle : sigCount ≤ keyCount := le_of_filter hsigCount
              simp only [run_pure, andThen_done, run_bind]
              by_cases hfew : s.length < sigCount
              · rw [if_pos hfew, run_require_of_lt hfew]
                rfl
              · rw [if_neg hfew, run_require_of_le (Nat.not_lt.mp hfew), andThen_done, run_bind,
                  run_popSized _ _ (by dsimp only; omega)]
                dsimp only
                cases hsigs : Machine.takeSized TxSignature.size sigCount s with
                | error rest => rfl
                | ok result =>
                  obtain ⟨sigs, s⟩ := result
                  have hlength : sigs.length = sigCount := length_of_takeSized hsigs
                  -- the counter starts at zero and grows once for a signature at most
                  have hfits : 0 + sigs.length ≤ wordMax :=
                    Nat.le_trans (by omega) (show 16 ≤ wordMax by decide)
                  simp only [taken, andThen_done, run_bind]
                  rw [run_matchSigs env sigs keys 0 _ hfits, Nat.zero_add]
                  rfl

/-! ## Runs -/

/-- Opcodes that use no position are the machine's own. -/
theorem exec_eq (code : Opcode) (m : Machine) :
    (exec env code).run m = visited (m.exec env code) := by
  cases code with
  | shuffle kind => exact andNext_eq (shuffle_eq kind m)
  | pick => exact andNext_eq (pick_eq m)
  | roll => exact andNext_eq (roll_eq m)
  | substr => exact andNext_eq (substr_eq m)
  | left => exact andNext_eq (left_eq m)
  | right => exact andNext_eq (right_eq m)
  | binary kind => exact andNext_eq (binary_eq kind m)
  | checkMultiSig => exact checkMultiSig_eq env false m
  | checkMultiSigVerify => exact checkMultiSig_eq env true m
  | _ => rfl

theorem step_eq (chunk : Chunk) (m : Machine) :
    (step env chunk).run m = visited (m.step env chunk) := by
  cases chunk with
  | op code noData => exact exec_eq env code m
  | unknown _ _ | push _ _ => rfl

theorem visit_eq (chunk : Chunk) (m : Machine) :
    (visit env chunk).run m = visited (m.visit env chunk) := by
  dsimp only [visit, Machine.visit]
  split
  · exact step_eq env chunk (m.tally chunk)
  · rfl

/-- What a run comes to. -/
def ended : Machine × Option ScriptError → Outcome Unit
  | (m, none) => .done () m
  | (m, some error) => .halt error m

theorem close_eq (m : Machine) : close.run m = ended (runFrom env [] m) := by
  rw [runFrom, close]
  dsimp only
  split <;> rfl

/-- With a turn for each chunk that is left, the loop is done in time. -/
theorem run_loop : ∀ {turns : Nat} {m : Machine},
    env.script.chunks.length - m.position ≤ turns →
    (loop env turns).run m = ended (runFrom env (env.script.chunks.drop m.position) m)
  | 0, m, h => by
      have hdone : ¬ m.position < env.script.chunks.length := by omega
      rw [loop, run_bind, position, andThen_done]
      rw [if_neg hdone, List.drop_eq_nil_of_le (Nat.not_lt.mp hdone), close_eq env]
  | turns + 1, m, h => by
      rw [loop, run_bind, position, andThen_done]
      by_cases hleft : m.position < env.script.chunks.length
      · have hget := get_of_getElem? (List.getElem?_eq_getElem hleft)
        have hadd : add env.script.chunks.length m.position 1 = pure (m.position + 1) :=
          add_of_le_held hleft
        rw [if_pos hleft, run_bind, hget, run_pure, andThen_done, run_bind, visit_eq,
          List.drop_eq_getElem_cons hleft, runFrom]
        cases hvisit : m.visit env env.script.chunks[m.position] with
        | stop m' => rfl
        | fail error m' => rfl
        | next m' =>
          -- the visit leaves the position alone, so the turn that the loop has used is the
          -- chunk it passed
          have hposition : m'.position = m.position := Machine.position_of_visit hvisit
          simp only [visited, andThen_done, run_bind, hadd, run_pure, setPosition]
          rw [run_loop (by dsimp only; omega), hposition]
      · rw [if_neg hleft, List.drop_eq_nil_of_le (Nat.not_lt.mp hleft), close_eq env]

/-- A run needs no more turns than there are chunks, so it does not run out of them. -/
theorem run_eq (e : Evaluation) : run env e = .ok (e.run env) := by
  rw [run, run_loop env (Nat.le_refl _), Evaluation.run]
  cases runFrom env (env.script.chunks.drop e.machine.position) e.machine with
  | mk m failure => cases failure <;> rfl

/-- Each run starts where the one before has stopped, which is a position in the script or
its end. -/
theorem runs_eq (e : Evaluation) : ∀ n : Nat, runs env e n = .ok (e.after env n)
  | 0 => rfl
  | n + 1 => by
      rw [runs, runs_eq e n]
      exact run_eq env (e.after env n)

end Indexed

namespace Evaluation

/-- What a run leaves for the caller to see. -/
structure Concluded (e : Evaluation) : Prop where
  returned_eq : e.returned = some (e.machine.stack.headD [])
  success_eq : ∃ success, e.success = some success ∧
    (success = true ↔ e.error = none ∧
      ∃ top below, e.machine.stack = top :: below ∧ ∃ byte ∈ top, byte ≠ 0)

/-- An empty stack counts like an empty item. -/
theorem isTrue_headD_iff (s : Stack) : Number.isTrue (s.headD []) = true ↔
    ∃ top below, s = top :: below ∧ ∃ byte ∈ top, byte ≠ 0 := by
  cases s with
  | nil => simp [Number.isTrue]
  | cons top below => simp [Number.isTrue]

/-- The run has an answer in each of its three endings. -/
theorem concluded_run (env : Setting) (e : Evaluation) : (e.run env).Concluded := by
  refine ⟨rfl, _, rfl, ?_⟩
  rw [Bool.and_eq_true, isTrue_headD_iff, Option.isNone_iff_eq_none]
  rfl

/-- **The interpreter never panics and always stops.** With every position, range,
difference, sum and divisor checked, no number of runs comes to a fault, each of them is
done in as many turns as chunks are left, and they come to what the machine comes to. No
position is ever beyond the last chunk, and every run leaves its item and its verdict. -/
theorem runs_in_range (env : Setting) (stack : Stack) (cache : SighashCache) (n : Nat) :
    Indexed.runs env (start stack cache) n = .ok ((start stack cache).after env n) ∧
      (∀ m, ((start stack cache).after env n).Meets env m →
        m.position ≤ env.script.chunks.length) ∧
      ((start stack cache).after env (n + 1)).Concluded := by
  refine ⟨Indexed.runs_eq env _ n, fun m hmeets => ?_, concluded_run env _⟩
  exact (level_of_meets (level_after env stack cache n) hmeets).position_le

/-! ### A depth beyond the stack

Asked for the fourth item of a stack with one, a script fails, and fails again when it is
run again, at the same chunk. -/

namespace DeepSample

def setting : Setting := ⟨⟨[.op .pick rfl]⟩, ⟨0, [], [], 0⟩, 0, 0⟩

end DeepSample

open DeepSample in
theorem runs_in_range_sample :
    ∃ e, Indexed.runs setting (start [[3], [7]] .empty) 2 = .ok e ∧
      e.error = some .invalidStackOperation ∧ e.success = some false ∧ e.machine.position = 0 := by
  obtain ⟨hruns, -, -⟩ := runs_in_range setting [[3], [7]] .empty 2
  exact ⟨_, hruns, by decide +kernel⟩

end Evaluation

end UtxoLedger
