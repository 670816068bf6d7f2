/-
UtxoLedger.Proofs.Script.Pushes — scripts that only push.

`Chunk.pushed?` is the item that a chunk puts on the stack by its own form, and
`Script.pushed` lists these items in the order of the chunks. `runFrom_pushes`
says that running chunks of this kind does that and nothing else: no error, no
count, nothing on the second stack, no digest computed. The induction is on the
chunks; no conditional is open at the start and pushes open none, so every chunk
is executed.
-/
import UtxoLedger.Proofs.Script.NumberForms
import UtxoLedger.Script.Evaluation

namespace UtxoLedger

/-- The item that the chunk pushes, if all that it does is push. -/
def Chunk.pushed? : Chunk → Option Bytes
  | .op .zero _ => some []
  | .op .negativeOne _ => some (Number.encode (-1))
  | .op (.small index) _ => some (Number.encode (index.val + 1))
  | .op _ _ => none
  | .unknown _ _ => none
  | .push data _ => some data

/-- The items that the pushes of the script put on the stack, the first at the
bottom. -/
def Script.pushed (script : Script) : List Bytes := script.chunks.filterMap Chunk.pushed?

/-- Whether a chunk pushes is decided by its opcode. -/
theorem Chunk.isSome_pushed? (chunk : Chunk) :
    chunk.pushed?.isSome = (match chunk.opcode? with
      | some code => code.isPush
      | none => false) := by
  cases chunk with
  | op code noData =>
    cases code with
    | pushData width => cases noData
    | _ => rfl
  | unknown _ _ => rfl
  | push _ _ => rfl

/-- The smallest numbers are pushed as themselves. -/
theorem Chunk.pushed?_smallNat {n : Nat} (h : n ≤ 16) :
    ∃ item, (smallNat n h).pushed? = some item ∧ Number.decode item = n := by
  refine ⟨Number.encode (n : Int), ?_, Number.decode_encode n⟩
  unfold smallNat
  split
  · rename_i hzero
    subst hzero
    rfl
  · rename_i hpos
    have hsucc : ((n - 1 : Nat) : Int) + 1 = (n : Int) := by omega
    show some (Number.encode (((n - 1 : Nat) : Int) + 1)) = _
    rw [hsucc]

theorem Script.isPushOnly_iff (script : Script) :
    script.isPushOnly = true ↔ ∀ chunk ∈ script.chunks, chunk.pushed?.isSome = true := by
  constructor
  · intro h chunk hmem
    exact (Chunk.isSome_pushed? chunk).trans (List.all_eq_true.mp h chunk hmem)
  · intro h
    refine List.all_eq_true.mpr fun chunk hmem => ?_
    exact (Chunk.isSome_pushed? chunk).symm.trans (h chunk hmem)

namespace Machine

/-- A push does not count. -/
theorem tally_of_pushed {chunk : Chunk} {item : Bytes} (h : chunk.pushed? = some item)
    (m : Machine) : m.tally chunk = m := by
  have hbyte : ¬ lastUncounted < chunk.byte := by
    cases chunk with
    | op code _ =>
      cases code with
      | zero => exact (by decide : ¬ lastUncounted < Opcode.toByte .zero)
      | negativeOne => exact (by decide : ¬ lastUncounted < Opcode.toByte .negativeOne)
      | small index =>
        have hall : ∀ index, ¬ lastUncounted < Opcode.toByte (.small index) := by decide
        exact hall index
      | _ => cases h
    | unknown _ _ => cases h
    | push data _ =>
      show ¬ lastUncounted < (Opcode.pushData (.narrowest data.length)).toByte
      cases LengthWidth.narrowest data.length <;> decide
  exact if_neg hbyte

theorem visit_of_pushed {env : Setting} {m : Machine} {chunk : Chunk} {item : Bytes}
    (hon : m.isExecuting = true) (h : chunk.pushed? = some item) :
    m.visit env chunk = .next (m.push item) := by
  rw [visit, hon, Bool.true_or, if_pos rfl, tally_of_pushed h]
  cases chunk with
  | op code _ =>
    cases code with
    | zero | negativeOne | small _ => cases h; rfl
    | _ => cases h
  | unknown _ _ => cases h
  | push _ _ => cases h; rfl

end Machine

/-- The items come to lie in reverse on what was there. Nothing can fail. -/
theorem runFrom_pushes (env : Setting) : ∀ (chunks : List Chunk) (m : Machine),
    (∀ chunk ∈ chunks, chunk.pushed?.isSome = true) → m.conditions = [] →
      runFrom env chunks m =
        ({ m with
            stack := (chunks.filterMap Chunk.pushed?).reverse ++ m.stack
            position := m.position + chunks.length }, none)
  | [], m, _, hopen => by
      show (m, if m.conditions.isEmpty then none else some _) = (m, none)
      rw [hopen]
      rfl
  | chunk :: rest, m, hpush, hopen => by
      obtain ⟨item, hitem⟩ := Option.isSome_iff_exists.mp (hpush chunk List.mem_cons_self)
      have hon : m.isExecuting = true := by
        rw [Machine.isExecuting, hopen]
        rfl
      have hrest := runFrom_pushes env rest { m.push item with position := m.position + 1 }
        (fun c hc => hpush c (List.mem_cons_of_mem chunk hc)) hopen
      rw [runFrom, Machine.visit_of_pushed hon hitem]
      show runFrom env rest { m.push item with position := m.position + 1 } = _
      rw [hrest, List.filterMap_cons_some hitem, List.reverse_cons, List.append_assoc,
        List.length_cons, Nat.add_assoc, Nat.add_comm 1]
      rfl

/-- A push-only script, run from the start, leaves its items on the stack with
the last on top, and nothing else changes. -/
theorem runFrom_pushOnly {env : Setting} (cache : SighashCache)
    (h : env.script.isPushOnly = true) :
    runFrom env env.script.chunks (Evaluation.start [] cache).machine =
      (⟨env.script.pushed.reverse, [], [], env.script.chunks.length, 0, cache⟩, none) := by
  rw [runFrom_pushes env env.script.chunks _ (env.script.isPushOnly_iff.mp h) rfl, Script.pushed]
  simp [Evaluation.start]

end UtxoLedger
