/-
UtxoLedger.Proofs.Codec.Incremental — readers that more bytes do not mislead.

A reader takes bytes off the front and looks no further than it takes. What it has made
of them, or found wrong with them, stands whatever comes behind; the one answer that more
bytes can change is that there are not enough (`Incremental`). A reader made of
incremental ones is incremental. This needs nothing to be known about the values, so a
count or a length that was read may be anything here.

For a reader that takes exactly the encodings (`Canonical`) it tells what becomes of an
encoding whose end is missing: had the reader made a value of the front part, or found
any other fault with it, it would do so with the whole encoding as well
(`Canonical.cut_short`).

Reading a chunk is not incremental. It reports missing bytes as a malformed script, so it
may be applied only where the bytes of a script are known to be complete.
-/
import UtxoLedger.Proofs.Codec.Canonical

namespace UtxoLedger

namespace Reader

variable {α β : Type}

/-- Bytes behind those that were looked at change no answer but that there are too few. -/
structure Incremental (item : Reader α) : Prop where
  ok : ∀ {bs rest : Bytes} {a : α}, item bs = .ok (a, rest) →
    ∀ more, item (bs ++ more) = .ok (a, rest ++ more)
  error : ∀ {bs : Bytes} {e : Error}, item bs = .error e → e ≠ .notEnoughData →
    ∀ more, item (bs ++ more) = .error e

namespace Incremental

variable {item : Reader α}

theorem pure (a : α) : Incremental (Pure.pure a : Reader α) where
  ok := by
    intro bs rest b h more
    obtain ⟨rfl, rfl⟩ := pure_eq_ok.mp h
    rfl
  error h _ _ := nomatch h

/-- A fault that is found without reading stays. -/
theorem throw (e : Error) : Incremental (MonadExcept.throw e : Reader α) where
  ok h _ := nomatch h
  error := by
    intro bs e' h _ more
    cases h
    rfl

/-- The second reader sees what the first has left, with the same bytes behind it. -/
theorem bind {next : α → Reader β} (hitem : Incremental item)
    (hnext : ∀ a, Incremental (next a)) : Incremental (item >>= next) where
  ok := by
    intro bs rest b h more
    obtain ⟨a, mid, ha, hb⟩ := bind_eq_ok.mp h
    rw [bind_of_ok (hitem.ok ha more)]
    exact (hnext a).ok hb more
  error := by
    intro bs e h he more
    -- the fault is one of the first reader, or of the second on what the first has left
    rcases bind_eq_error.mp h with ha | ⟨a, mid, ha, hb⟩
    · exact bind_eq_error.mpr (.inl (hitem.error ha he more))
    · rw [bind_of_ok (hitem.ok ha more)]
      exact (hnext a).error hb he more

theorem map (f : α → β) (hitem : Incremental item) : Incremental (f <$> item) :=
  hitem.bind fun a => pure (f a)

/-- The count may be any: each value has to arrive. -/
theorem many (hitem : Incremental item) : ∀ count, Incremental (many item count)
  | 0 => pure []
  | count + 1 =>
    hitem.bind fun first => (many hitem count).bind fun others => pure (first :: others)

/-! ### Fields of fixed width -/

/-- Too few bytes is all that can be wrong with a field of fixed width. -/
theorem fixed (n : Nat) : Incremental (fixed n) where
  ok := by
    intro bs rest a h more
    obtain ⟨-, rfl⟩ := (canonical_fixed n).recovers h
    rw [List.append_assoc]
    exact reads_fixed a (rest ++ more)
  error := by
    intro bs e h he more
    unfold Reader.fixed at h
    dsimp only at h
    split at h
    · cases h
    · exact absurd (Except.error.inj h).symm he

theorem bytes (n : Nat) : Incremental (bytes n) := (fixed n).map _

theorem littleEndian (width : Nat) : Incremental (littleEndian width) := (bytes width).map _

theorem uint8 : Incremental uint8 := (littleEndian 1).map _

theorem uint32 : Incremental uint32 := (littleEndian 4).map _

theorem uint64 : Incremental uint64 := (littleEndian 8).map _

end Incremental

/-- **An encoding without its end is cut short,** and nothing else is wrong with it. -/
theorem Canonical.cut_short {item : Reader α} {encode : α → Bytes} {Fits : α → Prop}
    (h : Canonical item encode Fits) (hinc : Incremental item) {a : α} (ha : Fits a)
    {front back : Bytes} (hsplit : front ++ back = encode a) (hback : back ≠ []) :
    item front = .error .notEnoughData := by
  have hwhole : item (front ++ back) = .ok (a, []) := by
    have hread := h.reads a ha []
    rwa [List.append_nil, ← hsplit] at hread
  cases hfront : item front with
  | ok found =>
    obtain ⟨b, rest⟩ := found
    -- The end of the encoding would be left over, but nothing is.
    have hleft := (hinc.ok hfront back).symm.trans hwhole
    rw [Except.ok.injEq, Prod.mk.injEq, List.append_eq_nil_iff] at hleft
    exact absurd hleft.2.2 hback
  | error e =>
    by_cases he : e = .notEnoughData
    · rw [he]
    · cases (hinc.error hfront he back).symm.trans hwhole

end Reader

open Reader

/-! ## Variable length -/

namespace VarInt

/-- That a form is too wide is found in the bytes that were taken. -/
theorem incremental_readWide (width least : Nat) : Incremental (readWide width least) := by
  refine (Incremental.littleEndian width).bind fun n => ?_
  split
  · exact .throw _
  · exact .pure _

theorem incremental_read : Incremental read := by
  refine Incremental.uint8.bind fun marker => ?_
  split
  · exact .pure _
  · split
    · exact incremental_readWide _ _
    · split <;> exact incremental_readWide _ _

theorem incremental_readCount : Incremental readCount := incremental_read.map _

end VarInt

/-- The length is any that was read, even where it is far too large. -/
theorem VarBytes.incremental_read : Incremental VarBytes.read :=
  VarInt.incremental_readCount.bind Incremental.bytes

theorem VarList.incremental_read {α : Type} [Codec α]
    (hitem : Incremental (Codec.read : Reader α)) :
    Incremental (VarList.read : Reader (List α)) :=
  VarInt.incremental_readCount.bind hitem.many

end UtxoLedger
