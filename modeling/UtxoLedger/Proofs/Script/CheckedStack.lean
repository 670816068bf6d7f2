/-
UtxoLedger.Proofs.Script.CheckedStack — a stack as a vector with positions from the bottom.

The machine keeps its stack with the top in front and takes it apart by patterns, where
nothing can miss. A stack that grows at the end of a vector is worked on by position: a
depth is subtracted from the length, a range cut out, an item removed or inserted in the
middle. Each of these has a condition. The operations here check it, and where it does not
hold they come to a `Fault`. That is not one of the script's errors (`Outcome.halt`):
nothing that a script contains asks for it.

A program (`Act`) works on the machine itself, whose items as a vector are its stack
reversed. The laws at the end say when the operations are in range. In each of them the
stack is split, and the position of an item is the number of items below it.
-/
import UtxoLedger.Script.Evaluation

namespace UtxoLedger.Indexed

/-! ## Programs -/

/-- What no run may come to. -/
inductive Fault where
  /-- A position or a range that is not in the vector. -/
  | outOfRange
  /-- A difference below zero. -/
  | underflow
  /-- A sum that no word holds. -/
  | overflow
  | divisionByZero
  /-- A loop that is not done when its turns are used up. -/
  | unfinished
  deriving DecidableEq

/-- What a program comes to. -/
inductive Outcome (α : Type) where
  | done (result : α) (m : Machine)
  /-- The script fails. -/
  | halt (error : ScriptError) (m : Machine)
  | fault (reason : Fault)
  deriving DecidableEq

/-- A program that works on a machine. -/
structure Act (α : Type) where
  run : Machine → Outcome α

/-- Goes on with the result, if there is one. -/
def Outcome.andThen {α β : Type} (o : Outcome α) (next : α → Act β) : Outcome β :=
  match o with
  | .done a m => (next a).run m
  | .halt error m => .halt error m
  | .fault reason => .fault reason

instance : Monad Act where
  pure a := ⟨fun m => .done a m⟩
  bind x next := ⟨fun m => (x.run m).andThen next⟩

section

variable {α β : Type}

def halt (error : ScriptError) : Act α := ⟨fun m => .halt error m⟩

def fault (reason : Fault) : Act α := ⟨fun _ => .fault reason⟩

/-- The value, or the error where there is none. -/
def orHalt (error : ScriptError) : Option α → Act α
  | some a => pure a
  | none => halt error

@[simp] theorem run_bind (x : Act α) (next : α → Act β) (m : Machine) :
    (x >>= next).run m = (x.run m).andThen next := rfl

@[simp] theorem run_pure (a : α) (m : Machine) : (pure a : Act α).run m = .done a m := rfl

@[simp] theorem run_halt (error : ScriptError) (m : Machine) :
    (halt error : Act α).run m = .halt error m := rfl

@[simp] theorem andThen_done (a : α) (m : Machine) (next : α → Act β) :
    (Outcome.done a m).andThen next = (next a).run m := rfl

/-- A script that has failed does not go on. -/
@[simp] theorem andThen_halt (error : ScriptError) (m : Machine) (next : α → Act β) :
    (Outcome.halt error m).andThen next = .halt error m := rfl

/-! ## Words -/

/-- The largest length, position or count. -/
def wordMax : Nat := 18446744073709551615

/-- The sum, if a word holds it. Lists here may be longer than any word counts, vectors are
not: the length `held` of one that is at hand always fits. -/
def checkedAdd (held a b : Nat) : Option Nat :=
  if a + b ≤ max held wordMax then some (a + b) else none

def add (held a b : Nat) : Act Nat :=
  match checkedAdd held a b with
  | some c => pure c
  | none => fault .overflow

def sub (a b : Nat) : Act Nat := if b ≤ a then pure (a - b) else fault .underflow

def quot (a b : Int) : Act Int := if b = 0 then fault .divisionByZero else pure (Int.tdiv a b)

def rem (a b : Int) : Act Int := if b = 0 then fault .divisionByZero else pure (Int.tmod a b)

/-- The count, if it is within the bound. -/
def atMost (bound : Nat) (error : ScriptError) (count : Option Nat) : Act Nat :=
  orHalt error (count.filter (decide <| · ≤ bound))

/-- A sum that is at most the length of a vector at hand is a position in it, or its end. -/
theorem add_of_le_held {held a b : Nat} (h : a + b ≤ held) : add held a b = pure (a + b) := by
  rw [add, checkedAdd, if_pos (Nat.le_trans h (Nat.le_max_left _ _))]

theorem add_of_le_wordMax {held a b : Nat} (h : a + b ≤ wordMax) :
    add held a b = pure (a + b) := by
  rw [add, checkedAdd, if_pos (Nat.le_trans h (Nat.le_max_right _ _))]

/-- A difference is in range where it is not negative. -/
theorem sub_of_le {a b : Nat} (h : b ≤ a) : sub a b = pure (a - b) := if_pos h

/-- The form in which differences come up here: what was added is taken off again. -/
theorem sub_add (a b : Nat) : sub (a + b) b = pure a := by
  rw [sub_of_le (Nat.le_add_left b a), Nat.add_sub_cancel]

theorem atMost_of_le {bound n : Nat} (error : ScriptError) (h : n ≤ bound) :
    atMost bound error (some n) = pure n := by
  rw [atMost, Option.filter_some, if_pos (decide_eq_true h)]
  rfl

theorem atMost_of_lt {bound n : Nat} (error : ScriptError) (h : bound < n) :
    atMost bound error (some n) = halt error := by
  rw [atMost, Option.filter_some, if_neg (by simpa using h)]
  rfl

/-! ## Vectors -/

def get (xs : List α) (i : Nat) : Act α :=
  match xs[i]? with
  | some a => pure a
  | none => fault .outOfRange

/-- The items from position `start` up to `stop`. -/
def slice (xs : List α) (start stop : Nat) : Act (List α) :=
  if start ≤ stop ∧ stop ≤ xs.length then pure ((xs.take stop).drop start)
  else fault .outOfRange

def removeAt (xs : List α) (i : Nat) : Act (List α) :=
  if i < xs.length then pure (xs.eraseIdx i) else fault .outOfRange

def insertAt (xs : List α) (i : Nat) (a : α) : Act (List α) :=
  if i ≤ xs.length then pure (xs.take i ++ a :: xs.drop i) else fault .outOfRange

theorem get_of_getElem? {xs : List α} {i : Nat} {a : α} (h : xs[i]? = some a) :
    get xs i = pure a := by
  rw [get, h]

/-- A range is in the vector if it is not inverted and ends in it. -/
theorem slice_of_le {xs : List α} {start stop : Nat} (h : start ≤ stop)
    (hstop : stop ≤ xs.length) : slice xs start stop = pure ((xs.take stop).drop start) :=
  if_pos ⟨h, hstop⟩

/-- The item with `below` under it is at position `below.length`. The four laws that follow
have this form: the vector is given in parts, and the lengths of the parts are the
positions. -/
theorem get_append (below above : List α) (a : α) :
    get (below ++ a :: above) below.length = pure a :=
  get_of_getElem? (by simp)

/-- The middle part is the range from where it begins to where it ends. -/
theorem slice_append (below mid above : List α) :
    slice (below ++ (mid ++ above)) below.length (below.length + mid.length) = pure mid := by
  rw [slice_of_le (Nat.le_add_right _ _) (by simp), ← List.length_append, ← List.append_assoc,
    List.take_left, List.drop_left]

/-- Removing the item joins the parts. -/
theorem removeAt_append (below above : List α) (a : α) :
    removeAt (below ++ a :: above) below.length = pure (below ++ above) := by
  rw [removeAt, if_pos (by simp), List.eraseIdx_append_of_length_le (Nat.le_refl _),
    Nat.sub_self]
  rfl

/-- At the end of `below` there is room for an item, also if nothing is above. -/
theorem insertAt_append (below above : List α) (a : α) :
    insertAt (below ++ above) below.length a = pure (below ++ a :: above) := by
  rw [insertAt, if_pos (by simp), List.take_left, List.drop_left]

end

/-! ## The stack -/

/-- The items of the stack, the bottom first. -/
def items : Act (List Bytes) := ⟨fun m => .done m.stack.reverse m⟩

def setItems (xs : List Bytes) : Act Unit := ⟨fun m => .done () { m with stack := xs.reverse }⟩

def length : Act Nat := ⟨fun m => .done m.stack.length m⟩

/-- Halts unless there are as many items. -/
def require (depth : Nat) : Act Unit where
  run m := if m.stack.length < depth then .halt .invalidStackOperation m else .done () m

def push (item : Bytes) : Act Unit := ⟨fun m => .done () (m.push item)⟩

def pop : Act Bytes where
  run m :=
    match m.stack with
    | [] => .halt .invalidStackOperation m
    | a :: s => .done a { m with stack := s }

def top : Act Bytes where
  run m :=
    match m.stack with
    | [] => .halt .invalidStackOperation m
    | a :: _ => .done a m

/-- The top, taken away, as a count. -/
def popCount : Act (Option Nat) := do
  return Number.toCount? (Number.decode (← pop))

def extend (added : List Bytes) : Act Unit := do
  setItems ((← items) ++ added)

/-- The position of the item `depth` from the top; the top itself is at depth one. -/
def fromTop (depth : Nat) : Act Nat := do
  sub (← length) depth

def itemAt (i : Nat) : Act Bytes := do
  get (← items) i

def remove (i : Nat) : Act Bytes := do
  let a ← itemAt i
  setItems (← removeAt (← items) i)
  return a

def insert (i : Nat) (a : Bytes) : Act Unit := do
  setItems (← insertAt (← items) i a)

def truncate (count : Nat) : Act Unit := do
  setItems ((← items).take count)

/-- Takes the items of a range out. -/
def drain (start stop : Nat) : Act (List Bytes) := do
  let xs ← items
  let moved ← slice xs start stop
  setItems (xs.take start ++ xs.drop stop)
  return moved

@[simp] theorem run_items (m : Machine) : items.run m = .done m.stack.reverse m := rfl

@[simp] theorem run_setItems (xs : List Bytes) (m : Machine) :
    (setItems xs).run m = .done () { m with stack := xs.reverse } := rfl

@[simp] theorem run_length (m : Machine) : length.run m = .done m.stack.length m := rfl

@[simp] theorem run_push (item : Bytes) (m : Machine) :
    (push item).run m = .done () (m.push item) := rfl

section

variable (n : Bytes) (s alt : Stack) (conditions : List Bool) (position opCount : Nat)
  (cache : SighashCache)

@[simp] theorem run_pop : pop.run ⟨n :: s, alt, conditions, position, opCount, cache⟩ =
    .done n ⟨s, alt, conditions, position, opCount, cache⟩ := rfl

@[simp] theorem run_popCount : popCount.run ⟨n :: s, alt, conditions, position, opCount, cache⟩ =
    .done (Number.toCount? (Number.decode n)) ⟨s, alt, conditions, position, opCount, cache⟩ := rfl

end

/-! ## Operations in range -/

section

variable {m : Machine} {front mid back : Stack} {a : Bytes} {depth : Nat}

/-- Enough items. -/
theorem run_require_of_le (h : depth ≤ m.stack.length) : (require depth).run m = .done () m :=
  if_neg (Nat.not_lt.mpr h)

/-- Too few items are the script's error. Every opcode asks for its operands first, so the
positions below are computed only of stacks that are deep enough. -/
theorem run_require_of_lt (h : m.stack.length < depth) :
    (require depth).run m = .halt .invalidStackOperation m :=
  if_pos h

/-- The same for a stack that is given in parts. -/
theorem run_require (h : m.stack = front ++ back) (hdepth : front.length = depth) :
    (require depth).run m = .done () m := by
  refine run_require_of_le ?_
  rw [h, List.length_append, hdepth]
  exact Nat.le_add_right _ _

/-- Below `front` are as many items as `back` has, so its length is the position of the
lowest item of `front`. -/
theorem run_fromTop (h : m.stack = front ++ back) (hdepth : front.length = depth) :
    (fromTop depth).run m = .done back.length m := by
  have hlength : m.stack.length = back.length + depth := by
    rw [h, List.length_append, hdepth, Nat.add_comm]
  simp [fromTop, hlength, sub_add]

/-- It is a fault to go deeper than the stack is. -/
example (cache : SighashCache) :
    (fromTop 2).run ⟨[[7]], [], [], 0, 0, cache⟩ = .fault .underflow := rfl

/-- Items that are added at the end of the vector come on top in reverse. -/
theorem run_extend (added : List Bytes) (m : Machine) :
    (extend added).run m = .done () { m with stack := added.reverse ++ m.stack } := by
  simp [extend]

/-- The item under `front`, by its position. -/
theorem run_itemAt (h : m.stack = front ++ a :: back) :
    (itemAt back.length).run m = .done a m := by
  have hget := get_append back.reverse front.reverse a
  rw [List.length_reverse] at hget
  simp [itemAt, h, hget]

/-- The item under `front` is moved out, and the stack closes. -/
theorem run_remove (h : m.stack = front ++ a :: back) :
    (remove back.length).run m = .done a { m with stack := front ++ back } := by
  have hremove := removeAt_append back.reverse front.reverse a
  rw [List.length_reverse] at hremove
  simp [remove, run_itemAt h, h, hremove]

/-- It is a fault to remove what is not there. -/
example (cache : SighashCache) :
    (remove 2).run ⟨[[8], [7]], [], [], 0, 0, cache⟩ = .fault .outOfRange := rfl

theorem run_insert (a : Bytes) (h : m.stack = front ++ back) :
    (insert back.length a).run m = .done () { m with stack := front ++ a :: back } := by
  have hinsert := insertAt_append back.reverse front.reverse a
  rw [List.length_reverse] at hinsert
  simp [insert, h, hinsert]

theorem run_truncate (h : m.stack = front ++ back) :
    (truncate back.length).run m = .done () { m with stack := back } := by
  simp [truncate, h]

/-- In the vector the parts stand the other way round. -/
theorem slice_items (h : m.stack = front ++ (mid ++ back)) :
    slice m.stack.reverse back.length (back.length + mid.length) = pure mid.reverse := by
  have hslice := slice_append back.reverse mid.reverse front.reverse
  simpa [h] using hslice

/-- The items of the range are handed over with the lowest first. -/
theorem run_drain (h : m.stack = front ++ (mid ++ back)) :
    (drain back.length (back.length + mid.length)).run m =
      .done mid.reverse { m with stack := front ++ back } := by
  rw [drain, run_bind, run_items, andThen_done, run_bind, slice_items h]
  simp [h, List.drop_append]

end

end UtxoLedger.Indexed
