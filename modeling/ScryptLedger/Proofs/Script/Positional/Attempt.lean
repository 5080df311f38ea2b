import Mathlib.Algebra.Group.Int.Defs
import Mathlib.Algebra.Group.Nat.Defs
import ScryptLedger.Proofs.Outcome
import ScryptLedger.Script.Error

/-!
# Operations that a machine can fail to carry out

A machine finds bytes by their positions, stack elements by their indices, and
computes in words of fixed width. Where a position lies outside, a difference is
negative or a word too narrow, it cannot go on. A fault is none of the refusals
that scripts can meet: those are answers, and a fault is not.

Lengths and positions are the only numbers without a width. They stay below the
size of a memory, or that size and a number of 32 bits, which words of 64 bits
hold.
-/

namespace ScryptLedger

/-- What a machine cannot carry out. -/
inductive Fault where
  /-- A position outside of a sequence. -/
  | outOfRange
  /-- An unsigned difference below zero. -/
  | underflow
  /-- A shift by the width of a word or more. -/
  | wideShift
  /-- A result that its word does not hold. -/
  | overflow
  | divisionByZero
deriving DecidableEq, Repr

/-- Why a computation does not go on. -/
inductive Stop where
  | fault (cause : Fault)
  | refused (cause : ScriptError)
deriving DecidableEq, Repr

/-- A computation on a machine that faults. -/
abbrev Attempt (Value : Type) := Except Stop Value

namespace Attempt

variable {Value Result : Type}

def fault (cause : Fault) : Attempt Value := throw (.fault cause)

def refuse (cause : ScriptError) : Attempt Value := throw (.refused cause)

/-- Whether a computation ends in a fault. -/
def Faults (attempt : Attempt Value) : Prop := ∃ cause, attempt = .error (.fault cause)

/-- The computation that refuses where another does, gives what that one gives in another shape,
and never faults. -/
def of (shape : Value → Result) : Except ScriptError Value → Attempt Result
  | .ok value => return shape value
  | .error cause => refuse cause

/-! ## Sequences -/

/-- The element at an index. -/
def item (values : List Value) (index : Nat) : Attempt Value :=
  match values[index]? with
  | some value => return value
  | none => fault .outOfRange

/-- The elements between two positions. -/
def slice (values : List Value) (start stop : Nat) : Attempt (List Value) :=
  if start ≤ stop ∧ stop ≤ values.length then return (values.take stop).drop start
  else fault .outOfRange

/-- The elements from a position on. -/
def sliceFrom (values : List Value) (start : Nat) : Attempt (List Value) :=
  slice values start values.length

/-- The elements before a position, and those from it on. -/
def splitAt (values : List Value) (position : Nat) : Attempt (List Value × List Value) :=
  if position ≤ values.length then return (values.take position, values.drop position)
  else fault .outOfRange

/-- The sequence with another element at an index. -/
def put (values : List Value) (index : Nat) (value : Value) : Attempt (List Value) :=
  if index < values.length then return values.set index value else fault .outOfRange

/-- The sequence with the elements at two indices exchanged. -/
def swap (values : List Value) (first second : Nat) : Attempt (List Value) := do
  let one ← item values first
  let other ← item values second
  put (← put values first other) second one

/-- The element at an index, and the sequence without it. -/
def removeAt (values : List Value) (index : Nat) : Attempt (Value × List Value) := do
  return (← item values index, values.eraseIdx index)

/-- The sequence with one more element, at an index. -/
def insertAt (values : List Value) (index : Nat) (value : Value) : Attempt (List Value) := do
  let (before, after) ← splitAt values index
  return before ++ value :: after

/-- The elements between two positions, and the sequence without them. -/
def drain (values : List Value) (start stop : Nat) : Attempt (List Value × List Value) := do
  return (← slice values start stop, values.take start ++ values.drop stop)

/-- The sequence with its first elements behind the others. -/
def rotateLeft (values : List Value) (count : Nat) : Attempt (List Value) := do
  let (first, others) ← splitAt values count
  return others ++ first

/-! ## Words -/

/-- A difference of unsigned numbers. -/
def minus (a b : Nat) : Attempt Nat :=
  if b ≤ a then return a - b else fault .underflow

/-- A number that has to fit into an unsigned word. -/
def unsigned (width n : Nat) : Attempt Nat :=
  if n < 2 ^ width then return n else fault .overflow

/-- A number that has to fit into a signed word of 64 bits. -/
def int64 (n : Int) : Attempt Int :=
  if -2 ^ 63 ≤ n ∧ n < 2 ^ 63 then return n else fault .overflow

/-- A quotient of signed words, toward zero. -/
def quotient (a b : Int) : Attempt Int :=
  if b = 0 then fault .divisionByZero else int64 (a.tdiv b)

/-- The remainder of that division; it faults wherever the quotient does. -/
def remainder (a b : Int) : Attempt Int := do
  discard <| quotient a b
  return a.tmod b

def shiftLeft {width : Nat} (word : BitVec width) (distance : Nat) : Attempt (BitVec width) :=
  if distance < width then return word <<< distance else fault .wideShift

def shiftRight {width : Nat} (word : BitVec width) (distance : Nat) : Attempt (BitVec width) :=
  if distance < width then return word >>> distance else fault .wideShift

/-! ## Computations that do not fault -/

section Of

variable {shape : Value → Result} {cause : ScriptError}

@[simp]
theorem of_pure {value : Value} : of shape (pure value) = pure (shape value) := rfl

@[simp]
theorem of_throw : of shape (throw cause : Except ScriptError Value) = refuse cause := rfl

@[simp]
theorem refuse_bind {next : Value → Attempt Result} : (refuse cause >>= next) = refuse cause := rfl

/-- One computation after another, the first in the shape it has. -/
theorem of_bind {Middle : Type} {first : Except ScriptError Middle}
    {next : Middle → Except ScriptError Value} :
    of shape (first >>= next) = of id first >>= fun middle => of shape (next middle) := by
  cases first <;> rfl

/-- A computation in another shape, and what comes after it. -/
theorem of_eq_bind {outcome : Except ScriptError Value} :
    of shape outcome = of id outcome >>= fun value => pure (shape value) := by
  cases outcome <;> rfl

/-- Two computations one after the other, where both are others in some shape. -/
theorem bind_eq_of {Middle Reached : Type} {outcome : Except ScriptError Middle}
    {next : Middle → Except ScriptError Value} {reach : Middle → Reached}
    {onward : Reached → Attempt Result}
    (same : ∀ middle, outcome = .ok middle → onward (reach middle) = of shape (next middle)) :
    of reach outcome >>= onward = of shape (outcome >>= next) := by
  cases outcome with
  | error cause => rfl
  | ok middle => exact same middle rfl

/-- The same where the first keeps its shape. -/
theorem bind_id_eq_of {Middle : Type} {outcome : Except ScriptError Middle}
    {next : Middle → Except ScriptError Value} {onward : Middle → Attempt Result}
    (same : ∀ middle, outcome = .ok middle → onward middle = of shape (next middle)) :
    of id outcome >>= onward = of shape (outcome >>= next) :=
  bind_eq_of same

theorem of_ite {condition : Prop} [Decidable condition] {yes no : Except ScriptError Value} :
    of shape (if condition then yes else no)
      = if condition then of shape yes else of shape no :=
  apply_ite (of shape) condition yes no

/-- Two computations that refuse for the same reason. -/
theorem refuse_eq_of {reason : Prop} [Decidable reason] {next : Except ScriptError Value}
    {onward : Attempt Result} (same : ¬ reason → onward = of shape next) :
    (if reason then refuse cause else onward)
      = of shape (if reason then throw cause else next) := by
  by_cases broken : reason
  · rw [if_pos broken, if_pos broken]
    rfl
  · rw [if_neg broken, if_neg broken]
    exact same broken

/-- Two computations whose answer is the same refusal. -/
theorem refuse_eq_pure {Cause : Type} {reason : Prop} [Decidable reason] {cause : Cause}
    {onward : Attempt (Except Cause Value)} {next : Except Cause Value}
    (same : ¬ reason → onward = pure next) :
    (if reason then pure (.error cause) else onward)
      = pure (if reason then throw cause else next) := by
  by_cases broken : reason
  · rw [if_pos broken, if_pos broken]
    rfl
  · rw [if_neg broken, if_neg broken]
    exact same broken

theorem not_faults_of {outcome : Except ScriptError Value} : ¬ (of shape outcome).Faults := by
  rintro ⟨cause, faulted⟩
  cases outcome <;> cases faulted

theorem not_faults_of_eq_pure {attempt : Attempt Value} {value : Value}
    (succeeds : attempt = pure value) : ¬ attempt.Faults := by
  rintro ⟨cause, faulted⟩
  cases succeeds.symm.trans faulted

end Of

/-! ## Operations that succeed -/

section Succeeding

variable {values before after : List Value} {value : Value} {start stop index : Nat}

theorem item_eq (found : values[index]? = some value) : item values index = pure value := by
  rw [item, found]

/-- What stands at a height above the one end is what stands at a depth below the other. -/
theorem item_reverse {depth : Nat} (opposite : index + depth + 1 = values.length) :
    item values.reverse index = item values depth := by
  rw [item, item, List.getElem?_reverse (by omega), show values.length - 1 - index = depth by omega]

theorem slice_eq (ordered : start ≤ stop) (inside : stop ≤ values.length) :
    slice values start stop = pure ((values.take stop).drop start) :=
  if_pos ⟨ordered, inside⟩

theorem sliceFrom_eq (inside : start ≤ values.length) :
    sliceFrom values start = pure (values.drop start) := by
  rw [sliceFrom, slice_eq inside (Nat.le_refl _), List.take_length]

theorem splitAt_eq (inside : start ≤ values.length) :
    splitAt values start = pure (values.take start, values.drop start) :=
  if_pos inside

/-- What is found index by index is what the whole sequence shows. -/
theorem mapM_range (values : List Value) {find : Nat → Attempt Result} {shown : Value → Result}
    (found : ∀ index (inside : index < values.length), find index = pure (shown values[index])) :
    (List.range values.length).mapM find = pure (values.map shown) := by
  have upTo : ∀ count ≤ values.length,
      (List.range count).mapM find = pure ((values.take count).map shown) := by
    intro count inside
    induction count with
    | zero => rfl
    | succ count ih =>
      rw [List.range_succ, List.mapM_append, ih (Nat.le_of_succ_le inside),
        List.take_succ_eq_append_getElem inside]
      simp only [List.mapM_cons, List.mapM_nil, found count inside, pure_bind, List.map_append,
        List.map_cons, List.map_nil]
  rw [upTo _ (Nat.le_refl _), List.take_length]

theorem mapM_item (values : List Value) :
    (List.range values.length).mapM (item values) = pure values := by
  have found : (List.range values.length).mapM (item values) = pure (values.map id) :=
    mapM_range values fun _ inside => item_eq (List.getElem?_eq_getElem inside)
  rwa [List.map_id] at found

theorem put_eq (inside : index < values.length) :
    put values index value = pure (values.set index value) :=
  if_pos inside

theorem minus_eq {a b : Nat} (fits : b ≤ a) : minus a b = pure (a - b) :=
  if_pos fits

theorem unsigned_eq {width n : Nat} (fits : n < 2 ^ width) : unsigned width n = pure n :=
  if_pos fits

theorem int64_eq {n : Int} (fits : n.natAbs < 2 ^ 63) : int64 n = pure n :=
  if_pos (by omega)

theorem shiftLeft_eq {width distance : Nat} {word : BitVec width} (near : distance < width) :
    shiftLeft word distance = pure (word <<< distance) :=
  if_pos near

theorem shiftRight_eq {width distance : Nat} {word : BitVec width} (near : distance < width) :
    shiftRight word distance = pure (word >>> distance) :=
  if_pos near

end Succeeding

end Attempt

end ScryptLedger
