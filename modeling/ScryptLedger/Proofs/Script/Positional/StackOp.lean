import ScryptLedger.Proofs.Script.Elements
import ScryptLedger.Proofs.Script.Positional.Number
import ScryptLedger.Proofs.Script.Step
import ScryptLedger.Script.StackOp

/-!
# Stacks by index

A stack is stored with its top at the end. What operations find at a depth is at
an index counted from there, and what they change is in the middle of a
sequence.
-/

namespace ScryptLedger.Script.Positional

open Attempt

/-! ## Reaching into a stack -/

/-- The top, and the stack without it. -/
def pop (stack : List Bytes) : Attempt (Bytes × List Bytes) :=
  match stack.getLast? with
  | none => refuse .invalidStackOperation
  | some top => return (top, stack.dropLast)

/-- The element at a depth; the top is at depth one. -/
def top (stack : List Bytes) (depth : Nat) : Attempt Bytes :=
  if depth = 0 ∨ stack.length < depth then refuse .invalidStackOperation
  else do item stack (← minus stack.length depth)

/-- Refuses a stack with too few elements. -/
def require (stack : List Bytes) (count : Nat) : Attempt Unit :=
  if stack.length < count then refuse .invalidStackOperation else return

/-- The stack with another top. -/
def changeTop (stack : List Bytes) (change : Bytes → Attempt Bytes) : Attempt (List Bytes) :=
  match stack.getLast? with
  | none => refuse .invalidStackOperation
  | some top => do return stack.dropLast ++ [← change top]

/-- Takes an integer off a stack. -/
def popOperand (minimal : Bool) (stack : List Bytes) : Attempt (Int × List Bytes) := do
  let (element, stack) ← pop stack
  return (← decode element minimal maxNumberSize, stack)

section Reaching

variable {a : Bytes} {s : Stack}

@[simp]
theorem pop_cons : pop (a :: s).reverse = pure (a, s.reverse) := by
  rw [pop, List.getLast?_reverse, List.dropLast_reverse]
  rfl

theorem top_reverse {depth : Nat} :
    top s.reverse (depth + 1) = match s[depth]? with
      | some element => pure element
      | none => refuse .invalidStackOperation := by
  rw [top, List.length_reverse]
  by_cases inside : depth < s.length
  · have opposite : s.length - (depth + 1) + depth + 1 = s.length := by omega
    rw [if_neg (by omega), minus_eq inside, pure_bind, item_reverse opposite,
      item_eq (List.getElem?_eq_getElem inside), List.getElem?_eq_getElem inside]
  · rw [if_pos (by omega), List.getElem?_eq_none (by omega)]

theorem require_reverse {count : Nat} :
    require s.reverse count
      = if s.length < count then refuse .invalidStackOperation else pure () := by
  rw [require, List.length_reverse]

theorem require_two {b : Bytes} : require (a :: b :: s).reverse 2 = pure () := by
  rw [require_reverse, if_neg (by simp)]

theorem require_three {b c : Bytes} : require (a :: b :: c :: s).reverse 3 = pure () := by
  rw [require_reverse, if_neg (by simp)]

theorem changeTop_cons {change : Bytes → Attempt Bytes} :
    changeTop (a :: s).reverse change = change a >>= fun a => pure (a :: s).reverse := by
  rw [changeTop, List.getLast?_reverse, List.dropLast_reverse]
  simp only [List.head?_cons, List.tail_cons, List.reverse_cons]

end Reaching

/-! ## Rearrangements -/

/-- A fixed rearrangement of the top of the stack. -/
def shuffle (stack : List Bytes) : Shuffle → Attempt (List Bytes)
  | .drop => do return (← pop stack).2
  | .drop2 => do
    require stack 2
    return stack.take (← minus stack.length 2)
  | .dup => do return stack ++ [← top stack 1]
  | .dup2 => do
    let a ← top stack 2
    let b ← top stack 1
    return stack ++ [a, b]
  | .dup3 => do
    let a ← top stack 3
    let b ← top stack 2
    let c ← top stack 1
    return stack ++ [a, b, c]
  | .nip => do
    require stack 2
    return (← removeAt stack (← minus stack.length 2)).2
  | .over1 => do return stack ++ [← top stack 2]
  | .over2 => do
    let a ← top stack 4
    let b ← top stack 3
    return stack ++ [a, b]
  | .rot => do
    require stack 3
    let start ← minus stack.length 3
    return stack.take start ++ (← rotateLeft (← sliceFrom stack start) 1)
  | .rot2 => do
    require stack 6
    let start ← minus stack.length 6
    let (moved, left) ← drain stack start (start + 2)
    return left ++ moved
  | .swap => do
    require stack 2
    swap stack (← minus stack.length 2) (← minus stack.length 1)
  | .swap2 => do
    require stack 4
    let swapped ← swap stack (← minus stack.length 4) (← minus stack.length 2)
    swap swapped (← minus stack.length 3) (← minus stack.length 1)
  | .tuck => do
    require stack 2
    insertAt stack (← minus stack.length 2) (← top stack 1)

theorem shuffle_eq (s : Stack) (f : Shuffle) :
    shuffle s.reverse f = match f.run? s with
      | some s => pure s.reverse
      | none => refuse .invalidStackOperation := by
  cases f with
  | drop =>
    rcases s with _ | ⟨a, s⟩
    · rfl
    · rw [shuffle, pop_cons]
      rfl
  | drop2 =>
    rcases s with _ | ⟨a, _ | ⟨b, s⟩⟩
    · rfl
    · rfl
    · simp [shuffle, require, Shuffle.run?, minus]
  | dup =>
    rw [shuffle, top_reverse]
    rcases s with _ | ⟨a, s⟩
    · rfl
    · simp [Shuffle.run?]
  | dup2 =>
    rw [shuffle, top_reverse, top_reverse]
    rcases s with _ | ⟨a, _ | ⟨b, s⟩⟩
    · rfl
    · rfl
    · simp [Shuffle.run?]
  | dup3 =>
    rw [shuffle, top_reverse, top_reverse, top_reverse]
    rcases s with _ | ⟨a, _ | ⟨b, _ | ⟨c, s⟩⟩⟩
    · rfl
    · rfl
    · rfl
    · simp [Shuffle.run?]
  | nip =>
    rcases s with _ | ⟨a, _ | ⟨b, s⟩⟩
    · rfl
    · rfl
    · simp [shuffle, require, Shuffle.run?, minus, removeAt, item,
        List.eraseIdx_append_of_length_le]
  | over1 =>
    rw [shuffle, top_reverse]
    rcases s with _ | ⟨a, _ | ⟨b, s⟩⟩
    · rfl
    · rfl
    · simp [Shuffle.run?]
  | over2 =>
    rw [shuffle, top_reverse, top_reverse]
    rcases s with _ | ⟨a, _ | ⟨b, _ | ⟨c, _ | ⟨d, s⟩⟩⟩⟩
    · rfl
    · rfl
    · rfl
    · rfl
    · simp [Shuffle.run?]
  | rot =>
    rcases s with _ | ⟨a, _ | ⟨b, _ | ⟨c, s⟩⟩⟩
    · rfl
    · rfl
    · rfl
    · simp [shuffle, require, Shuffle.run?, minus, sliceFrom, slice, rotateLeft, splitAt,
        List.drop_append, List.take_append, List.take_of_length_le, List.drop_of_length_le]
  | rot2 =>
    rcases s with _ | ⟨a, _ | ⟨b, _ | ⟨c, _ | ⟨d, _ | ⟨e, _ | ⟨f, s⟩⟩⟩⟩⟩⟩
    · rfl
    · rfl
    · rfl
    · rfl
    · rfl
    · rfl
    · simp [shuffle, require, Shuffle.run?, minus, drain, slice, List.drop_append,
        List.take_append, List.take_of_length_le, List.drop_of_length_le]
  | swap =>
    rcases s with _ | ⟨a, _ | ⟨b, s⟩⟩
    · rfl
    · rfl
    · simp [shuffle, require, Shuffle.run?, minus, swap, item, put]
  | swap2 =>
    rcases s with _ | ⟨a, _ | ⟨b, _ | ⟨c, _ | ⟨d, s⟩⟩⟩⟩
    · rfl
    · rfl
    · rfl
    · rfl
    · simp [shuffle, require, Shuffle.run?, minus, swap, item, put]
  | tuck =>
    rw [shuffle, top_reverse]
    rcases s with _ | ⟨a, _ | ⟨b, s⟩⟩
    · rfl
    · rfl
    · simp [require, Shuffle.run?, minus, insertAt, splitAt]

/-! ## Computations -/

/-- A function of one integer. -/
def unary : Unary → Int → Attempt Int
  | .increment, a => int64 (a + 1)
  | .decrement, a => int64 (a - 1)
  | .negate, a => int64 (-a)
  | .abs, a => int64 a.natAbs
  | .isZero, a => return truth (a == 0)
  | .isNonZero, a => return truth (a != 0)

/-- A function of two integers; a divisor is compared with zero first. -/
def binary (f : Binary) (a b : Int) : Attempt Int :=
  match f with
  | .add => int64 (a + b)
  | .sub => int64 (a - b)
  | .div => if b = 0 then refuse .divByZero else quotient a b
  | .mod => if b = 0 then refuse .modByZero else remainder a b
  | _ => of id (f.apply a b)

/-- Takes a depth off a stack, and tells the index of the element at that depth in the rest. -/
def reach (minimal : Bool) (stack : List Bytes) : Attempt (Nat × List Bytes) := do
  let (n, stack) ← popOperand minimal stack
  if n < 0 ∨ stack.length ≤ n.toNat then refuse .invalidStackOperation
  else do return (← minus (← minus stack.length 1) n.toNat, stack)

variable [Primitives]

/-- The changed stack. -/
def applyOp (minimal : Bool) (stack : List Bytes) : StackOp → Attempt (List Bytes)
  | .number n => do return stack ++ [ScriptNumber.encode (← int64 n)]
  | .verify => do
    if ← isTrue (← top stack 1) then return stack.dropLast else refuse .verify
  | .shuffle f => shuffle stack f
  | .ifDup => do
    let a ← top stack 1
    if ← isTrue a then return stack ++ [a] else return stack
  | .depth => return stack ++ [ScriptNumber.encode stack.length]
  | .pick => do
    let (index, stack) ← reach minimal stack
    return stack ++ [← item stack index]
  | .roll => do
    let (index, stack) ← reach minimal stack
    let (rolled, left) ← removeAt stack index
    return left ++ [rolled]
  | .cat => do
    require stack 2
    let (b, stack) ← pop stack
    changeTop stack fun a =>
      if a.length + b.length > maxElementSize then refuse .pushSize else return a ++ b
  | .split => do
    require stack 2
    let (n, stack) ← popOperand minimal stack
    let (data, stack) ← pop stack
    if n < 0 ∨ data.length < n.toNat then refuse .invalidSplitRange
    else do
      let (left, right) ← splitAt data n.toNat
      return stack ++ [left] ++ [right]
  | .toBinary => do
    require stack 2
    let (n, stack) ← popOperand minimal stack
    if n < 0 ∨ maxElementSize < n.toNat then refuse .pushSize
    else do
      let (raw, stack) ← pop stack
      return stack ++ [← resize raw n.toNat]
  | .toNumber => changeTop stack fun a => do
    let short ← minimize a
    if ← isMinimal short maxNumberSize then return short else refuse .invalidNumberRange
  | .size => do return stack ++ [ScriptNumber.encode (← top stack 1).length]
  | .reverse => changeTop stack fun a => return a.reverse
  | .bitwise f => do
    require stack 2
    let (b, stack) ← pop stack
    changeTop stack fun a =>
      if a.length = b.length then return a.zipWith f.apply b else refuse .invalidOperandSize
  | .equal => do
    require stack 2
    let (b, stack) ← pop stack
    let (a, stack) ← pop stack
    return stack ++ [ScriptNumber.ofBool (a == b)]
  | .equalVerify => do
    require stack 2
    let (b, stack) ← pop stack
    let (a, stack) ← pop stack
    if a == b then return stack else refuse .equalVerify
  | .unary f => do
    let (a, stack) ← popOperand minimal stack
    return stack ++ [ScriptNumber.encode (← unary f a)]
  | .binary f => do
    require stack 2
    let (b, stack) ← popOperand minimal stack
    let (a, stack) ← popOperand minimal stack
    return stack ++ [ScriptNumber.encode (← binary f a b)]
  | .numEqualVerify => do
    require stack 2
    let (b, stack) ← popOperand minimal stack
    let (a, stack) ← popOperand minimal stack
    if a = b then return stack else refuse .numEqualVerify
  | .within => do
    require stack 3
    let (max, stack) ← popOperand minimal stack
    let (min, stack) ← popOperand minimal stack
    let (a, stack) ← popOperand minimal stack
    return stack ++ [ScriptNumber.ofBool (min ≤ a && a < max)]
  | .hash f => do
    let (a, stack) ← pop stack
    return stack ++ [f.apply a]

section Computations

variable {minimal : Bool} {a : Bytes} {s : Stack}

omit [Primitives] in
theorem popOperand_cons :
    popOperand minimal (a :: s).reverse
      = of id (operand minimal a) >>= fun n => pure (n, s.reverse) := by
  simp only [popOperand, pop_cons, pure_bind, decode_eq (by decide : maxNumberSize ≤ 8)]
  rfl

omit [Primitives] in
theorem unary_eq (f : Unary) {a : Int} (small : a.natAbs < 256 ^ 4) :
    unary f a = pure (f.apply a) := by
  cases f with
  | isZero | isNonZero => rfl
  | increment | decrement | negate | abs => exact int64_eq (by omega)

omit [Primitives] in
theorem quotient_eq {a b : Int} (small : a.natAbs < 256 ^ 4) (nonzero : b ≠ 0) :
    quotient a b = pure (a.tdiv b) := by
  have shrinks : (a.tdiv b).natAbs ≤ a.natAbs := by
    rw [Int.natAbs_tdiv]
    exact Nat.div_le_self _ _
  rw [quotient, if_neg nonzero, int64_eq (by omega)]

omit [Primitives] in
theorem binary_eq (f : Binary) {a b : Int} (smallA : a.natAbs < 256 ^ 4)
    (smallB : b.natAbs < 256 ^ 4) : binary f a b = of id (f.apply a b) := by
  cases f with
  | add | sub => exact int64_eq (by omega)
  | div =>
    refine refuse_eq_of fun nonzero => ?_
    rw [quotient_eq smallA nonzero]
    rfl
  | mod =>
    refine refuse_eq_of fun nonzero => ?_
    rw [remainder, quotient_eq smallA nonzero]
    rfl
  | _ => rfl

omit [Primitives] in
theorem reach_cons :
    reach minimal (a :: s).reverse = of id (operand minimal a) >>= fun n =>
      if n < 0 ∨ s.length ≤ n.toNat then refuse .invalidStackOperation
      else pure (s.length - 1 - n.toNat, s.reverse) := by
  simp only [reach, popOperand_cons, bind_assoc, pure_bind, List.length_reverse]
  refine bind_congr fun n => ?_
  by_cases outside : n < 0 ∨ s.length ≤ n.toNat
  · rw [if_pos outside, if_pos outside]
  · rw [if_neg outside, if_neg outside, minus_eq (by omega), pure_bind, minus_eq (by omega)]
    rfl

omit [Primitives] in
theorem eraseIdx_reverse {depth : Nat} (inside : depth < s.length) :
    s.reverse.eraseIdx (s.length - 1 - depth) = (s.eraseIdx depth).reverse := by
  have taken : s.length - (s.length - 1 - depth) = depth + 1 := by omega
  have dropped : s.length - (s.length - 1 - depth + 1) = depth := by omega
  rw [List.eraseIdx_eq_take_drop_succ, List.eraseIdx_eq_take_drop_succ, List.take_reverse,
    List.drop_reverse, List.reverse_append, taken, dropped]

omit [Primitives] in
/-- An element is found at each depth that is inside. -/
theorem of_reached (result : Bytes → Stack) (n : Int) :
    of List.reverse (match s[n.toNat]? with
      | some b => if n < 0 then throw .invalidStackOperation else return result b
      | none => throw .invalidStackOperation)
      = if n < 0 ∨ s.length ≤ n.toNat then refuse .invalidStackOperation
        else item s n.toNat >>= fun b => pure (result b).reverse := by
  by_cases inside : n.toNat < s.length
  · have found := List.getElem?_eq_getElem inside
    rw [found, item_eq found, pure_bind]
    dsimp only
    rw [of_ite]
    by_cases negative : n < 0
    · rw [if_pos negative, if_pos (Or.inl negative)]
      rfl
    · rw [if_neg negative, if_neg (by omega)]
      rfl
  · rw [List.getElem?_eq_none (Nat.not_lt.mp inside), if_pos (Or.inr (Nat.not_lt.mp inside))]
    rfl

theorem pick_eq :
    applyOp minimal s.reverse .pick = of List.reverse (StackOp.pick.apply minimal s) := by
  rcases s with _ | ⟨a, s⟩
  · rfl
  simp only [applyOp, reach_cons, bind_assoc, StackOp.apply, of_bind]
  refine bind_congr fun n => Eq.trans ?_ (of_reached (fun b => b :: s) n).symm
  by_cases outside : n < 0 ∨ s.length ≤ n.toNat
  · rw [if_pos outside, if_pos outside]
    rfl
  · have opposite : s.length - 1 - n.toNat + n.toNat + 1 = s.length := by omega
    rw [if_neg outside, if_neg outside, pure_bind]
    simp only [item_reverse opposite, List.reverse_cons]

theorem roll_eq :
    applyOp minimal s.reverse .roll = of List.reverse (StackOp.roll.apply minimal s) := by
  rcases s with _ | ⟨a, s⟩
  · rfl
  simp only [applyOp, reach_cons, bind_assoc, StackOp.apply, of_bind]
  refine bind_congr fun n => Eq.trans ?_ (of_reached (fun b => b :: s.eraseIdx n.toNat) n).symm
  by_cases outside : n < 0 ∨ s.length ≤ n.toNat
  · rw [if_pos outside, if_pos outside]
    rfl
  · have opposite : s.length - 1 - n.toNat + n.toNat + 1 = s.length := by omega
    have erased : s.reverse.eraseIdx (s.length - 1 - n.toNat) = (s.eraseIdx n.toNat).reverse :=
      eraseIdx_reverse (by omega)
    rw [if_neg outside, if_neg outside, pure_bind]
    simp only [removeAt, bind_assoc, pure_bind, item_reverse opposite, erased, List.reverse_cons]

theorem cat_eq :
    applyOp minimal s.reverse .cat = of List.reverse (StackOp.cat.apply minimal s) := by
  rcases s with _ | ⟨b, _ | ⟨a, s⟩⟩
  · rfl
  · rfl
  simp only [applyOp, require_two, pop_cons, changeTop_cons, pure_bind, StackOp.apply, of_ite,
    of_pure, of_throw]
  by_cases long : a.length + b.length > maxElementSize
  · rw [if_pos long, if_pos long]
    rfl
  · rw [if_neg long, if_neg long]
    rfl

theorem split_eq :
    applyOp minimal s.reverse .split = of List.reverse (StackOp.split.apply minimal s) := by
  rcases s with _ | ⟨n, _ | ⟨a, s⟩⟩
  · rfl
  · rfl
  simp only [applyOp, require_two, popOperand_cons, pop_cons, bind_assoc, pure_bind, StackOp.apply,
    of_ite, of_pure, of_throw, of_bind]
  refine bind_congr fun n => ?_
  by_cases outside : n < 0 ∨ a.length < n.toNat
  · rw [if_pos outside, if_pos outside]
  · rw [if_neg outside, if_neg outside, splitAt_eq (by omega)]
    simp

theorem toBinary_eq :
    applyOp minimal s.reverse .toBinary = of List.reverse (StackOp.toBinary.apply minimal s) := by
  rcases s with _ | ⟨n, _ | ⟨a, s⟩⟩
  · rfl
  · rfl
  simp only [applyOp, require_two, popOperand_cons, pop_cons, bind_assoc, pure_bind, StackOp.apply,
    of_ite, of_pure, of_throw, of_bind, resize_eq, ← List.reverse_cons]

theorem toNumber_eq :
    applyOp minimal s.reverse .toNumber = of List.reverse (StackOp.toNumber.apply minimal s) := by
  rcases s with _ | ⟨a, s⟩
  · rfl
  simp only [applyOp, changeTop_cons, pure_bind, StackOp.apply, minimize_eq, isMinimal_eq, of_ite,
    of_pure, of_throw]
  cases ScriptNumber.isMinimal (ScriptNumber.minimize a) maxNumberSize <;> rfl

theorem bitwise_eq (f : Bitwise) :
    applyOp minimal s.reverse (.bitwise f)
      = of List.reverse ((StackOp.bitwise f).apply minimal s) := by
  rcases s with _ | ⟨b, _ | ⟨a, s⟩⟩
  · rfl
  · rfl
  simp only [applyOp, require_two, pop_cons, changeTop_cons, pure_bind, StackOp.apply, of_ite,
    of_pure, of_throw]
  by_cases same : a.length = b.length
  · rw [if_pos same, if_pos same]
    rfl
  · rw [if_neg same, if_neg same]
    rfl

theorem applyOp_eq (op : StackOp) (modest : (Operation.stack op).isModest = true) (s : Stack) :
    applyOp minimal s.reverse op = of List.reverse (op.apply minimal s) := by
  cases op with
  | number n =>
    have small : n.natAbs ≤ 16 := of_decide_eq_true modest
    simp only [applyOp, int64_eq (by omega : n.natAbs < 2 ^ 63), StackOp.apply, of_pure, pure_bind,
      List.reverse_cons]
  | verify =>
    rcases s with _ | ⟨a, s⟩
    · rfl
    · simp only [applyOp, top_reverse, List.getElem?_cons_zero, pure_bind, isTrue_eq,
        StackOp.apply, of_ite, of_pure, of_throw, List.dropLast_reverse, List.tail_cons]
  | shuffle f =>
    rw [applyOp, shuffle_eq, StackOp.apply]
    cases f.run? s <;> rfl
  | ifDup =>
    rcases s with _ | ⟨a, s⟩
    · rfl
    · simp only [applyOp, top_reverse, List.getElem?_cons_zero, pure_bind, isTrue_eq,
        StackOp.apply, of_pure]
      cases ScriptNumber.isTrue a <;> simp
  | depth => simp only [applyOp, StackOp.apply, of_pure, List.length_reverse, List.reverse_cons]
  | pick => exact pick_eq
  | roll => exact roll_eq
  | cat => exact cat_eq
  | split => exact split_eq
  | toBinary => exact toBinary_eq
  | toNumber => exact toNumber_eq
  | size =>
    rcases s with _ | ⟨a, s⟩
    · rfl
    · simp only [applyOp, top_reverse, List.getElem?_cons_zero, pure_bind, StackOp.apply, of_pure,
        ← List.reverse_cons]
  | reverse =>
    rcases s with _ | ⟨a, s⟩
    · rfl
    · simp only [applyOp, changeTop_cons, pure_bind, StackOp.apply, of_pure]
  | bitwise f => exact bitwise_eq f
  | equal =>
    rcases s with _ | ⟨b, _ | ⟨a, s⟩⟩
    · rfl
    · rfl
    · simp only [applyOp, require_two, pop_cons, pure_bind, StackOp.apply, of_pure,
        ← List.reverse_cons]
  | equalVerify =>
    rcases s with _ | ⟨b, _ | ⟨a, s⟩⟩
    · rfl
    · rfl
    · simp only [applyOp, require_two, pop_cons, pure_bind, StackOp.apply, of_ite, of_pure,
        of_throw]
  | unary f =>
    rcases s with _ | ⟨a, s⟩
    · rfl
    · simp only [applyOp, popOperand_cons, bind_assoc, pure_bind, StackOp.apply, of_bind, of_pure]
      cases read : operand minimal a with
      | error cause => rfl
      | ok n =>
        have small := natAbs_operand_lt read
        simp only [of, id_eq, pure_bind, unary_eq f small, List.reverse_cons]
  | binary f =>
    rcases s with _ | ⟨b, _ | ⟨a, s⟩⟩
    · rfl
    · rfl
    · simp only [applyOp, require_two, popOperand_cons, bind_assoc, pure_bind, StackOp.apply,
        of_bind, of_pure]
      cases readB : operand minimal b with
      | error cause => rfl
      | ok n =>
        cases readA : operand minimal a with
        | error cause => rfl
        | ok k =>
          have smallB := natAbs_operand_lt readB
          have smallA := natAbs_operand_lt readA
          simp only [of, id_eq, pure_bind, binary_eq f smallA smallB, List.reverse_cons]
  | numEqualVerify =>
    rcases s with _ | ⟨b, _ | ⟨a, s⟩⟩
    · rfl
    · rfl
    · simp only [applyOp, require_two, popOperand_cons, bind_assoc, pure_bind, StackOp.apply,
        of_bind, of_ite, of_pure, of_throw]
  | within =>
    rcases s with _ | ⟨max, _ | ⟨min, _ | ⟨a, s⟩⟩⟩
    · rfl
    · rfl
    · rfl
    · simp only [applyOp, require_three, popOperand_cons, bind_assoc, pure_bind, StackOp.apply,
        of_bind, of_pure, ← List.reverse_cons]
  | hash f =>
    rcases s with _ | ⟨a, s⟩
    · rfl
    · simp only [applyOp, pop_cons, pure_bind, StackOp.apply, of_pure, ← List.reverse_cons]

end Computations

end ScryptLedger.Script.Positional
