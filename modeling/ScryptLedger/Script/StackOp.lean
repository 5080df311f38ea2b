import ScryptLedger.Primitives
import ScryptLedger.Script.Number

/-!
# Operations on the stack

The operations that only change the stack: constants, rearrangements, byte
strings, integers and hashes. A stack is a list of byte strings, top first.
-/

namespace ScryptLedger

/-- A stack, top first. -/
abbrev Stack := List Bytes

namespace Script

def maxElementSize : Nat := 520

/-- The longest integer an operation reads. -/
def maxNumberSize : Nat := 4

/-- A fixed rearrangement of the top of the stack. -/
inductive Shuffle where
  | drop
  | drop2
  | dup
  | dup2
  | dup3
  | nip
  | over1
  | over2
  | rot
  | rot2
  | swap
  | swap2
  | tuck
deriving DecidableEq, Repr

/-- The rearranged stack, if it is deep enough. -/
def Shuffle.run? : Shuffle → Stack → Option Stack
  | drop, _ :: s => some s
  | drop2, _ :: _ :: s => some s
  | dup, a :: s => some (a :: a :: s)
  | dup2, a :: b :: s => some (a :: b :: a :: b :: s)
  | dup3, a :: b :: c :: s => some (a :: b :: c :: a :: b :: c :: s)
  | nip, a :: _ :: s => some (a :: s)
  | over1, a :: b :: s => some (b :: a :: b :: s)
  | over2, a :: b :: c :: d :: s => some (c :: d :: a :: b :: c :: d :: s)
  | rot, a :: b :: c :: s => some (c :: a :: b :: s)
  | rot2, a :: b :: c :: d :: e :: f :: s => some (e :: f :: a :: b :: c :: d :: s)
  | swap, a :: b :: s => some (b :: a :: s)
  | swap2, a :: b :: c :: d :: s => some (c :: d :: a :: b :: s)
  | tuck, a :: b :: s => some (a :: b :: a :: s)
  | _, _ => none

inductive Unary where
  | increment
  | decrement
  | negate
  | abs
  | isZero
  | isNonZero
deriving DecidableEq, Repr

def truth (b : Bool) : Int := if b then 1 else 0

def Unary.apply : Unary → Int → Int
  | increment, a => a + 1
  | decrement, a => a - 1
  | negate, a => -a
  | abs, a => a.natAbs
  | isZero, a => truth (a == 0)
  | isNonZero, a => truth (a != 0)

inductive Binary where
  | add
  | sub
  | div
  | mod
  | both
  | either
  | equal
  | unequal
  | less
  | greater
  | lessOrEqual
  | greaterOrEqual
  | min
  | max
deriving DecidableEq, Repr

/-- Division goes toward zero, and the remainder has the sign of the dividend. -/
def Binary.apply : Binary → Int → Int → Except ScriptError Int
  | add, a, b => return a + b
  | sub, a, b => return a - b
  | div, a, b => if b = 0 then throw .divByZero else return a.tdiv b
  | mod, a, b => if b = 0 then throw .modByZero else return a.tmod b
  | both, a, b => return truth (a != 0 && b != 0)
  | either, a, b => return truth (a != 0 || b != 0)
  | equal, a, b => return truth (a == b)
  | unequal, a, b => return truth (a != b)
  | less, a, b => return truth (a < b)
  | greater, a, b => return truth (b < a)
  | lessOrEqual, a, b => return truth (a ≤ b)
  | greaterOrEqual, a, b => return truth (b ≤ a)
  | min, a, b => return if a ≤ b then a else b
  | max, a, b => return if a ≤ b then b else a

/-- A function of two bits, taken on byte strings of one length. -/
inductive Bitwise where
  | and
  | or
  | xor
deriving DecidableEq, Repr

def Bitwise.apply : Bitwise → UInt8 → UInt8 → UInt8
  | and, a, b => a &&& b
  | or, a, b => a ||| b
  | xor, a, b => a ^^^ b

inductive HashFunction where
  | ripemd160
  | sha1
  | sha256
  | hash160
  | hash256
deriving DecidableEq, Repr

def HashFunction.apply [Primitives] : HashFunction → Bytes → Bytes
  | ripemd160, data => (Primitives.ripemd160 data).bytes
  | sha1, data => (Primitives.sha1 data).bytes
  | sha256, data => (Primitives.sha256 data).bytes
  | hash160, data => (ScryptLedger.hash160 data).bytes
  | hash256, data => (sha256d data).bytes

/-- An operation that only changes the stack. -/
inductive StackOp where
  | number (n : Int)
  | verify
  | shuffle (s : Shuffle)
  | ifDup
  | depth
  | pick
  | roll
  | cat
  | split
  | toBinary
  | toNumber
  | size
  | reverse
  | bitwise (f : Bitwise)
  | equal
  | equalVerify
  | unary (f : Unary)
  | binary (f : Binary)
  | numEqualVerify
  | within
  | hash (f : HashFunction)
deriving DecidableEq, Repr

def operand (minimal : Bool) (element : Bytes) : Except ScriptError Int :=
  ScriptNumber.decode element minimal maxNumberSize

/-- The changed stack; `minimal` asks for minimally encoded integers. -/
def StackOp.apply [Primitives] (minimal : Bool) : StackOp → Stack → Except ScriptError Stack
  | number n, s => return ScriptNumber.encode n :: s
  | verify, a :: s => if ScriptNumber.isTrue a then return s else throw .verify
  | shuffle f, s =>
    match f.run? s with
    | some s => return s
    | none => throw .invalidStackOperation
  | ifDup, a :: s => return if ScriptNumber.isTrue a then a :: a :: s else a :: s
  | depth, s => return ScriptNumber.encode s.length :: s
  | pick, a :: s => do
    let n ← operand minimal a
    match s[n.toNat]? with
    | some b => if n < 0 then throw .invalidStackOperation else return b :: s
    | none => throw .invalidStackOperation
  | roll, a :: s => do
    let n ← operand minimal a
    match s[n.toNat]? with
    | some b => if n < 0 then throw .invalidStackOperation else return b :: s.eraseIdx n.toNat
    | none => throw .invalidStackOperation
  | cat, b :: a :: s =>
    if a.length + b.length > maxElementSize then throw .pushSize else return (a ++ b) :: s
  | split, n :: a :: s => do
    let n ← operand minimal n
    if n < 0 ∨ a.length < n.toNat then throw .invalidSplitRange
    else return a.drop n.toNat :: a.take n.toNat :: s
  | toBinary, n :: a :: s => do
    let n ← operand minimal n
    if n < 0 ∨ maxElementSize < n.toNat then throw .pushSize
    else return (← ScriptNumber.resize a n.toNat) :: s
  | toNumber, a :: s =>
    let short := ScriptNumber.minimize a
    if ScriptNumber.isMinimal short maxNumberSize then return short :: s
    else throw .invalidNumberRange
  | size, a :: s => return ScriptNumber.encode a.length :: a :: s
  | reverse, a :: s => return a.reverse :: s
  | bitwise f, b :: a :: s =>
    if a.length = b.length then return a.zipWith f.apply b :: s else throw .invalidOperandSize
  | equal, b :: a :: s => return ScriptNumber.ofBool (a == b) :: s
  | equalVerify, b :: a :: s => if a == b then return s else throw .equalVerify
  | unary f, a :: s => return ScriptNumber.encode (f.apply (← operand minimal a)) :: s
  | binary f, b :: a :: s => do
    let b ← operand minimal b
    let a ← operand minimal a
    return ScriptNumber.encode (← f.apply a b) :: s
  | numEqualVerify, b :: a :: s => do
    let b ← operand minimal b
    let a ← operand minimal a
    if a = b then return s else throw .numEqualVerify
  | within, max :: min :: a :: s => do
    let max ← operand minimal max
    let min ← operand minimal min
    let a ← operand minimal a
    return ScriptNumber.ofBool (min ≤ a && a < max) :: s
  | hash f, a :: s => return f.apply a :: s
  | _, _ => throw .invalidStackOperation

end Script

end ScryptLedger
