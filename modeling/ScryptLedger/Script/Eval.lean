import ScryptLedger.Script.Multisig
import ScryptLedger.Script.Opcode
import ScryptLedger.Script.Operation

/-!
# Running a script

A script is run instruction by instruction on a machine that holds two stacks,
the conditionals that are open, and the counts that limits apply to. Sizes,
counts and disabled operations are checked for every instruction; the rest only
for those that no open conditional skips. The conditionals themselves are
followed everywhere.
-/

namespace ScryptLedger.Script

def maxScriptSize : Nat := 10000

/-- The most elements both stacks may hold. -/
def maxStackSize : Nat := 1000

/-- The state between two instructions. -/
structure Machine where
  stack : Stack
  altStack : Stack
  /-- The open conditionals, innermost first, and whether each runs what it encloses. -/
  branches : List Bool
  operations : Nat
  sigChecks : Nat
  /-- The script that signatures cover: what follows the last separator that was run. -/
  code : Bytes
deriving DecidableEq, Repr

namespace Machine

def start (script : Bytes) (stack : Stack) : Machine :=
  ⟨stack, [], [], 0, 0, script⟩

/-- Whether no open conditional skips the next instruction. -/
def isRunning (m : Machine) : Bool := m.branches.all id

variable [Primitives]

omit [Primitives] in
/-- IF and NOTIF: opens a conditional. A skipped one is opened as skipping. -/
def openBranch (m : Machine) (negated : Bool) (flags : ScriptFlags) : Except ScriptError Machine :=
  if m.isRunning then
    match m.stack with
    | [] => throw .unbalancedConditional
    | condition :: stack =>
      if flags.minimalIf && !(condition == [] || condition == [1]) then throw .minimalIf
      else
        return { m with
          stack := stack
          branches := (ScriptNumber.isTrue condition != negated) :: m.branches }
  else return { m with branches := false :: m.branches }

omit [Primitives] in
/-- What a no-operation does whose byte is reserved. -/
def reserved (m : Machine) (flags : ScriptFlags) : Except ScriptError Machine :=
  if flags.discourageUpgradableNops then throw .discourageUpgradableNops else return m

omit [Primitives] in
/-- The lock time on top of the stack; it is read but not taken. -/
def lockTime (m : Machine) (flags : ScriptFlags) : Except ScriptError Nat :=
  match m.stack with
  | [] => throw .invalidStackOperation
  | top :: _ => do
    let n ← ScriptNumber.decode top flags.minimalData 5
    if n < 0 then throw .negativeLocktime else return n.toNat

omit [Primitives] in
/-- Puts the outcome of a check on the stack, or fails if it has to succeed. -/
def conclude (m : Machine) (stack : Stack) (success verify : Bool) (failure : ScriptError) :
    Except ScriptError Machine :=
  if verify then if success then return { m with stack := stack } else throw failure
  else return { m with stack := ScriptNumber.ofBool success :: stack }

/-- CHECKSIG: a key on top of a signature of the spend. -/
def checkSig (m : Machine) (verify : Bool) (flags : ScriptFlags) (spend : Spend) :
    Except ScriptError Machine :=
  match m.stack with
  | key :: signature :: stack => do
    checkTransactionSignature signature flags
    checkKey key flags
    let success ← spend.checkSignature signature key m.code flags
    if !success && flags.nullFail && !signature.isEmpty then throw .sigNullFail
    else
      let counted := { m with sigChecks := m.sigChecks + if signature.isEmpty then 0 else 1 }
      counted.conclude stack success verify .checkSigVerify
  | _ => throw .invalidStackOperation

/-- CHECKDATASIG: a key on top of a message on top of a signature of its hash. -/
def checkDataSig (m : Machine) (verify : Bool) (flags : ScriptFlags) :
    Except ScriptError Machine :=
  match m.stack with
  | key :: message :: signature :: stack => do
    checkDataSignature signature flags
    checkKey key flags
    let success := !signature.isEmpty && verifies signature key (sha256 message)
    if !success && flags.nullFail && !signature.isEmpty then throw .sigNullFail
    else
      let counted := { m with sigChecks := m.sigChecks + if signature.isEmpty then 0 else 1 }
      counted.conclude stack success verify .checkDataSigVerify
  | _ => throw .invalidStackOperation

def checkMultisig (m : Machine) (verify : Bool) (flags : ScriptFlags) (spend : Spend) :
    Except ScriptError Machine := do
  let (multisig, operations) ← Multisig.ofStack flags.minimalData m.operations m.stack
  let (success, checks) ← multisig.check spend m.code flags
  let counted := { m with operations := operations, sigChecks := m.sigChecks + checks }
  counted.conclude multisig.below success verify .checkMultisigVerify

/-- Performs an operation; `following` is the script after it. -/
def perform (m : Machine) (operation : Operation) (following : Bytes) (flags : ScriptFlags)
    (spend : Spend) : Except ScriptError Machine :=
  match operation with
  | .ifTrue negated => m.openBranch negated flags
  | .otherwise =>
    match m.branches with
    | [] => throw .unbalancedConditional
    | innermost :: outer => return { m with branches := (!innermost) :: outer }
  | .endIf =>
    match m.branches with
    | [] => throw .unbalancedConditional
    | _ :: outer => return { m with branches := outer }
  | .stack op => return { m with stack := ← op.apply flags.minimalData m.stack }
  | .toAlt =>
    match m.stack with
    | [] => throw .invalidStackOperation
    | top :: stack => return { m with stack := stack, altStack := top :: m.altStack }
  | .fromAlt =>
    match m.altStack with
    | [] => throw .invalidAltstackOperation
    | top :: altStack => return { m with stack := top :: m.stack, altStack := altStack }
  | .nop => return m
  | .reservedNop => m.reserved flags
  | .checkLockTime =>
    if flags.checkLockTime then do
      if spend.reachesLockTime (← m.lockTime flags) then return m else throw .unsatisfiedLocktime
    else m.reserved flags
  | .checkSequence =>
    if flags.checkSequence then do
      let sequence ← m.lockTime flags
      if sequence &&& Spend.sequenceDisabled != 0 || spend.reachesSequence sequence then return m
      else throw .unsatisfiedLocktime
    else m.reserved flags
  | .fail => throw .opReturn
  | .codeSeparator => return { m with code := following }
  | .checkSig verify => m.checkSig verify flags spend
  | .checkDataSig verify => m.checkDataSig verify flags
  | .checkMultisig verify => m.checkMultisig verify flags spend

/-- What an instruction does to the machine, once counted. -/
def execute (m : Machine) (located : Located) (flags : ScriptFlags) (spend : Spend) :
    Except ScriptError Machine :=
  let ⟨⟨opcode, data⟩, following⟩ := located
  if m.isRunning && opcode ≤ 0x4e then
    if flags.minimalData && !isMinimalPush data opcode then throw .minimalData
    else return { m with stack := data :: m.stack }
  else if m.isRunning || (0x63 ≤ opcode && opcode ≤ 0x68) then
    if flags.legacyRules && Opcode.isLegacyRemoved opcode then throw .badOpcode
    else
      match Operation.ofByte? opcode with
      | none => throw .badOpcode
      | some operation => m.perform operation following flags spend
  else return m

/-- One step: the limits on the instruction, its effect, and the limit on the stacks. -/
def step (flags : ScriptFlags) (spend : Spend) (m : Machine) (located : Located) :
    Except ScriptError Machine := do
  let ⟨opcode, data⟩ := located.instruction
  let operations := m.operations + if Opcode.isCounted opcode then 1 else 0
  if data.length > maxElementSize then throw .pushSize
  else if operations > maxOperations then throw .opCount
  else if Opcode.isDisabled opcode flags then throw .disabledOpcode
  else
    let next ← { m with operations := operations }.execute located flags spend
    if next.stack.length + next.altStack.length > maxStackSize then throw .stackSize
    else return next

end Machine

variable [Primitives]

def run (flags : ScriptFlags) (spend : Spend) (m : Machine) (instructions : List Located) :
    Except ScriptError Machine :=
  instructions.foldlM (Machine.step flags spend) m

/-- The stack a script leaves and the signature checks it counts for. -/
def eval (script : Bytes) (stack : Stack) (flags : ScriptFlags) (spend : Spend) :
    Except ScriptError (Stack × Nat) :=
  if script.length > maxScriptSize then throw .scriptSize
  else do
    let (instructions, tail) := parse script
    let final ← run flags spend (Machine.start script stack) instructions
    if !tail.isEmpty then throw .badOpcode
    else if !final.branches.isEmpty then throw .unbalancedConditional
    else return (final.stack, final.sigChecks)

end ScryptLedger.Script
