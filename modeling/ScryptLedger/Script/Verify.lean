import ScryptLedger.Script.Eval

/-!
# Deciding a spend

An output is spent by running the input's script, then the output's script on
the stack it leaves. An output that hashes a script asks for that script, too:
it is the last push of the input, and runs on the pushes before it.
-/

namespace ScryptLedger.Script

variable [Primitives]

omit [Primitives] in
def requireTrue (stack : Stack) : Except ScriptError Unit :=
  match stack with
  | [] => throw .evalFalse
  | top :: _ => if ScriptNumber.isTrue top then return else throw .evalFalse

/-- Runs the script that an output hashes, on the stack that the input left. -/
def redeem (scriptSig : Bytes) (stack : Stack) (flags : ScriptFlags) (spend : Spend) :
    Except ScriptError (Stack × Nat) :=
  if !isPushOnly scriptSig then throw .sigPushOnly
  else
    match stack with
    | [] => throw .invalidStackOperation
    | script :: stack => do
      let (stack, checks) ← eval script stack flags spend
      requireTrue stack
      return (stack, checks)

/-- Decides a spend, and counts the signature checks that took. -/
def verify (scriptSig scriptPubKey : Bytes) (flags : ScriptFlags) (spend : Spend) :
    Except ScriptError Nat :=
  if flags.sigPushOnly && !isPushOnly scriptSig then throw .sigPushOnly
  else do
    let (pushed, sigChecks) ← eval scriptSig [] flags spend
    let (stack, pubKeyChecks) ← eval scriptPubKey pushed flags spend
    requireTrue stack
    let (stack, redeemChecks) ←
      if flags.p2sh && isPayToScriptHash scriptPubKey then redeem scriptSig pushed flags spend
      else pure (stack, 0)
    if flags.cleanStack && stack.length != 1 then throw .cleanStack
    else return sigChecks + pubKeyChecks + redeemChecks

end ScryptLedger.Script
