import ScryptLedger.Params
import ScryptLedger.Script.Flags

/-!
# Rule sets

A node runs one of two script languages. Each comes with the flags that every
block obeys and the further ones that a node asks of transactions it relays.
Some flags join the first kind only from a height on.
-/

namespace ScryptLedger

inductive RuleSet where
  | legacy
  | modern
deriving DecidableEq, Repr

namespace RuleSet

/-- The flags every block obeys. -/
def mandatory : RuleSet → ScriptFlags
  | legacy => { ScriptFlags.none with p2sh := true, legacyRules := true }
  | modern =>
    { ScriptFlags.none with
      p2sh := true, strictEncoding := true, strictDer := true, lowS := true, nullFail := true,
      sighashForkId := true, schnorrMultisig := true, cleanStack := true, sigPushOnly := true,
      enforceSigChecks := true }

def standard : RuleSet → ScriptFlags
  | legacy =>
    { mandatory legacy with
      strictEncoding := true, nullDummy := true, minimalIf := true, strictDer := true,
      lowS := true, nullFail := true, minimalData := true, discourageUpgradableNops := true,
      checkLockTime := true, checkSequence := true }
  | modern =>
    { mandatory modern with
      minimalData := true, discourageUpgradableNops := true, checkLockTime := true,
      checkSequence := true }

def deployed (params : ChainParams) (height : Nat) : ScriptFlags :=
  { ScriptFlags.none with
    strictDer := params.bip66Height ≤ height
    checkLockTime := params.bip65Height ≤ height
    checkSequence := params.csvHeight ≤ height }

def blockFlags (rules : RuleSet) (params : ChainParams) (height : Nat) : ScriptFlags :=
  rules.mandatory.union (deployed params height)

/-- The flags of a transaction relayed while the next block is at a height. -/
def relayFlags (rules : RuleSet) (params : ChainParams) (height : Nat) : ScriptFlags :=
  rules.standard.union (rules.blockFlags params height)

end RuleSet

end ScryptLedger
