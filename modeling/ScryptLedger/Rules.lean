import ScryptLedger.Config

/-!
# The rules of a node

The constants of the network, the operator's choices, and the script language
that follows from both. Every check of a block receives them together.
-/

namespace ScryptLedger

/-- What a node checks blocks and transactions by. -/
structure Rules where
  params : ChainParams
  config : NodeConfig
  ruleSet : RuleSet

namespace Rules

def of (params : ChainParams) (config : NodeConfig) : Rules :=
  ⟨params, config, config.ruleSet params⟩

def ofConfig [Primitives] (config : NodeConfig) : Rules :=
  of config.params config

def blockFlags (rules : Rules) (height : Nat) : ScriptFlags :=
  rules.ruleSet.blockFlags rules.params height

/-- The flags of a transaction relayed while the next block is at a height. -/
def relayFlags (rules : Rules) (height : Nat) : ScriptFlags :=
  rules.ruleSet.relayFlags rules.params height

end Rules

end ScryptLedger
