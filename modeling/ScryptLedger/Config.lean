import ScryptLedger.RuleSet

/-!
# Node configuration

What a node's operator decides. A configuration is chosen once, before the
first block, and every check that depends on it receives it.
-/

namespace ScryptLedger

structure NodeConfig where
  network : Network
  /-- Overrides the script language of the network. -/
  legacyScriptRules : Option Bool
  enableMinerFund : Bool
  enableStakingRewards : Bool
  /-- Whether templates state payouts at their top level. -/
  simpleTemplate : Bool
  /-- Whether scripts of a block are checked in parallel; no answer depends on it. -/
  parallelScriptChecks : Bool
  maxBlockSize : Nat
deriving DecidableEq, Repr

inductive ConfigError where
  | unreadable
  | blockSizeTooSmall (size : Nat)
deriving DecidableEq, Repr

def ConfigError.message : ConfigError → String
  | unreadable => "failed to parse node configuration"
  | blockSizeTooSmall size => s!"max_block_size {size} is too small"

/-- The bytes of a block that each allow one signature check. -/
def bytesPerSigCheck : Nat := 141

def maxBlockSigChecks (maxBlockSize : Nat) : Nat :=
  maxBlockSize / bytesPerSigCheck

namespace NodeConfig

/-- The choices of an operator who chose nothing. -/
def default : NodeConfig where
  network := .regtest
  legacyScriptRules := none
  enableMinerFund := false
  enableStakingRewards := false
  simpleTemplate := false
  parallelScriptChecks := true
  maxBlockSize := 1000000

/-- A block has to allow at least one signature check. -/
def validate (config : NodeConfig) : Except ConfigError Unit :=
  if config.maxBlockSize < bytesPerSigCheck then throw (.blockSizeTooSmall config.maxBlockSize)
  else return

def params [Primitives] (config : NodeConfig) : ChainParams :=
  ChainParams.ofNetwork config.network

/-- The script language: the configured one, or else the network's. -/
def ruleSet (config : NodeConfig) (params : ChainParams) : RuleSet :=
  if config.legacyScriptRules.getD params.legacyRules then .legacy else .modern

end NodeConfig

end ScryptLedger
