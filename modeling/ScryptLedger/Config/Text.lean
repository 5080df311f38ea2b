import ScryptLedger.Config
import ScryptLedger.Json.Reader

/-!
# Configurations as text

A configuration is written as a JSON object. Reading fills in what is missing,
passes over names it does not know and refuses names that occur twice. An array
of values in the order of the fields is read, too.
-/

namespace ScryptLedger

namespace Network

def ofName? : String → Option Network
  | "main" => some .main
  | "test" => some .test
  | "regtest" => some .regtest
  | _ => none

/-- A network by its name, or as an object whose one field has that name and no value. -/
def ofJson? : Json → Option Network
  | .string name => name.bind ofName?
  | .object [(some name, .null)] => ofName? name
  | _ => none

end Network

namespace NodeConfig

/-- What the value of a field does to a configuration. -/
abbrev Setter := NodeConfig → Json → Option NodeConfig

def fields : List (String × Setter) := [
  ("network", fun config value =>
    (Network.ofJson? value).map fun network => { config with network := network }),
  ("legacy_script_rules", fun config value =>
    match value with
    | .null => some { config with legacyScriptRules := none }
    | value => value.bool?.map fun b => { config with legacyScriptRules := some b }),
  ("enable_miner_fund", fun config value =>
    value.bool?.map fun b => { config with enableMinerFund := b }),
  ("enable_staking_rewards", fun config value =>
    value.bool?.map fun b => { config with enableStakingRewards := b }),
  ("simple_gbt", fun config value =>
    value.bool?.map fun b => { config with simpleTemplate := b }),
  ("parallel_script_checks", fun config value =>
    value.bool?.map fun b => { config with parallelScriptChecks := b }),
  ("max_block_size", fun config value =>
    (value.natBelow? 0x10000000000000000).map fun size => { config with maxBlockSize := size })]

def setInOrder (config : NodeConfig) : List (String × Setter) → List Json → Option NodeConfig
  | _, [] => some config
  | [], _ :: _ => none
  | (_, set) :: fields, value :: values => do setInOrder (← set config value) fields values

/-- Sets fields by name; `seen` holds the names that occurred. -/
def setByName (config : NodeConfig) (seen : List String) :
    List (Option String × Json) → Option NodeConfig
  | [] => some config
  | (none, _) :: _ => none
  | (some name, value) :: rest =>
    match fields.lookup name with
    | none => setByName config seen rest
    | some set =>
      if seen.contains name then none
      else do setByName (← set config value) (name :: seen) rest

def ofJson? : Json → Option NodeConfig
  | .object values => setByName default [] values
  | .array values => setInOrder default fields values
  | _ => none

def json (config : NodeConfig) : Json :=
  .ofFields [
    ("network", .ofText config.network.name),
    ("legacy_script_rules", (config.legacyScriptRules.map Json.bool).getD .null),
    ("enable_miner_fund", .bool config.enableMinerFund),
    ("enable_staking_rewards", .bool config.enableStakingRewards),
    ("simple_gbt", .bool config.simpleTemplate),
    ("parallel_script_checks", .bool config.parallelScriptChecks),
    ("max_block_size", .ofInt config.maxBlockSize)]

/-- The configuration that a text stands for, acceptable or not. -/
def read? (text : String) : Option NodeConfig :=
  (Json.parse? text).bind ofJson?

def parse (text : String) : Except ConfigError NodeConfig := do
  match read? text with
  | none => throw .unreadable
  | some config =>
    config.validate
    return config

end NodeConfig

inductive ConfigFileError where
  | missing (path : String)
  | refused (path : String) (error : ConfigError)
deriving DecidableEq, Repr

/-- The wording tells the file; what is wrong with it is told by the inner error. -/
def ConfigFileError.message : ConfigFileError → String
  | missing path => "failed to read " ++ path
  | refused path _ => "in " ++ path

/-- The configuration that a file holds, given its contents if it is there. -/
def NodeConfig.load (path : String) (contents : Option String) :
    Except ConfigFileError NodeConfig :=
  match contents with
  | none => throw (.missing path)
  | some text =>
    match parse text with
    | .ok config => return config
    | .error error => throw (.refused path error)

end ScryptLedger
