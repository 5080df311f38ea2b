import ScryptLedger.Json.Basic
import ScryptLedger.Mining.Assembly

/-!
# Block templates

A miner who builds blocks elsewhere is told what to build on, which
transactions to take, what the coinbase may create and what it owes. The
payouts that are due are stated below the coinbase, or at the top level for
those who asked for the simple form.
-/

namespace ScryptLedger

structure BlockTemplate where
  version : Int32
  previous : Hash
  /-- The transactions in order, with their fees. -/
  transactions : List (Transaction × Int)
  reward : Int
  bits : UInt32
  minTime : Nat
  time : Int
  height : Nat
  sigCheckLimit : Nat
  sizeLimit : Nat
  minerFund : Option (Bytes × Int)
  stakingReward : Option (Bytes × Int)
  isSimple : Bool

namespace BlockTemplate

def hexText (bytes : Bytes) : Json := .ofText (Hex.encode bytes)

def plainPayout (payout : Bytes × Int) : Json :=
  .ofFields [("script", hexText payout.1), ("amount", .ofInt payout.2)]

/-- The miner fund below the coinbase, as a list of acceptable scripts. -/
def nestedFund (payout : Bytes × Int) : Json :=
  .ofFields [("scripts", .array [hexText payout.1]), ("minimumvalue", .ofInt payout.2)]

def nestedStaking (payout : Bytes × Int) : Json :=
  .ofFields [("payoutscript", .ofFields [("hex", hexText payout.1)]),
    ("minimumvalue", .ofInt payout.2)]

variable [Primitives]

def transactionJson (spend : Transaction × Int) : Json :=
  let name := Json.ofText spend.1.txid.display
  .ofFields [("data", hexText spend.1.encode), ("txid", name), ("hash", name),
    ("fee", .ofInt spend.2)]

def json (template : BlockTemplate) : Json :=
  let payouts (fund staking : Bytes × Int → Json) : List (String × Json) :=
    Json.optional "minerfund" (template.minerFund.map fund)
      ++ Json.optional "stakingrewards" (template.stakingReward.map staking)
  .ofFields ([
    ("version", .ofInt template.version.toInt),
    ("previousblockhash", .ofText template.previous.display),
    ("transactions", .array (template.transactions.map transactionJson)),
    ("coinbasetxn", .ofFields (if template.isSimple then [] else payouts nestedFund nestedStaking)),
    ("coinbasevalue", .ofInt template.reward),
    ("target", hexText (bigEndian 32 (Target.ofCompact template.bits).target)),
    ("mintime", .ofInt template.minTime),
    ("curtime", .ofInt template.time),
    ("bits", .ofText (Hex.ofWord template.bits)),
    ("height", .ofInt template.height),
    ("sigchecklimit", .ofInt template.sigCheckLimit),
    ("sizelimit", .ofInt template.sizeLimit)]
    ++ if template.isSimple then payouts plainPayout plainPayout else [])

end BlockTemplate

namespace Chain

variable [Primitives]

def template (chain : Chain) (candidates : List Transaction) (config : NodeConfig) (time : Int) :
    Except MiningError BlockTemplate := do
  let rules := { chain.rules with config := config }
  let assembly ← Assembly.of chain candidates config time
  match Version.ofChainId rules.params.auxpowChainId Assembly.versionLow with
  | .error error => throw (.version error)
  | .ok version =>
    return {
      version := version
      previous := assembly.previous
      transactions := assembly.selected
      reward := assembly.reward
      bits := assembly.bits
      minTime := chain.medianTimePast + 1
      time := time
      height := assembly.height
      sigCheckLimit := maxBlockSigChecks config.maxBlockSize
      sizeLimit := config.maxBlockSize
      minerFund := rules.minerFundDue assembly.reward
      stakingReward := rules.stakingDue assembly.reward assembly.stakingWinner
      isSimple := config.simpleTemplate }

end Chain

end ScryptLedger
