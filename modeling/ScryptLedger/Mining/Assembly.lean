import ScryptLedger.Chain.Basic
import ScryptLedger.Coinbase
import ScryptLedger.Block.Policy
import ScryptLedger.Mining.Error

/-!
# Assembling a block

A new block stands on the tip. It takes the candidates whose coins are
confirmed, first come first served, as long as they fit; then it puts them in
order. The coinbase pays the subsidy and all fees: what is due to the miner
fund and to the staking winner, and the rest to the miner.
-/

namespace ScryptLedger

/-- All that a block on top of the tip is made of. -/
structure Assembly where
  height : Nat
  previous : Hash
  bits : UInt32
  /-- The transactions in order, with their fees. -/
  selected : List (Transaction × Int)
  reward : Int
  stakingWinner : Option Bytes

namespace Assembly

/-- The room that is kept for the header and the coinbase. -/
def reservedSize : Nat := 1000

def versionLow : Nat := 4

/-- The candidates that a block of bounded size takes, in the order given, with their fees.
`used` is the room that is taken already. -/
def select (chain : Chain) (sizeLimit used : Nat) : List Transaction → List (Transaction × Int)
  | [] => []
  | tx :: rest =>
    if tx.isCoinbase || sizeLimit < used + tx.size then select chain sizeLimit used rest
    else
      match tx.fee chain.coins.view chain.rules.params (chain.height + 1) with
      | .ok fee => (tx, fee) :: select chain sizeLimit (used + tx.size) rest
      | .error _ => select chain sizeLimit used rest

variable [Primitives]

/-- Puts transactions in the order of their identities. -/
def sort (selected : List (Transaction × Int)) : List (Transaction × Int) :=
  ((selected.map fun spend => (spend.1.txid, spend)).mergeSort
    fun a b => (compare a.1 b.1).isLE).map Prod.snd

def of (chain : Chain) (candidates : List Transaction) (config : NodeConfig) (time : Int) :
    Except MiningError Assembly :=
  match chain.nextWork time with
  | .error error => throw (.difficulty error)
  | .ok bits =>
    let height := chain.height + 1
    let previous := chain.tip.hash
    let selected := sort (select chain (config.maxBlockSize - reservedSize) 0 candidates)
    return {
      height := height
      previous := previous
      bits := bits
      selected := selected
      reward := Money.wrap (Subsidy.ofBlock height chain.rules.params previous
        + Money.sum (selected.map Prod.snd))
      stakingWinner := chain.stakingWinner? previous }

omit [Primitives] in
def payouts (rules : Rules) (reward : Int) (script : Bytes) (winner : Option Bytes) :
    List TxOutput :=
  let due := (rules.minerFundDue reward).toList ++ (rules.stakingDue reward winner).toList
  let rest := (due.map Prod.snd).foldl (fun rest amount => Money.wrap (rest - amount)) reward
  ((script, rest) :: due).map fun (script, amount) => ⟨Int64.ofInt amount, script⟩

/-- The block without work that an assembly comes to at a time. -/
def block (assembly : Assembly) (rules : Rules) (script : Bytes) (time : Int) :
    Except MiningError Block :=
  let coinbase := Coinbase.build assembly.height
    (payouts rules assembly.reward script assembly.stakingWinner)
  let transactions := coinbase :: assembly.selected.map Prod.fst
  if time < 0 ∨ UInt32.size ≤ time then throw (.timeOutOfRange time)
  else
    match Version.ofChainId rules.params.auxpowChainId versionLow with
    | .error error => throw (.version error)
    | .ok version =>
      return {
        header := {
          version := version
          previous := assembly.previous
          merkleRoot := Merkle.root (transactions.map Transaction.txid)
          time := UInt32.ofNat time.toNat
          bits := assembly.bits
          nonce := 0 }
        auxpow := none
        transactions := transactions }

end Assembly

namespace Chain

variable [Primitives]

def newBlock (chain : Chain) (candidates : List Transaction) (script : Bytes) (time : Int) :
    Except MiningError Block := do
  let assembly ← Assembly.of chain candidates chain.rules.config time
  assembly.block chain.rules script time

end Chain

end ScryptLedger
