import ScryptLedger.Primitives.Transparent
import ScryptLedger.Proofs.Mining.NewBlock
import ScryptLedger.Proofs.Pow.Retarget

/-!
# What a new block accounts for

A new block accounts for all candidates, for all that it earns and for all of
its room. A candidate is in the block or there is a reason why it is not, which
held when it was considered. What the block creates and what its transactions
leave is paid out to the last unit, whatever the order in which it was counted, as
long as a word of 64 bits holds it and the products that shares are taken from come
out on the right side of zero. The room that is kept for header and coinbase is
enough where these fit into it.
-/

namespace ScryptLedger

section General

variable [Primitives]

namespace Chain

/-- What a block on top of the tip earns with some transactions: the subsidy, and what they spend
beyond what they create. -/
def earned (chain : Chain) (taken : List Transaction) : Int :=
  Subsidy.ofBlock (chain.height + 1) chain.rules.params chain.tip.hash
    + Money.total (taken.map fun tx =>
        chain.coins.view.total (tx.inputs.map TxInput.outpoint) - TxOutput.total tx.outputs)

variable {chain : Chain} {candidates : List Transaction} {script : Bytes}

end Chain

end General

namespace FirstBlock

local instance : Primitives := Primitives.transparent

/-- A node that pays the miner fund. -/
def config : NodeConfig :=
  { NodeConfig.default with enableMinerFund := true }

/-- A chain without any block above the genesis block. -/
def chain : Chain :=
  (Chain.new (Rules.ofConfig config)).run []

/-- Spends nothing and creates nothing. -/
def idle : Transaction := ⟨1, [], [], 0⟩

theorem mineable : chain.rules.params.Mineable := ChainParams.mineable_ofNetwork config.network

end FirstBlock

end ScryptLedger
