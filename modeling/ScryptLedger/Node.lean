import ScryptLedger.Chain.Publisher
import ScryptLedger.Chain.Update
import ScryptLedger.Mempool.Admission
import ScryptLedger.Mining.Solve
import ScryptLedger.Mining.Template

/-!
# A node

A node keeps a chain, the listeners it tells about changes, and a pool of
transactions. Blocks that connect through the node take their transactions out
of the pool; ruling a block out takes the transactions out that the shorter
chain cannot fund.
-/

namespace ScryptLedger

inductive NodeError where
  | config (error : ConfigError)
  | mining (error : MiningError)
  /-- The node does not accept the block that it made itself. -/
  | ownBlock (rejection : BlockRejection)
  | chain (error : ChainError)
deriving DecidableEq, Repr

def NodeError.message : NodeError → String
  | config error => "Invalid configuration: " ++ error.message
  | mining error => error.message
  | ownBlock rejection => "Block validation failed: " ++ rejection.detail
  | chain error => "Chain state error: " ++ error.message

inductive SubmitError where
  /-- The bytes are no block. -/
  | undecodable
  | rejected (rejection : BlockRejection)
deriving DecidableEq, Repr

/-- The short reason that the submitter is given. About a block beside the tip nothing can be
said. -/
def SubmitError.reason : SubmitError → String
  | undecodable => "Block decode failed"
  | rejected .parentNotTip => "inconclusive"
  | rejected rejection => rejection.reason

structure Node where
  chain : Chain
  publisher : Publisher
  mempool : Mempool

namespace Node

variable (node : Node)

/-- The node after a change of its chain; the listeners are told, the pool is not. -/
def follow (update : ChainUpdate) : Node :=
  { node with chain := update.chain, publisher := node.publisher.publishAll update.events }

variable [Primitives]

omit [Primitives] in
def finalize (hash : Hash) : Except NodeError Node :=
  match node.chain.finalize hash with
  | .error error => throw (.chain error)
  | .ok update => return node.follow update

def new (config : NodeConfig) : Except NodeError Node :=
  match config.validate with
  | .error error => throw (.config error)
  | .ok () => return ⟨Chain.new (Rules.ofConfig config), Publisher.empty, Mempool.empty⟩

/-- Puts a block on top of the tip, and takes out of the pool what it leaves no room for. -/
def connect (block : Block) : Except BlockRejection Node := do
  let update ← node.chain.connect block
  return { node.follow update with mempool := (node.mempool.removeForBlock block).1 }

def submitBlock (bytes : Bytes) : Except SubmitError Node :=
  match Block.decode bytes with
  | .error _ => throw .undecodable
  | .ok block =>
    match node.connect block with
    | .error rejection => throw (.rejected rejection)
    | .ok node => return node

def accept (tx : Transaction) : Except TxRejection Node := do
  return { node with mempool := ← node.mempool.accept tx node.chain }

def submitTransaction (bytes : Bytes) : Except TxRejection (Hash × Node) :=
  match Transaction.decode bytes with
  | .error _ => throw .undecodable
  | .ok tx => return (tx.txid, ← node.accept tx)

def template (time : Int) : Except MiningError BlockTemplate :=
  node.chain.template node.mempool.transactions node.chain.rules.config time

/-- A block with the transactions of the pool that does its own work. -/
def mine (script : Bytes) (time : Int) : Except MiningError Block := do
  let block ← node.chain.newBlock node.mempool.transactions script time
  return { block with header := ← block.header.solve node.chain.rules.params }

def generate (script : Bytes) (time : Int) : Except NodeError Node :=
  match node.mine script time with
  | .error error => throw (.mining error)
  | .ok block =>
    match node.connect block with
    | .error rejection => throw (.ownBlock rejection)
    | .ok node => return node

/-- Rules out a block and all blocks above it, and takes out of the pool what the shorter chain
cannot fund. -/
def invalidate (hash : Hash) : Except NodeError Node :=
  match node.chain.invalidate hash with
  | .error error => throw (.chain error)
  | .ok update =>
    let node := node.follow update
    return { node with mempool := (node.mempool.removeInvalid node.chain).1 }

end Node

end ScryptLedger
