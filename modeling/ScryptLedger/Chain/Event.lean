import ScryptLedger.Block.Codec

/-!
# What happens to a chain

An event names the block it is about. A block that leaves the chain takes with
it what its coinbase paid, since a listener can no longer ask the chain for it.
-/

namespace ScryptLedger

structure BlockInfo where
  hash : Hash
  height : Nat
  time : UInt32
deriving DecidableEq, Repr

/-- A block that left the chain, with the script and the outputs of its coinbase. -/
structure RemovedBlock where
  block : BlockInfo
  scriptSig : Bytes
  outputs : List TxOutput
deriving DecidableEq, Repr

namespace RemovedBlock

/-- The record of a block at a height. Whatever part of the coinbase is missing is left empty. -/
def of (block : Block) (height : Nat) (hash : Hash) : RemovedBlock :=
  let coinbase := block.transactions.head?
  { block := ⟨hash, height, block.header.time⟩
    scriptSig := ((coinbase.bind (·.inputs.head?)).map TxInput.scriptSig).getD []
    outputs := (coinbase.map Transaction.outputs).getD [] }

end RemovedBlock

inductive ChainEvent where
  | connected (block : BlockInfo)
  | finalized (block : BlockInfo)
  | disconnected (removed : RemovedBlock)
  /-- The block itself was ruled out, and not only what it built on. -/
  | invalidated (removed : RemovedBlock)
deriving DecidableEq, Repr

namespace ChainEvent

def block : ChainEvent → BlockInfo
  | connected block | finalized block => block
  | disconnected removed | invalidated removed => removed.block

/-- The record of the block, if it left the chain. -/
def removed? : ChainEvent → Option RemovedBlock
  | connected _ | finalized _ => none
  | disconnected removed | invalidated removed => some removed

def kind : ChainEvent → String
  | connected _ => "CONNECTED"
  | finalized _ => "FINALIZED"
  | disconnected _ => "DISCONNECTED"
  | invalidated _ => "INVALIDATED"

end ChainEvent

end ScryptLedger
