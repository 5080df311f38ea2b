import Std.Data.ExtTreeMap
import Std.Data.ExtTreeSet
import ScryptLedger.Block.Coins
import ScryptLedger.Chain.Event
import ScryptLedger.Pow.Retarget
import ScryptLedger.Rules
import ScryptLedger.Transaction.Inputs

/-!
# The active chain

A chain is its genesis block and the blocks above it, each with its undo
record, together with the coins they leave unspent. Everything else a node
asks of a chain (headers, heights, counts, the coins at an earlier height) is
computed from these. The coins of the genesis block can never be spent and are
not part of the coin set.
-/

namespace ScryptLedger

/-- A block of a chain, with its identity and the coins it spent. -/
structure ChainEntry where
  hash : Hash
  block : Block
  undo : Undo

/-- A chain of blocks and what a node remembers beside it. -/
structure Chain where
  rules : Rules
  genesis : ChainEntry
  /-- The blocks above the genesis block, latest first. -/
  above : List ChainEntry
  coins : CoinSet
  /-- The blocks that were ruled out. -/
  invalid : Std.ExtTreeSet Hash compare
  /-- The height up to which blocks are permanent. -/
  finalized : Option Nat
  /-- Who is to be paid by the block on top of a given one. -/
  stakingWinners : Std.ExtTreeMap Hash Bytes compare

namespace Chain

def new [Primitives] (rules : Rules) : Chain where
  rules := rules
  genesis := ⟨rules.params.genesisHash, rules.params.genesis, []⟩
  above := []
  coins := ∅
  invalid := ∅
  finalized := none
  stakingWinners := ∅

variable (chain : Chain)

/-- The blocks of the chain, latest first. -/
def entries : List ChainEntry := chain.above ++ [chain.genesis]

def tipEntry : ChainEntry := chain.above.headD chain.genesis

/-- The number of blocks above the genesis block. -/
def height : Nat := chain.above.length

def tip : BlockInfo :=
  ⟨chain.tipEntry.hash, chain.height, chain.tipEntry.block.header.time⟩

def entryAt? (height : Nat) : Option ChainEntry :=
  chain.entries.reverse[height]?

def infoAt? (height : Nat) : Option BlockInfo :=
  (chain.entryAt? height).map fun entry => ⟨entry.hash, height, entry.block.header.time⟩

def heightOf? (hash : Hash) : Option Nat :=
  (chain.entries.findIdx? (·.hash == hash)).map (chain.height - ·)

def contains (hash : Hash) : Bool :=
  (chain.heightOf? hash).isSome

def block? (hash : Hash) : Option Block :=
  (chain.entries.find? (·.hash == hash)).map ChainEntry.block

/-- What difficulty looks at in the blocks of the chain, in order of height. -/
def headers : List HeaderInfo :=
  chain.entries.reverse.mapIdx fun height entry =>
    ⟨height, entry.block.header.time.toNat, entry.block.header.bits⟩

def nextWork (time : Int) : Except RetargetError UInt32 :=
  Retarget.next chain.headers time chain.rules.params

def medianTimeSpan : Nat := 11

/-- The middle one of some times; of two, the later. -/
def median (times : List Nat) : Nat :=
  (times.mergeSort (· ≤ ·)).getD (times.length / 2) 0

def medianTimePast : Nat :=
  median ((chain.entries.take medianTimeSpan).map (·.block.header.time.toNat))

def txCountAt (height : Nat) : Nat :=
  ((chain.entries.reverse.take (height + 1)).flatMap (·.block.transactions)).length

/-- Who is to be paid by the block on top of a given one, if that is known. -/
def stakingWinner? (hash : Hash) : Option Bytes := chain.stakingWinners[hash]?

def setStakingWinner (hash : Hash) (script : Bytes) : Chain :=
  { chain with stakingWinners := chain.stakingWinners.insert hash script }

/-- Whether a coin can be spent at a height. What is not there cannot. -/
def isMature (outpoint : OutPoint) (height : Nat) : Bool :=
  match chain.coins.view outpoint with
  | some coin => coin.isSpendableAt chain.rules.params height
  | none => false

variable [Primitives]

def rewind (coins : CoinSet) (entries : List ChainEntry) : CoinSet :=
  entries.foldl (fun coins entry => entry.block.unapply coins entry.undo) coins

/-- The coins after the block at a height, found by undoing the blocks above it. -/
def coinsAt? (height : Nat) : Option CoinSet :=
  if height ≤ chain.height then
    some (rewind chain.coins (chain.above.take (chain.height - height)))
  else none

end Chain

end ScryptLedger
