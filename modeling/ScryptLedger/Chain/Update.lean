import ScryptLedger.Block.Connect
import ScryptLedger.Chain.Basic

/-!
# How a chain changes

A chain grows by a block on its tip and shrinks by its tip. Ruling a block out
takes it and all blocks above it off the chain, for good; finalizing one keeps
it and all blocks below it on the chain, for good. Each change tells what
happened, and a refused change leaves no trace.
-/

namespace ScryptLedger

inductive ChainError where
  | notInActiveChain
  | genesis
  | finalized (height : Nat)
deriving DecidableEq, Repr

def ChainError.message : ChainError → String
  | notInActiveChain => "Block is not in the active chain"
  | genesis => "Cannot disconnect the genesis block"
  | finalized height => s!"Block at height {height} is finalized"

structure ChainUpdate where
  chain : Chain
  events : List ChainEvent

namespace Chain

variable (chain : Chain)

/-- Checks that a block at a height may leave the chain. -/
def checkRemovable (height : Nat) : Except ChainError Unit :=
  if height = 0 then throw .genesis
  else
    match chain.finalized with
    | some finalized => if height ≤ finalized then throw (.finalized finalized) else return
    | none => return

def locate (hash : Hash) : Except ChainError BlockInfo :=
  match (chain.heightOf? hash).bind chain.infoAt? with
  | some info => return info
  | none => throw .notInActiveChain

/-- Makes a block and all blocks below it permanent. -/
def finalize (hash : Hash) : Except ChainError ChainUpdate := do
  let info ← chain.locate hash
  let highest := match chain.finalized with
    | some finalized => max finalized info.height
    | none => info.height
  return ⟨{ chain with finalized := some highest }, [.finalized info]⟩

variable [Primitives]

/-- Checks the place, the time and the compact target of a block on top of the tip. -/
def checkPosition (block : Block) : Except BlockRejection Unit := do
  let hash := block.hash
  if chain.contains hash || chain.invalid.contains hash then throw .duplicate
  if block.header.previous ≠ chain.tip.hash then
    if chain.contains block.header.previous then throw .parentNotTip else throw .unknownParent
  if block.header.time.toNat ≤ chain.medianTimePast then throw .timeTooOld
  match chain.nextWork block.header.time.toNat with
  | .error _ => throw .badDifficultyBits
  | .ok bits => if block.header.bits ≠ bits then throw .badDifficultyBits

def connect (block : Block) : Except BlockRejection ChainUpdate := do
  chain.checkPosition block
  let connected ← block.connect chain.rules (chain.height + 1)
    (chain.stakingWinner? chain.tip.hash) chain.coins
  let grown : Chain :=
    { chain with
      above := ⟨block.hash, block, connected.undo⟩ :: chain.above
      coins := connected.coins }
  return ⟨grown, [.connected grown.tip]⟩

/-- The chain without its tip, and the entry that was the tip. -/
def pop? : Option (ChainEntry × Chain) :=
  match chain.above with
  | [] => none
  | entry :: rest =>
    some (entry,
      { chain with above := rest, coins := entry.block.unapply chain.coins entry.undo })

def disconnectTip : Except ChainError ChainUpdate := do
  chain.checkRemovable chain.height
  match chain.pop? with
  | none => throw .genesis
  | some (entry, shorter) =>
    return ⟨shorter, [.disconnected (RemovedBlock.of entry.block chain.height entry.hash)]⟩

/-- Rules out the latest `count` blocks, latest first. Only the lowest of them was meant; the
others merely build on it. -/
def invalidateLatest (chain : Chain) : (count : Nat) → ChainUpdate
  | 0 => ⟨chain, []⟩
  | count + 1 =>
    match chain.pop? with
    | none => ⟨chain, []⟩
    | some (entry, shorter) =>
      let removed := RemovedBlock.of entry.block chain.height entry.hash
      let rest := invalidateLatest { shorter with invalid := shorter.invalid.insert entry.hash }
        count
      ⟨rest.chain, (if count = 0 then .invalidated removed else .disconnected removed)
        :: rest.events⟩

/-- Rules out a block and all blocks above it. -/
def invalidate (hash : Hash) : Except ChainError ChainUpdate := do
  let info ← chain.locate hash
  chain.checkRemovable info.height
  return invalidateLatest chain (chain.height + 1 - info.height)

end Chain

end ScryptLedger
