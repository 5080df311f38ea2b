import ScryptLedger.Chain.Update

/-!
# The chain as it is stored

A node stores beside its blocks what it would otherwise compute from them each
time: what difficulty looks at in each block, the height of each identity, and
how many transactions there are up to each block. Every change of the chain
has to keep these in step, and a lookup in one of them relies on what another
one says. A lookup that finds nothing where it relies on something is an error
of its own.
-/

namespace ScryptLedger

/-- A stored block, with the number of transactions up to and including it. -/
structure IndexEntry extends ChainEntry where
  txCount : Nat

/-- A chain of blocks as it is stored. -/
structure ChainIndex where
  rules : Rules
  coins : CoinSet
  /-- The blocks in order of height. -/
  active : List IndexEntry
  /-- What difficulty looks at in the blocks, in order of height. -/
  headers : List HeaderInfo
  /-- The heights of the blocks by identity. -/
  heights : Std.ExtTreeMap Hash Nat compare
  invalid : Std.ExtTreeSet Hash compare
  finalized : Option Nat
  stakingWinners : Std.ExtTreeMap Hash Bytes compare

inductive IndexError (Refusal : Type) where
  /-- A lookup found nothing where it relied on something. -/
  | inconsistent
  | refused (refusal : Refusal)
deriving DecidableEq, Repr

structure IndexUpdate where
  index : ChainIndex
  events : List ChainEvent

namespace ChainIndex

/-- What a lookup found, where it relies on something. -/
def demand {Refusal Value : Type} : Option Value → Except (IndexError Refusal) Value
  | some value => return value
  | none => throw .inconsistent

/-- The middle one of the latest times; of two, the later. -/
def medianTime? (headers : List HeaderInfo) : Option Int :=
  let times := (headers.reverse.take Chain.medianTimeSpan).map HeaderInfo.time
  (times.mergeSort (· ≤ ·))[times.length / 2]?

variable (index : ChainIndex)

/-- The number of transactions up to and including the latest block. -/
def txCount : Nat := (index.active.getLast?.map IndexEntry.txCount).getD 0

def infoAt? (height : Nat) : Option BlockInfo :=
  index.active[height]?.map fun entry => ⟨entry.hash, height, entry.block.header.time⟩

def tip? : Option BlockInfo := index.infoAt? (index.active.length - 1)

def push (hash : Hash) (block : Block) (undo : Undo) : ChainIndex :=
  { index with
    active := index.active ++
      [⟨⟨hash, block, undo⟩, index.txCount + block.transactions.length⟩]
    headers := index.headers ++
      [⟨index.active.length, block.header.time.toNat, block.header.bits⟩]
    heights := index.heights.insert hash index.active.length }

def checkRemovable (height : Nat) : Except (IndexError ChainError) Unit :=
  if height = 0 then throw (.refused .genesis)
  else
    match index.finalized with
    | some finalized =>
      if height ≤ finalized then throw (.refused (.finalized finalized)) else return
    | none => return

def locate (hash : Hash) : Except (IndexError ChainError) Nat :=
  match index.heights[hash]? with
  | some height => return height
  | none => throw (.refused .notInActiveChain)

def finalize (hash : Hash) : Except (IndexError ChainError) IndexUpdate := do
  let height ← index.locate hash
  let info ← demand (index.infoAt? height)
  let highest := match index.finalized with
    | some finalized => max finalized height
    | none => height
  return ⟨{ index with finalized := some highest }, [.finalized info]⟩

def setStakingWinner (hash : Hash) (script : Bytes) : ChainIndex :=
  { index with stakingWinners := index.stakingWinners.insert hash script }

def ruleOut (hash : Hash) : ChainIndex :=
  { index with invalid := index.invalid.insert hash }

variable [Primitives]

def new (rules : Rules) : ChainIndex :=
  let empty : ChainIndex := ⟨rules, ∅, [], [], ∅, ∅, none, ∅⟩
  empty.push rules.params.genesisHash rules.params.genesis []

/-- The chain without its tip, and the entry that was the tip. The genesis block stays. -/
def pop? : Option (IndexEntry × ChainIndex) :=
  if index.active.length ≤ 1 then none
  else
    index.active.getLast?.map fun entry =>
      (entry,
        { index with
          active := index.active.dropLast
          headers := index.headers.dropLast
          heights := index.heights.erase entry.hash
          coins := entry.block.unapply index.coins entry.undo })

/-- Checks the place, the time and the compact target of a block on top of the tip, which is
returned. -/
def checkPosition (block : Block) : Except (IndexError BlockRejection) BlockInfo := do
  let hash := block.hash
  if index.heights.contains hash || index.invalid.contains hash then throw (.refused .duplicate)
  let tip ← demand index.tip?
  if block.header.previous ≠ tip.hash then
    if index.heights.contains block.header.previous then throw (.refused .parentNotTip)
    else throw (.refused .unknownParent)
  let median ← demand (medianTime? index.headers)
  if block.header.time.toNat ≤ median then throw (.refused .timeTooOld)
  match Retarget.next index.headers block.header.time.toNat index.rules.params with
  | .error _ => throw (.refused .badDifficultyBits)
  | .ok bits =>
    if block.header.bits ≠ bits then throw (.refused .badDifficultyBits)
    return tip

def connect (block : Block) : Except (IndexError BlockRejection) IndexUpdate := do
  let tip ← index.checkPosition block
  let connected ← (block.connect index.rules (tip.height + 1) index.stakingWinners[tip.hash]?
    index.coins).mapError .refused
  let grown := { index with coins := connected.coins }.push block.hash block connected.undo
  let info ← demand (grown.infoAt? (tip.height + 1))
  return ⟨grown, [.connected info]⟩

def disconnectTip : Except (IndexError ChainError) IndexUpdate := do
  let tip ← demand index.tip?
  index.checkRemovable tip.height
  match index.pop? with
  | none => throw (.refused .genesis)
  | some (entry, shorter) =>
    return ⟨shorter,
      [.disconnected (RemovedBlock.of entry.block shorter.active.length entry.hash)]⟩

/-- Rules out the latest `count` blocks, latest first, of which only the one at the target height
was meant. -/
def invalidateLatest (target : Nat) (index : ChainIndex) :
    (count : Nat) → Except (IndexError ChainError) IndexUpdate
  | 0 => return ⟨index, []⟩
  | count + 1 =>
    match index.pop? with
    | none => throw (.refused .genesis)
    | some (entry, shorter) => do
      let height := shorter.active.length
      let removed := RemovedBlock.of entry.block height entry.hash
      let rest ← invalidateLatest target (shorter.ruleOut entry.hash) count
      return ⟨rest.index, (if height = target then .invalidated removed else .disconnected removed)
        :: rest.events⟩

def invalidate (hash : Hash) : Except (IndexError ChainError) IndexUpdate := do
  let target ← index.locate hash
  index.checkRemovable target
  let update ← invalidateLatest target index (index.active.length - target)
  let _ ← demand update.index.tip?
  return update

end ChainIndex

end ScryptLedger
