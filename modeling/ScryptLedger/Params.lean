import ScryptLedger.Block.Codec
import ScryptLedger.Merkle
import ScryptLedger.Money

/-!
# The networks

Three networks share their rules and differ in constants. Rules that depend on
the height are answered by functions of the parameters, not by further
parameter sets. The most visible one is the change at the digishield height:
from there on difficulty moves with every block, and coinbases mature later.
-/

namespace ScryptLedger

inductive Network where
  | main
  | test
  | regtest
deriving DecidableEq, Repr

def Network.name : Network → String
  | main => "main"
  | test => "test"
  | regtest => "regtest"

structure ChainParams where
  network : Network
  /-- Blocks between two changes of the subsidy. -/
  halvingInterval : Nat
  /-- The height from which difficulty moves with every block. -/
  digishieldHeight : Nat
  /-- The depth at which coinbases mature below that height. -/
  coinbaseMaturity : Nat
  /-- The easiest target. -/
  powLimit : Nat
  noRetargeting : Bool
  allowMinDifficulty : Bool
  /-- The heights, from the first to before the second, without the easiest target. -/
  minDifficultyBlackout : Option (Nat × Nat)
  /-- The seconds between two blocks that difficulty aims at. -/
  targetSpacing : Nat
  strictChainId : Bool
  auxpowChainId : Nat
  /-- Whether the legacy script rules hold unless configured otherwise. -/
  legacyRules : Bool
  bip34Height : Nat
  bip65Height : Nat
  bip66Height : Nat
  csvHeight : Nat
  /-- The four bytes that mark files of this network. -/
  diskMagic : Bytes
  /-- The heights that snapshots may roll back to. -/
  snapshotHeights : List Nat
  /-- The percentage of the reward owed to the miner fund. -/
  minerFundRatio : Nat
  /-- The percentage of the reward owed to stakers. -/
  stakingRatio : Nat
  minerFundScript : Bytes
  genesis : Block

namespace ChainParams

/-- The key that the genesis outputs pay. -/
def genesisKey : Bytes := [
  0x04, 0x01, 0x84, 0x71, 0x0f, 0xa6, 0x89, 0xad, 0x50, 0x23, 0x69, 0x0c, 0x80,
  0xf3, 0xa4, 0x9c, 0x8f, 0x13, 0xf8, 0xd4, 0x5b, 0x8c, 0x85, 0x7f, 0xbc, 0xbc,
  0x8b, 0xc4, 0xa8, 0xe4, 0xd3, 0xeb, 0x4b, 0x10, 0xf4, 0xd4, 0x60, 0x4f, 0xa0,
  0x8d, 0xce, 0x60, 0x1a, 0xaf, 0x0f, 0x47, 0x02, 0x16, 0xfe, 0x1b, 0x51, 0x85,
  0x0b, 0x4a, 0xcf, 0x21, 0xb1, 0x79, 0xc4, 0x50, 0x70, 0xac, 0x7b, 0x03, 0xa9]

def fundScript : Bytes := [
  0xa9, 0x14, 0xd3, 0x7c, 0x4c, 0x80, 0x9f, 0xe9, 0x84, 0x0e, 0x7b, 0xfa, 0x77, 0xb8,
  0x6b, 0xd4, 0x71, 0x63, 0xf6, 0xfb, 0x6c, 0x60, 0x87]

/-- The coinbase of the genesis blocks: it pays 88 coins to the fixed key, and its script holds
the numbers 486604799 and 4 and the word "Nintondo". -/
def genesisCoinbase : Transaction where
  version := 1
  inputs := [⟨OutPoint.null,
    [0x04, 0xff, 0xff, 0x00, 0x1d, 0x01, 0x04, 0x08,
      0x4e, 0x69, 0x6e, 0x74, 0x6f, 0x6e, 0x64, 0x6f], 0xffffffff⟩]
  outputs := [⟨Int64.ofInt (88 * unitsPerCoin), 65 :: (genesisKey ++ [0xac])⟩]
  lockTime := 0

variable [Primitives]

def genesisBlock (time nonce bits : UInt32) : Block where
  header := ⟨1, Digest.zero, Merkle.root [genesisCoinbase.txid], time, bits, nonce⟩
  auxpow := none
  transactions := [genesisCoinbase]

/-- The network with money on it. -/
def main : ChainParams where
  network := .main
  halvingInterval := 100000
  digishieldHeight := 145000
  coinbaseMaturity := 30
  powLimit := 1 <<< 236 - 1
  noRetargeting := false
  allowMinDifficulty := false
  minDifficultyBlackout := none
  targetSpacing := 60
  strictChainId := true
  auxpowChainId := ScryptLedger.auxpowChainId
  legacyRules := true
  bip34Height := 1034383
  bip65Height := 3464751
  bip66Height := 1034383
  csvHeight := 0x7fffffff
  diskMagic := [0xcb, 0x98, 0xa6, 0xb0]
  snapshotHeights := []
  minerFundRatio := 32
  stakingRatio := 25
  minerFundScript := fundScript
  genesis := genesisBlock 1386325540 99943 0x1e0ffff0

def test : ChainParams :=
  { main with
    network := .test
    allowMinDifficulty := true
    minDifficultyBlackout := some (145000, 157500)
    targetSpacing := 600
    strictChainId := false
    diskMagic := [0xfb, 0x87, 0xb5, 0xbf]
    genesis := genesisBlock 1391503289 997879 0x1e0ffff0 }

/-- A private network, whose blocks cost next to nothing. -/
def regtest : ChainParams where
  network := .regtest
  halvingInterval := 150
  digishieldHeight := 1450
  coinbaseMaturity := 100
  powLimit := 1 <<< 255 - 1
  noRetargeting := true
  allowMinDifficulty := false
  minDifficultyBlackout := none
  targetSpacing := 600
  strictChainId := true
  auxpowChainId := ScryptLedger.auxpowChainId
  legacyRules := false
  bip34Height := 500
  bip65Height := 1351
  bip66Height := 1251
  csvHeight := 576
  diskMagic := [0x94, 0xb1, 0xca, 0xd2]
  snapshotHeights := [110, 210]
  minerFundRatio := 32
  stakingRatio := 25
  minerFundScript := fundScript
  genesis := genesisBlock 1296688602 2 0x207fffff

def ofNetwork : Network → ChainParams
  | .main => main
  | .test => test
  | .regtest => regtest

def genesisHash (params : ChainParams) : Hash := params.genesis.hash

omit [Primitives]

/-- Whether difficulty moves with every block from this height on. -/
def isDigishield (params : ChainParams) (height : Nat) : Bool :=
  params.digishieldHeight ≤ height

/-- Whether the block after this height may use the easiest target. -/
def allowsMinDifficulty (params : ChainParams) (height : Nat) : Bool :=
  params.allowMinDifficulty
    && match params.minDifficultyBlackout with
      | some (start, stop) => !(start ≤ height && height < stop)
      | none => true

/-- The seconds one round of difficulty aims at: a minute, or four hours before digishield. -/
def targetTimespan (params : ChainParams) (height : Nat) : Nat :=
  if params.isDigishield height then 60 else 4 * 60 * 60

def retargetInterval (params : ChainParams) (height : Nat) : Nat :=
  if params.isDigishield height then 1 else params.targetTimespan height / params.targetSpacing

/-- The latest snapshot height that is not above the tip. -/
def rollbackHeight? (params : ChainParams) (tip : Nat) : Option Nat :=
  (params.snapshotHeights.filter (· ≤ tip)).max?

/-- The depth at which a coinbase created at a height can be spent. -/
def maturityDepth (params : ChainParams) (height : Nat) : Nat :=
  if params.isDigishield height then 240 else params.coinbaseMaturity

end ChainParams

end ScryptLedger
