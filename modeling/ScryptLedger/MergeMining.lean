import ScryptLedger.Block.Codec
import ScryptLedger.Merkle
import ScryptLedger.Pow.Target

/-!
# Merge mining

A block may let the block of another chain, the parent, do its work. The
parent's coinbase commits to a tree of chains: its script holds the tree's root
with the bytes reversed, then the tree's size and a nonce. The nonce fixes the
leaf that each chain must use, so one parent coinbase proves one block of a
chain at most.
-/

namespace ScryptLedger

inductive AuxPowError where
  | nonZeroIndex
  | parentHasOurChainId
  | chainMerkleBranchTooLong
  | merkleRootIncorrect
  | coinbaseMissingInput
  | missingChainMerkleRoot
  | multipleMergeMinePrefixes
  | mergeMinePrefixMisplaced
  | chainMerkleRootTooLate
  | missingTreeSizeAndNonce
  | merkleBranchSizeMismatch
  | wrongChainIndex
  | parentProofOfWork
  | wrongChainId (got expected : Nat) (version : UInt32)
  | nonAuxProofOfWork
  | missingAuxPow
  | unexpectedAuxPow
deriving DecidableEq, Repr

def AuxPowError.message : AuxPowError → String
  | nonZeroIndex => "AuxPow nIndex must be 0"
  | parentHasOurChainId => "AuxPow parent has our chain ID"
  | chainMerkleBranchTooLong => "AuxPow chain merkle branch too long"
  | merkleRootIncorrect => "AuxPow merkle root incorrect"
  | coinbaseMissingInput => "AuxPow coinbase transaction missing input"
  | missingChainMerkleRoot => "AuxPow missing chain merkle root in parent coinbase"
  | multipleMergeMinePrefixes => "Multiple merged mining prefixes in coinbase"
  | mergeMinePrefixMisplaced => "Merged mining prefix is not just before chain merkle root"
  | chainMerkleRootTooLate =>
    "AuxPow chain merkle root can have at most 20 preceding bytes of the parent coinbase"
  | missingTreeSizeAndNonce =>
    "AuxPow missing chain merkle tree size and nonce in parent coinbase"
  | merkleBranchSizeMismatch => "AuxPow merkle branch size does not match parent coinbase"
  | wrongChainIndex => "AuxPow wrong chain index"
  | parentProofOfWork => "Auxillary header proof of work failed"
  | wrongChainId got expected version =>
    "block does not have our chain ID (got " ++ Hex.ofNat got ++ ", expected "
      ++ Hex.ofNat expected ++ ", full nVersion " ++ Hex.ofNat version.toNat ++ ")"
  | nonAuxProofOfWork => "non-AUX proof of work failed"
  | missingAuxPow => "no AuxPow on block with AuxPow version"
  | unexpectedAuxPow => "AuxPow on block with non-AuxPow version"

namespace MergeMining

/-- The bytes that mark a commitment in a parent coinbase. -/
def marker : Bytes := [0xfa, 0xbe, 0x6d, 0x6d]

def maxChainBranch : Nat := 30

/-- The latest place of a root that no marker announces. -/
def maxUnmarkedOffset : Nat := 20

/-- The leaf that a chain must use in a tree with `2 ^ height` leaves. -/
def expectedIndex (nonce chainId : UInt32) (height : Nat) : Nat :=
  let stir (x : UInt32) : UInt32 := x * 1103515245 + 12345
  (stir (stir nonce + chainId)).toNat % 1 <<< height

/-- Where a pattern starts in a byte string, in order, counting from `offset`. -/
def occurrencesFrom (pattern : Bytes) (offset : Nat) : Bytes → List Nat
  | [] => []
  | b :: rest =>
    if pattern.isPrefixOf (b :: rest) then offset :: occurrencesFrom pattern (offset + 1) rest
    else occurrencesFrom pattern (offset + 1) rest

def occurrences (pattern bytes : Bytes) : List Nat :=
  occurrencesFrom pattern 0 bytes

/-- What a parent coinbase commits to besides the root. -/
structure Commitment where
  treeSize : Nat
  nonce : UInt32
deriving DecidableEq, Repr

/-- The commitment to a root in the script of a parent coinbase. A marker has to stand once and
just before the root; without one, the root has to stand near the start. -/
def commitment (script : Bytes) (root : Hash) : Except AuxPowError Commitment :=
  match occurrences root.bytes.reverse script with
  | [] => throw .missingChainMerkleRoot
  | place :: _ => do
    match occurrences marker script with
    | [] => if place > maxUnmarkedOffset then throw .chainMerkleRootTooLate
    | [marked] => if marked + marker.length ≠ place then throw .mergeMinePrefixMisplaced
    | _ :: _ :: _ => throw .multipleMergeMinePrefixes
    let rest := script.drop (place + 32)
    if rest.length < 8 then throw .missingTreeSizeAndNonce
    else
      return ⟨ofLittleEndian (rest.take 4), UInt32.ofNat (ofLittleEndian ((rest.drop 4).take 4))⟩

variable [Primitives]

/-- Checks that a proof commits to the block with a given hash. The parent's own work is not
looked at here. -/
def check (auxpow : AuxPow) (hash : Hash) (chainId : Nat) (params : ChainParams) :
    Except AuxPowError Unit := do
  if auxpow.index ≠ 0 then throw .nonZeroIndex
  if params.strictChainId && Version.chainId auxpow.parent.version == chainId then
    throw .parentHasOurChainId
  let height := auxpow.chainBranch.length
  if height > maxChainBranch then throw .chainMerkleBranchTooLong
  let root := Merkle.rootOfBranch hash auxpow.chainBranch auxpow.chainIndex.toInt
  if Merkle.rootOfBranch auxpow.coinbase.txid auxpow.coinbaseBranch auxpow.index.toInt
      ≠ auxpow.parent.merkleRoot then
    throw .merkleRootIncorrect
  match auxpow.coinbase.inputs with
  | [] => throw .coinbaseMissingInput
  | input :: _ =>
    let ⟨treeSize, nonce⟩ ← commitment input.scriptSig root
    if treeSize ≠ 1 <<< height then throw .merkleBranchSizeMismatch
    if auxpow.chainIndex.toUInt32.toNat ≠ expectedIndex nonce (UInt32.ofNat chainId) height then
      throw .wrongChainIndex

/-- Checks the work of a header, its own or its parent's. -/
def checkHeader (header : BlockHeader) (auxpow : Option AuxPow) (params : ChainParams) :
    Except AuxPowError Unit := do
  let version := header.version
  let chainId := Version.chainId version
  if params.strictChainId && !Version.isLegacy version && chainId != params.auxpowChainId then
    throw (.wrongChainId chainId params.auxpowChainId version.toUInt32)
  match auxpow with
  | none =>
    if Version.hasAuxpow version then throw .missingAuxPow
    if !Target.isMet header.proofHash header.bits params.powLimit then throw .nonAuxProofOfWork
  | some auxpow =>
    if !Version.hasAuxpow version then throw .unexpectedAuxPow
    check auxpow header.hash chainId params
    if !Target.isMet auxpow.parent.proofHash header.bits params.powLimit then
      throw .parentProofOfWork

/-- The script that commits to a single block. -/
def commitmentScript (hash : Hash) : Bytes :=
  marker ++ hash.bytes.reverse ++ littleEndian 4 1 ++ littleEndian 4 0

/-- The smallest proof for a header: a parent with one transaction that commits to this block
alone. The parent still has to do the work. -/
def build (header : BlockHeader) (parentVersion : Int32) : AuxPow :=
  let coinbase : Transaction :=
    ⟨1, [⟨OutPoint.null, commitmentScript header.hash, 0xffffffff⟩], [], 0⟩
  { AuxPow.empty with
    coinbase := coinbase
    parent := ⟨parentVersion, Digest.zero, coinbase.txid, 0, header.bits, 0⟩ }

end MergeMining

end ScryptLedger
