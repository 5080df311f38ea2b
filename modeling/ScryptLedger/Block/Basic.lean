import ScryptLedger.Transaction.Basic

/-!
# Blocks and merge-mining proofs

A block is a header, transactions, and possibly a proof that another chain's
block, the parent, did the work on its behalf. The proof carries the parent's
coinbase, the branch from it to the parent's merkle root, and the branch from
the block's hash to the root the coinbase commits to.
-/

namespace ScryptLedger

structure BlockHeader where
  version : Int32
  previous : Hash
  merkleRoot : Hash
  time : UInt32
  bits : UInt32
  nonce : UInt32
deriving DecidableEq, Repr

namespace BlockHeader

def zero : BlockHeader := ⟨0, Digest.zero, Digest.zero, 0, 0, 0⟩

end BlockHeader

/-- A proof that a parent block did the work for a block of this chain. -/
structure AuxPow where
  coinbase : Transaction
  parentHash : Hash
  coinbaseBranch : List Hash
  index : Int32
  chainBranch : List Hash
  chainIndex : Int32
  parent : BlockHeader
deriving DecidableEq, Repr

namespace AuxPow

/-- The proof that stands on the wire for a missing one. -/
def empty : AuxPow :=
  ⟨⟨1, [], [], 0⟩, Digest.zero, [], 0, [], 0, BlockHeader.zero⟩

end AuxPow

structure Block where
  header : BlockHeader
  auxpow : Option AuxPow
  transactions : List Transaction
deriving DecidableEq, Repr

end ScryptLedger
