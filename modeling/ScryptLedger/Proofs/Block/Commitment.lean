import ScryptLedger.Coinbase
import ScryptLedger.Primitives.Transparent
import ScryptLedger.Proofs.Block.Check
import ScryptLedger.Proofs.Merkle.Tree

/-!
# A header determines its transactions

A block that passes on its own has a merkle root that was not reported as
mutated. Two such blocks with one header therefore list the same identities,
in the same order and number, unless their merkle trees betray the hash
function.
-/

namespace ScryptLedger.Block

section Checked

variable [Primitives] {params : ChainParams} {config : NodeConfig} {block : Block}

theorem root_of_check (passes : block.check params config = .ok ()) :
    Merkle.rootAndMutation block.txids = (block.header.merkleRoot, false) := by
  obtain ⟨-, root, -⟩ := check_eq_ok_iff.mp passes
  exact root

theorem txids_ne_nil_of_check (passes : block.check params config = .ok ()) : block.txids ≠ [] := by
  obtain ⟨-, -, -, -, -, coinbase, others, shape, -⟩ := check_eq_ok_iff.mp passes
  intro none
  rw [txids, shape] at none
  cases none

/-- Leaves under one root that is not mutated are the same, and so are the identities in two
blocks under one header, unless the merkle trees betray the hash function. -/
theorem txids_eq_or_collides :
    (∀ (leaves other : List Hash) (root : Hash), leaves ≠ [] → other ≠ [] →
      Merkle.rootAndMutation leaves = (root, false) →
      Merkle.rootAndMutation other = (root, false) →
      leaves = other ∨ Merkle.Collides leaves other) ∧
    ∀ (params : ChainParams) (config : NodeConfig) (block other : Block),
      block.header = other.header → block.check params config = .ok () →
      other.check params config = .ok () →
      block.txids = other.txids ∨ Merkle.Collides block.txids other.txids := by
  refine ⟨fun leaves other root some some' => Merkle.eq_or_collides some some', ?_⟩
  intro params config block other same passes passes'
  have root := root_of_check passes
  have root' := root_of_check passes'
  rw [← same] at root'
  exact Merkle.eq_or_collides (txids_ne_nil_of_check passes) (txids_ne_nil_of_check passes')
    root root'

end Checked

namespace Lookalikes

local instance : Primitives := Primitives.transparent

def coinbase (reward : Int64) : Transaction :=
  Coinbase.build 1 [⟨reward, [0x51]⟩]

def payment : Transaction where
  version := 2
  inputs := [⟨⟨Digest.zero, 0⟩, [], 0⟩]
  outputs := [⟨900, 40 :: List.replicate 40 1⟩]
  lockTime := 2

/-- Blocks whose coinbases differ. A hash that shows only the end of what it hashes gives them one
header. -/
def block (reward : Int64) : Block where
  header :=
    { BlockHeader.zero with
      version := 1
      merkleRoot := payment.txid
      bits := 0x207fffff }
  auxpow := none
  transactions := [coinbase reward, payment]

theorem collides_lookalikes :
    (block 1).header = (block 2).header ∧
      (block 1).check ChainParams.regtest NodeConfig.default = .ok () ∧
      (block 2).check ChainParams.regtest NodeConfig.default = .ok () ∧
      (block 1).txids ≠ (block 2).txids ∧
      Merkle.Collides (block 1).txids (block 2).txids := by
  have passes : (block 1).check ChainParams.regtest NodeConfig.default = .ok () := by
    decide +kernel
  have passes' : (block 2).check ChainParams.regtest NodeConfig.default = .ok () := by
    decide +kernel
  have different : (block 1).txids ≠ (block 2).txids := by decide +kernel
  exact ⟨rfl, passes, passes', different,
    (txids_eq_or_collides.2 _ _ (block 1) (block 2) rfl passes passes').resolve_left different⟩

end Lookalikes

end ScryptLedger.Block
