import Mathlib.Algebra.Order.Ring.Nat
import ScryptLedger.Coinbase
import ScryptLedger.Primitives.Transparent
import ScryptLedger.Proofs.MergeMining.Placement
import ScryptLedger.Proofs.Merkle.Branch

/-!
# One parent coinbase proves one block

A parent coinbase with the marker commits to one root, at one place, and to
the size and the nonce behind it. The size fixes the length of a chain's
branch, and the nonce its leaf; the root then fixes the block that stands
there. A second block of the same chain would take two pairs of nodes with one
hash.
-/

namespace ScryptLedger.MergeMining

/-- Where a script has the marker, the root stands just behind its only place. -/
theorem Commits.place_of_marker {script : Bytes} {root : Hash} {place : Nat} {found : Commitment}
    (commits : Commits script root place found) (marked : marker <:+: script) :
    4 ≤ place ∧ places marker script = {place - 4} := by
  rcases commits.placed with behind | ⟨unmarked, -⟩
  · exact behind
  · obtain ⟨before, after, held⟩ := marked
    have stands : before.length ∈ places marker script := ⟨before, after, rfl, held.symm⟩
    exact absurd (unmarked ▸ stands) (Set.notMem_empty _)

theorem Commits.eq_take {script : Bytes} {root : Hash} {place : Nat} {found : Commitment}
    (commits : Commits script root place found) :
    root.bytes.reverse = (script.drop place).take 32 := by
  have here := List.prefix_iff_eq_take.mp (standsAt_iff.mp commits.first.1).2
  rwa [List.length_reverse, root.length_bytes] at here

/-- A script with the marker commits to one root only. -/
theorem commitment_unique {script : Bytes} {root root' : Hash} {found found' : Commitment}
    (marked : marker <:+: script) (committed : commitment script root = .ok found)
    (committed' : commitment script root' = .ok found') : root = root' ∧ found = found' := by
  obtain ⟨place, commits⟩ := exists_commits committed
  obtain ⟨place', commits'⟩ := exists_commits committed'
  obtain ⟨behind, only⟩ := commits.place_of_marker marked
  obtain ⟨behind', only'⟩ := commits'.place_of_marker marked
  have before : place - 4 = place' - 4 := Set.singleton_injective (only.symm.trans only')
  obtain rfl : place = place' := by omega
  have bytes : root.bytes = root'.bytes :=
    List.reverse_injective (commits.eq_take.trans commits'.eq_take.symm)
  obtain rfl : root = root' := Digest.ext_bytes bytes
  exact ⟨rfl, commits.unique commits'⟩

theorem expectedIndex_lt (nonce chainId : UInt32) (height : Nat) :
    expectedIndex nonce chainId height < 1 <<< height := by
  have positive : 0 < 1 <<< height := by
    rw [Nat.one_shiftLeft]
    exact Nat.two_pow_pos height
  exact Nat.mod_lt _ positive

section Accepted

variable [Primitives] {params : ChainParams} {chainId : Nat}

/-- The root of the tree of chains that a proof puts a block under. -/
def chainRoot (auxpow : AuxPow) (hash : Hash) : Hash :=
  Merkle.rootOfBranch hash auxpow.chainBranch auxpow.chainIndex.toInt

/-- When a proof commits to a block. -/
theorem check_eq_ok_iff {auxpow : AuxPow} {hash : Hash} :
    check auxpow hash chainId params = .ok () ↔
      auxpow.index = 0 ∧
      ¬ (params.strictChainId = true ∧ Version.chainId auxpow.parent.version = chainId) ∧
      auxpow.chainBranch.length ≤ maxChainBranch ∧
      Merkle.rootOfBranch auxpow.coinbase.txid auxpow.coinbaseBranch auxpow.index.toInt =
        auxpow.parent.merkleRoot ∧
      auxpow.coinbase.inputs ≠ [] ∧
      ∃ found, commitment (Coinbase.script auxpow.coinbase) (chainRoot auxpow hash) = .ok found ∧
        found.treeSize = 1 <<< auxpow.chainBranch.length ∧
        auxpow.chainIndex.toUInt32.toNat =
          expectedIndex found.nonce (UInt32.ofNat chainId) auxpow.chainBranch.length := by
  rw [check, Coinbase.script, chainRoot]
  simp only [Outcome.throw_bind, Outcome.refuse_eq_ok_iff, ne_eq, Decidable.not_not,
    Bool.and_eq_true, beq_iff_eq, gt_iff_lt, Nat.not_lt]
  refine and_congr_right fun _ => and_congr_right fun _ => and_congr_right fun _ =>
    and_congr_right fun _ => ?_
  cases auxpow.coinbase.inputs with
  | nil => simp
  | cons input rest =>
    simp only [Outcome.bind_eq_ok_iff, Outcome.refuse_eq_ok_iff, Outcome.pure_eq_ok_iff,
      Decidable.not_not, and_true, reduceCtorEq, not_false_eq_true, true_and]

/-- A proof that is accepted uses a leaf that its tree of chains has. -/
theorem index_of_check {auxpow : AuxPow} {hash : Hash}
    (accepted : check auxpow hash chainId params = .ok ()) :
    0 ≤ auxpow.chainIndex.toInt ∧ auxpow.chainIndex.toInt < 2 ^ auxpow.chainBranch.length := by
  obtain ⟨-, -, short, -, -, found, -, -, index⟩ := check_eq_ok_iff.mp accepted
  have inside := expectedIndex_lt found.nonce (UInt32.ofNat chainId) auxpow.chainBranch.length
  rw [← index, Nat.one_shiftLeft] at inside
  -- The tree is so small that the unsigned index has no sign bit.
  have small : 2 ^ auxpow.chainBranch.length ≤ 2 ^ 30 := Nat.pow_le_pow_right (by decide) short
  have plain : auxpow.chainIndex.toInt = auxpow.chainIndex.toUInt32.toNat := by
    have := BitVec.toInt_eq_toNat_of_lt (x := auxpow.chainIndex.toBitVec)
      (show 2 * auxpow.chainIndex.toUInt32.toNat < 2 ^ 32 by omega)
    exact this
  rw [plain]
  exact ⟨Int.natCast_nonneg _, by exact_mod_cast inside⟩

/-- A proof that is accepted uses a leaf of its tree of chains; and two proofs with one marked
coinbase, accepted for one chain, use the same leaf of equally large trees for the same block,
unless different nodes of one level have the same parent. -/
theorem same_block_of_same_coinbase :
    (∀ (params : ChainParams) (chainId : Nat) (auxpow : AuxPow) (hash : Hash),
      check auxpow hash chainId params = .ok () →
      0 ≤ auxpow.chainIndex.toInt ∧
        auxpow.chainIndex.toInt < 2 ^ auxpow.chainBranch.length) ∧
    ∀ (params : ChainParams) (chainId : Nat) (auxpow other : AuxPow) (hash hash' : Hash),
      auxpow.coinbase = other.coinbase → marker <:+: Coinbase.script auxpow.coinbase →
      check auxpow hash chainId params = .ok () → check other hash' chainId params = .ok () →
      auxpow.chainIndex = other.chainIndex ∧
        auxpow.chainBranch.length = other.chainBranch.length ∧
        (hash = hash' ∧ auxpow.chainBranch = other.chainBranch ∨
          Merkle.BranchesCollide auxpow.chainIndex.toInt hash auxpow.chainBranch hash'
            other.chainBranch) := by
  refine ⟨fun params chainId auxpow hash accepted => index_of_check accepted, ?_⟩
  intro params chainId auxpow other hash hash' same marked accepted accepted'
  obtain ⟨nonneg, -⟩ := index_of_check accepted
  obtain ⟨-, -, -, -, -, found, committed, size, index⟩ := check_eq_ok_iff.mp accepted
  obtain ⟨-, -, -, -, -, found', committed', size', index'⟩ := check_eq_ok_iff.mp accepted'
  rw [← same] at committed'
  obtain ⟨root, rfl⟩ := commitment_unique marked committed committed'
  have level : auxpow.chainBranch.length = other.chainBranch.length := by
    rw [size, Nat.one_shiftLeft, Nat.one_shiftLeft] at size'
    exact (Nat.pow_right_inj Nat.one_lt_two).mp size'
  have leaf : auxpow.chainIndex = other.chainIndex := by
    rw [← level, ← index] at index'
    exact Int32.toBitVec_inj.mp (congrArg UInt32.toBitVec (UInt32.toNat_inj.mp index'.symm))
  rw [chainRoot, chainRoot, ← leaf] at root
  exact ⟨leaf, level, Merkle.eq_or_branchesCollide nonneg level root⟩

end Accepted

namespace Shared

local instance : Primitives := Primitives.transparent

/-- A root over two chains, of which this one has the second leaf. -/
def root : Hash := ⟨List.replicate 32 7, rfl⟩

def parentCoinbase : Transaction where
  version := 1
  inputs := [⟨OutPoint.null, [3, 3] ++ marker ++ root.bytes.reverse ++ littleEndian 4 2
    ++ littleEndian 4 1, 0xffffffff⟩]
  outputs := []
  lockTime := 0

/-- A proof from this coinbase with a given sibling. A hash that shows only the end of what it
hashes accepts any sibling on the left. -/
def proof (sibling : UInt8) : AuxPow :=
  { AuxPow.empty with
    coinbase := parentCoinbase
    chainBranch := [⟨List.replicate 32 sibling, List.length_replicate⟩]
    chainIndex := 1
    parent := { BlockHeader.zero with merkleRoot := parentCoinbase.txid } }

theorem branchesCollide_shared :
    (proof 1).coinbase = (proof 2).coinbase ∧
      marker <:+: Coinbase.script (proof 1).coinbase ∧
      check (proof 1) root 0x62 ChainParams.regtest = .ok () ∧
      check (proof 2) root 0x62 ChainParams.regtest = .ok () ∧
      Merkle.BranchesCollide (proof 1).chainIndex.toInt root (proof 1).chainBranch root
        (proof 2).chainBranch := by
  have marked : marker <:+: Coinbase.script (proof 1).coinbase :=
    ⟨[3, 3], root.bytes.reverse ++ littleEndian 4 2 ++ littleEndian 4 1, by decide⟩
  have accepted : check (proof 1) root 0x62 ChainParams.regtest = .ok () := by decide +kernel
  have accepted' : check (proof 2) root 0x62 ChainParams.regtest = .ok () := by decide +kernel
  have different : (proof 1).chainBranch ≠ (proof 2).chainBranch := by decide
  obtain ⟨-, -, outcome⟩ := same_block_of_same_coinbase.2 ChainParams.regtest 0x62 (proof 1)
    (proof 2) root root rfl marked accepted accepted'
  exact ⟨rfl, marked, accepted, accepted',
    outcome.resolve_left fun same => different same.2⟩

end Shared

end ScryptLedger.MergeMining
