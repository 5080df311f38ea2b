import Mathlib.Data.Nat.Log
import ScryptLedger.Proofs.Block.Check
import ScryptLedger.Proofs.MergeMining.Refusal

/-!
# Every leaf has a branch

The siblings that are met on the way from a leaf to the root make a branch for
this leaf. Where a level is odd its last node is its own sibling. The branch has
as many siblings as there are levels below the root, and it leads to the root
from every leaf, so that the coinbase of a block can always be shown to be its
first transaction.
-/

namespace ScryptLedger.Merkle

/-- The other node of the pair that a node is in. -/
def sibling : (level : List Hash) → (place : Nat) → Hash
  | _ :: right :: _, 0 => right
  | left :: _ :: _, 1 => left
  | _ :: _ :: rest, place + 2 => sibling rest place
  | [last], _ => last
  | [], _ => Digest.zero

/-- A node and its sibling are the pair at half of the node's place. -/
theorem getElem?_pairs {level : List Hash} {place : Nat} {node : Hash}
    (stands : level[place]? = some node) :
    (pairs level)[place / 2]? = some (pairAt place node (sibling level place)) := by
  induction level using pairs.induct generalizing place with
  | case1 left right rest ih =>
    rcases place with _ | _ | place
    · cases stands
      rfl
    · cases stands
      rfl
    · have half : (place + 2) / 2 = place / 2 + 1 := by omega
      have side : ((place + 2 : Nat) : Int) % 2 = (place : Int) % 2 := by omega
      rw [half, pairs, List.getElem?_cons_succ, ih stands, sibling, pairAt, pairAt, side]
  | case2 last =>
    rcases place with _ | place
    · cases stands
      rfl
    · cases stands
  | case3 => cases stands

section Opening

variable [Primitives]

/-- The siblings on the way from a leaf to the root, lowest level first. -/
def branchOf : (leaves : List Hash) → (place : Nat) → List Hash
  | first :: second :: rest, place =>
    sibling (first :: second :: rest) place ::
      branchOf (parents (first :: second :: rest)) (place / 2)
  | _, _ => []
termination_by leaves => leaves.length
decreasing_by simp [length_parents]; omega

theorem getElem?_parents {level : List Hash} {place : Nat} {node : Hash}
    (stands : level[place]? = some node) :
    (parents level)[place / 2]? = some (join (pairAt place node (sibling level place))) := by
  rw [parents_eq_map_pairs, List.getElem?_map, getElem?_pairs stands, Option.map_some]

theorem root_of_several (first second : Hash) (rest : List Hash) :
    root (first :: second :: rest) = root (parents (first :: second :: rest)) := by
  rw [root, rootAndMutation, root]

/-- A branch has one sibling for each time that the number of leaves is halved and rounded up. -/
theorem length_branchOf (leaves : List Hash) (place : Nat) :
    (branchOf leaves place).length = Nat.clog 2 leaves.length := by
  fun_induction branchOf leaves place with
  | case1 first second rest place ih =>
    have several : 2 ≤ (first :: second :: rest).length := by simp
    rw [List.length_cons, ih, length_parents, Nat.clog_of_two_le Nat.one_lt_two several]
    rfl
  | case2 leaves place few =>
    match leaves, few with
    | [], _ => rw [List.length_nil, Nat.clog_zero_right]
    | [_], _ => rw [List.length_nil, List.length_singleton, Nat.clog_one_right]
    | first :: second :: rest, few => exact absurd rfl (few first second rest)

/-- The branch of a leaf leads to the root. -/
theorem rootOfBranch_branchOf {leaves : List Hash} {place : Nat} {leaf : Hash}
    (stands : leaves[place]? = some leaf) :
    rootOfBranch leaf (branchOf leaves place) place = root leaves := by
  -- One level up, the node over the leaf and its sibling stands at half of the place.
  fun_induction branchOf leaves place generalizing leaf with
  | case1 first second rest place ih =>
    have above := ih (getElem?_parents stands)
    rw [rootOfBranch_cons (Int.natCast_nonneg place), root_of_several, ← above]
    rfl
  | case2 leaves place few =>
    match leaves, place, few with
    | [only], 0, _ =>
      cases stands
      rw [rootOfBranch_nil (Int.natCast_nonneg 0), root, rootAndMutation]
    | [only], place + 1, _ => cases stands
    | [], _, _ => cases stands
    | first :: second :: rest, _, few => exact absurd rfl (few first second rest)

/-- The coinbase of a block is shown to be its first transaction by the siblings on its way. -/
theorem leads_of_first {parent : Block} {coinbase : Transaction} {others : List Transaction}
    (shape : parent.transactions = coinbase :: others)
    (covers : root parent.txids = parent.header.merkleRoot) {auxpow : AuxPow}
    (same : auxpow.coinbase = coinbase) (opened : auxpow.coinbaseBranch = branchOf parent.txids 0)
    (first : auxpow.index = 0) (below : auxpow.parent = parent.header) :
    rootOfBranch auxpow.coinbase.txid auxpow.coinbaseBranch auxpow.index.toInt =
      auxpow.parent.merkleRoot := by
  have stands : parent.txids[0]? = some coinbase.txid := by
    rw [Block.txids, shape, List.map_cons, List.getElem?_cons_zero]
  rw [same, opened, first, below, ← covers]
  exact rootOfBranch_branchOf stands

/-- From every leaf of a tree with at most `2 ^ 31` leaves a branch leads to the root, with as
many siblings as the tree has levels below the root, along the leaf's place as a signed word. So
the coinbase of any block under its merkle root has a branch with which no proof is refused for
that root. -/
theorem every_leaf_opens :
    (∀ (leaves : List Hash) (place : Nat) (inside : place < leaves.length),
      leaves.length ≤ 2 ^ 31 →
      ∃ branch : List Hash, branch.length = Nat.clog 2 leaves.length ∧
        rootOfBranch leaves[place] branch (Int32.ofNat place).toInt = root leaves) ∧
    ∀ (parent : Block) (coinbase : Transaction) (others : List Transaction),
      parent.transactions = coinbase :: others → root parent.txids = parent.header.merkleRoot →
      ∃ branch : List Hash, branch.length = Nat.clog 2 parent.txids.length ∧
        ∀ (auxpow : AuxPow) (hash : Hash) (chainId : Nat) (params : ChainParams),
          auxpow.coinbase = coinbase → auxpow.coinbaseBranch = branch → auxpow.index = 0 →
          auxpow.parent = parent.header →
          rootOfBranch auxpow.coinbase.txid auxpow.coinbaseBranch auxpow.index.toInt =
              auxpow.parent.merkleRoot ∧
            MergeMining.check auxpow hash chainId params ≠ .error .merkleRootIncorrect := by
  constructor
  · intro leaves place inside few
    refine ⟨branchOf leaves place, length_branchOf leaves place, ?_⟩
    rw [Int32.toInt_ofNat_of_lt (Nat.lt_of_lt_of_le inside few)]
    exact rootOfBranch_branchOf (List.getElem?_eq_getElem inside)
  · intro parent coinbase others shape covers
    refine ⟨branchOf parent.txids 0, length_branchOf parent.txids 0, ?_⟩
    intro auxpow hash chainId params same opened first below
    have leads := leads_of_first shape covers same opened first below
    exact ⟨leads, MergeMining.check_ne_merkleRootIncorrect leads⟩

end Opening

namespace Odd

local instance : Primitives := Primitives.transparent

def last : Transaction := ⟨1, [], [], 2⟩

def transactions : List Transaction :=
  [MergeMining.Shared.parentCoinbase, ⟨1, [], [], 1⟩, last]

/-- A parent with three transactions, of which the last is its own sibling. -/
def parent : Block where
  header := { BlockHeader.zero with merkleRoot := root (transactions.map Transaction.txid) }
  auxpow := none
  transactions := transactions

/-- A proof that shows the parent's coinbase with some branch. -/
def proof (branch : List Hash) : AuxPow :=
  { MergeMining.Shared.proof 1 with coinbaseBranch := branch, parent := parent.header }

theorem every_leaf_opens_of_three :
    (∃ branch : List Hash, branch.length = 2 ∧
      rootOfBranch last.txid branch (Int32.ofNat 2).toInt = parent.header.merkleRoot) ∧
    ∃ branch : List Hash, branch.length = 2 ∧
      MergeMining.check (proof branch) MergeMining.Shared.root 0x62 ChainParams.regtest
        = .ok () := by
  have width : parent.txids.length = 3 := rfl
  have levels : Nat.clog 2 parent.txids.length = 2 := by
    rw [width]
    decide
  constructor
  · obtain ⟨branch, length, leads⟩ := every_leaf_opens.1 parent.txids 2 (by decide) (by decide)
    exact ⟨branch, length.trans levels, leads⟩
  · obtain ⟨branch, length, passes⟩ :=
      every_leaf_opens.2 parent MergeMining.Shared.parentCoinbase _ rfl rfl
    obtain ⟨leads, -⟩ := passes (proof branch) MergeMining.Shared.root 0x62 ChainParams.regtest
      rfl rfl rfl rfl
    have accepted : MergeMining.check (MergeMining.Shared.proof 1) MergeMining.Shared.root 0x62
        ChainParams.regtest = .ok () := by decide +kernel
    obtain ⟨first, foreign, short, -, rest⟩ := MergeMining.check_eq_ok_iff.mp accepted
    exact ⟨branch, length.trans levels,
      MergeMining.check_eq_ok_iff.mpr ⟨first, foreign, short, leads, rest⟩⟩

end Odd

end ScryptLedger.Merkle
