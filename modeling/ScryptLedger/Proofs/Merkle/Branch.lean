import ScryptLedger.Proofs.Merkle.Tree

/-!
# What a merkle branch commits to

A branch leads from a leaf to a root along the bits of an index. Two branches
of one length that lead along one index to one root start at the same leaf and
have the same siblings, unless two different pairs on one level are hashed to
one node.
-/

namespace ScryptLedger.Merkle

/-- The pair of a node and its sibling, on the side that the index tells. -/
def pairAt (index : Int) (node sibling : Hash) : Hash × Hash :=
  if index % 2 = 1 then (sibling, node) else (node, sibling)

theorem pairAt_inj {index : Int} {node node' sibling sibling' : Hash}
    (same : pairAt index node sibling = pairAt index node' sibling') :
    node = node' ∧ sibling = sibling' := by
  rw [pairAt, pairAt] at same
  split at same
  · obtain ⟨sameSibling, sameNode⟩ := Prod.mk.inj same
    exact ⟨sameNode, sameSibling⟩
  · exact Prod.mk.inj same

variable [Primitives]

/-- The pairs that are hashed from a leaf up, lowest level first. -/
def climb (node : Hash) (index : Int) : List Hash → List (Hash × Hash)
  | [] => []
  | sibling :: rest =>
    pairAt index node sibling :: climb (join (pairAt index node sibling)) (index / 2) rest

/-- Whether two branches along one index hash different pairs of one level to one node. -/
def BranchesCollide (index : Int) (leaf : Hash) (branch : List Hash) (leaf' : Hash)
    (branch' : List Hash) : Prop :=
  ∃ p q, (p, q) ∈ (climb leaf index branch).zip (climb leaf' index branch') ∧
    p ≠ q ∧ join p = join q

section Nonneg

variable {index : Int} (nonneg : 0 ≤ index)
include nonneg

theorem rootOfBranch_nil (leaf : Hash) : rootOfBranch leaf [] index = leaf := by
  have least : index ≠ -1 := by omega
  rw [rootOfBranch, if_neg least, List.foldl_nil]

theorem rootOfBranch_cons (leaf sibling : Hash) (rest : List Hash) :
    rootOfBranch leaf (sibling :: rest) index =
      rootOfBranch (join (pairAt index leaf sibling)) rest (index / 2) := by
  have least : index ≠ -1 := by omega
  have least' : index / 2 ≠ -1 := by omega
  have here : (if index % 2 = 1 then hashPair sibling leaf else hashPair leaf sibling) =
      join (pairAt index leaf sibling) := by
    rw [pairAt, join]
    split <;> rfl
  rw [rootOfBranch, rootOfBranch, if_neg least, if_neg least', List.foldl_cons, ← here]

/-- Where two branches of one length lead to the same root along one index. -/
theorem eq_or_branchesCollide {leaf leaf' : Hash} {branch branch' : List Hash}
    (level : branch.length = branch'.length)
    (same : rootOfBranch leaf branch index = rootOfBranch leaf' branch' index) :
    leaf = leaf' ∧ branch = branch' ∨ BranchesCollide index leaf branch leaf' branch' := by
  induction branch generalizing index leaf leaf' branch' with
  | nil =>
    obtain rfl := List.length_eq_zero_iff.mp level.symm
    rw [rootOfBranch_nil nonneg, rootOfBranch_nil nonneg] at same
    exact Or.inl ⟨same, rfl⟩
  | cons sibling rest ih =>
    match branch', level with
    | sibling' :: rest', level =>
      have shorter : rest.length = rest'.length := Nat.succ.inj level
      have half : 0 ≤ index / 2 := by omega
      rw [rootOfBranch_cons nonneg, rootOfBranch_cons nonneg] at same
      rcases ih half shorter same with ⟨node, rfl⟩ | ⟨p, q, above, different, one⟩
      · by_cases here : pairAt index leaf sibling = pairAt index leaf' sibling'
        · obtain ⟨rfl, rfl⟩ := pairAt_inj here
          exact Or.inl ⟨rfl, rfl⟩
        · exact Or.inr ⟨_, _, List.mem_cons_self, here, node⟩
      · exact Or.inr ⟨p, q, List.mem_cons_of_mem _ above, different, one⟩

end Nonneg

end ScryptLedger.Merkle
