import ScryptLedger.Primitives

/-!
# Merkle trees

A level of the tree is folded by pairs into the next one; the last node of an
odd level is paired with itself. Since that makes some different lists of
leaves share a root, the fold also reports whether two equal neighbours were
paired anywhere. A branch leads from one leaf to the root: at each level, one
bit of the leaf's index says on which side its sibling stands.
-/

namespace ScryptLedger.Merkle

variable [Primitives]

/-- The next level of the tree. -/
def parents : List Hash → List Hash
  | left :: right :: rest => hashPair left right :: parents rest
  | [last] => [hashPair last last]
  | [] => []

def hasEqualPair : List Hash → Bool
  | left :: right :: rest => left == right || hasEqualPair rest
  | _ => false

theorem length_parents (level : List Hash) :
    (parents level).length = (level.length + 1) / 2 := by
  fun_induction parents level with
  | case1 left right rest ih => simp [ih]; omega
  | case2 => simp
  | case3 => simp

/-- The root over some leaves, and whether equal nodes were paired on the way. -/
def rootAndMutation : List Hash → Hash × Bool
  | [] => (Digest.zero, false)
  | [root] => (root, false)
  | first :: second :: rest =>
    let level := first :: second :: rest
    let (root, mutated) := rootAndMutation (parents level)
    (root, hasEqualPair level || mutated)
termination_by leaves => leaves.length
decreasing_by simp [length_parents]; omega

def root (leaves : List Hash) : Hash :=
  (rootAndMutation leaves).1

/-- The root a branch leads to. Negative indices keep their sign when halved; the index `-1`
belongs to no leaf and leads to the zero hash. -/
def rootOfBranch (leaf : Hash) (branch : List Hash) (index : Int) : Hash :=
  if index = -1 then Digest.zero
  else
    (branch.foldl (fun (node, index) sibling =>
      (if index % 2 = 1 then hashPair sibling node else hashPair node sibling, index / 2))
      (leaf, index)).1

end ScryptLedger.Merkle
