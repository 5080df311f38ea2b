import Mathlib.Data.List.Nodup
import ScryptLedger.Merkle

/-!
# What a merkle root commits to

The fold pairs the last node of an odd level with itself, so that a list and
the same list with its end repeated share a root. The mutation flag catches
exactly that: two lists with one root and no flag are the same list, unless
the two folds hash different pairs to one node, or a leaf of one list is an
inner node over the other. No property of the hash function is assumed; what
would break the commitment is exhibited.
-/

namespace ScryptLedger.Merkle

/-- The pairs that one level is cut into. -/
def pairs : List Hash → List (Hash × Hash)
  | left :: right :: rest => (left, right) :: pairs rest
  | [last] => [(last, last)]
  | [] => []

/-- A level without equal pairs is determined by its pairs: it did not end in a repeated node. -/
theorem eq_of_pairs_eq {level other : List Hash} (same : pairs level = pairs other)
    (distinct : hasEqualPair level = false) (distinct' : hasEqualPair other = false) :
    level = other := by
  induction level using pairs.induct generalizing other with
  | case1 left right rest ih =>
    rw [hasEqualPair, Bool.or_eq_false_iff] at distinct
    have apart : left ≠ right := beq_eq_false_iff_ne.mp distinct.1
    match other with
    | [] => cases same
    | [last] =>
      obtain ⟨here, -⟩ := List.cons.inj same
      obtain ⟨rfl, rfl⟩ := Prod.mk.inj here
      exact absurd rfl apart
    | left' :: right' :: rest' =>
      obtain ⟨here, later⟩ := List.cons.inj same
      obtain ⟨rfl, rfl⟩ := Prod.mk.inj here
      rw [hasEqualPair, Bool.or_eq_false_iff] at distinct'
      rw [ih later distinct.2 distinct'.2]
  | case2 last =>
    match other with
    | [] => cases same
    | [last'] =>
      obtain ⟨here, -⟩ := List.cons.inj same
      rw [(Prod.mk.inj here).1]
    | left' :: right' :: rest' =>
      obtain ⟨here, -⟩ := List.cons.inj same
      obtain ⟨rfl, rfl⟩ := Prod.mk.inj here
      rw [hasEqualPair, beq_self_eq_true, Bool.true_or] at distinct'
      cases distinct'
  | case3 =>
    match other with
    | [] => rfl
    | [last] => cases same
    | left' :: right' :: rest' => cases same

theorem fst_mem_of_mem_pairs {level : List Hash} {pair : Hash × Hash} (held : pair ∈ pairs level) :
    pair.1 ∈ level := by
  induction level using pairs.induct with
  | case1 left right rest ih =>
    rcases List.mem_cons.mp held with rfl | later
    · exact List.mem_cons_self
    · exact List.mem_cons_of_mem _ (List.mem_cons_of_mem _ (ih later))
  | case2 last =>
    obtain rfl := List.mem_singleton.mp held
    exact List.mem_cons_self
  | case3 => cases held

variable [Primitives]

/-- The node over a pair. -/
def join (pair : Hash × Hash) : Hash := hashPair pair.1 pair.2

theorem parents_eq_map_pairs (level : List Hash) : parents level = (pairs level).map join := by
  induction level using pairs.induct with
  | case1 left right rest ih => rw [parents, pairs, List.map_cons, ih, join]
  | case2 last => rfl
  | case3 => rfl

/-- All pairs that are hashed on the way to the root. -/
def hashed : List Hash → List (Hash × Hash)
  | [] => []
  | [_] => []
  | first :: second :: rest =>
    pairs (first :: second :: rest) ++ hashed (parents (first :: second :: rest))
termination_by leaves => leaves.length
decreasing_by simp [length_parents]; omega

/-- The nodes of the tree that are not leaves. -/
def inner (leaves : List Hash) : List Hash := (hashed leaves).map join

section Level

variable {level : List Hash} (several : 2 ≤ level.length)
include several

theorem length_parents_lt : (parents level).length < level.length := by
  rw [length_parents]
  omega

theorem hashed_of_several : hashed level = pairs level ++ hashed (parents level) := by
  match level, several with
  | first :: second :: rest, _ => rw [hashed]

/-- Inner nodes are the next level and the inner nodes over it. -/
theorem mem_inner_iff {node : Hash} :
    node ∈ inner level ↔ node ∈ parents level ∨ node ∈ inner (parents level) := by
  rw [inner, hashed_of_several several, List.map_append, List.mem_append, ← parents_eq_map_pairs,
    inner]

/-- No equal nodes were paired when there are none on this level and none above it. -/
theorem rootAndMutation_eq_iff {root : Hash} :
    rootAndMutation level = (root, false) ↔
      hasEqualPair level = false ∧ rootAndMutation (parents level) = (root, false) := by
  match level, several with
  | first :: second :: rest, _ =>
    rw [rootAndMutation]
    obtain ⟨above, mutated⟩ := rootAndMutation (parents (first :: second :: rest))
    simp only [Prod.mk.injEq, Bool.or_eq_false_iff]
    constructor
    · rintro ⟨rfl, here, later⟩
      exact ⟨here, rfl, later⟩
    · rintro ⟨here, rfl, later⟩
      exact ⟨rfl, here, later⟩

end Level

theorem parents_ne_nil {level : List Hash} (some : level ≠ []) : parents level ≠ [] := by
  intro none
  have length := length_parents level
  have := List.length_pos_iff.mpr some
  rw [none, List.length_nil] at length
  omega

/-- The root over several leaves is an inner node. -/
theorem root_mem_inner {leaves : List Hash} {root : Hash} (several : 2 ≤ leaves.length)
    (folded : rootAndMutation leaves = (root, false)) : root ∈ inner leaves := by
  induction h : leaves.length using Nat.strongRecOn generalizing leaves with
  | ind n ih =>
    subst h
    have above := ((rootAndMutation_eq_iff several).mp folded).2
    rw [mem_inner_iff several]
    by_cases more : 2 ≤ (parents leaves).length
    · exact Or.inr (ih _ (length_parents_lt several) more above rfl)
    · have length := length_parents leaves
      obtain ⟨node, single⟩ := List.length_eq_one_iff.mp (show (parents leaves).length = 1 by omega)
      rw [single, rootAndMutation, Prod.mk.injEq] at above
      rw [single, above.1]
      exact Or.inl List.mem_cons_self

/-- The left node of a hashed pair is a leaf or an inner node. -/
theorem fst_mem_of_mem_hashed {leaves : List Hash} {pair : Hash × Hash}
    (held : pair ∈ hashed leaves) : pair.1 ∈ leaves ∨ pair.1 ∈ inner leaves := by
  induction h : leaves.length using Nat.strongRecOn generalizing leaves with
  | ind n ih =>
    subst h
    by_cases several : 2 ≤ leaves.length
    · rw [hashed_of_several several, List.mem_append] at held
      rw [mem_inner_iff several]
      rcases held with here | above
      · exact Or.inl (fst_mem_of_mem_pairs here)
      · exact Or.inr (ih _ (length_parents_lt several) above rfl)
    · match leaves, several with
      | [], _ => simp [hashed] at held
      | [_], _ => simp [hashed] at held
      | _ :: _ :: _, short => simp at short

/-- What two folds betray when they lead from different leaves to one root. -/
inductive Collides (leaves other : List Hash) : Prop where
  /-- Two different pairs, one hashed in each fold, have the same node over them. -/
  | pair (p q : Hash × Hash) (first : p ∈ hashed leaves) (second : q ∈ hashed other)
      (different : p ≠ q) (same : join p = join q)
  /-- A leaf of the first list is an inner node over the second. -/
  | leaf (node : Hash) (low : node ∈ leaves) (high : node ∈ inner other)
  /-- A leaf of the second list is an inner node over the first. -/
  | inner (node : Hash) (low : node ∈ other) (high : node ∈ inner leaves)

theorem Collides.symm {leaves other : List Hash} (betrayed : Collides leaves other) :
    Collides other leaves := by
  cases betrayed with
  | pair p q first second different same =>
    exact .pair q p second first different.symm same.symm
  | leaf node low high => exact .inner node low high
  | inner node low high => exact .leaf node low high

/-- An inner node of both trees, a leaf's parent in the first, betrays the hash function: either
its pair hides a leaf among the inner nodes, or it has two pairs. -/
theorem Collides.of_parent {leaves other : List Hash} {node : Hash}
    (several : 2 ≤ leaves.length) (several' : 2 ≤ other.length)
    (low : node ∈ parents leaves) (high : node ∈ Merkle.inner (parents other)) :
    Collides leaves other := by
  rw [parents_eq_map_pairs] at low
  obtain ⟨p, held, rfl⟩ := List.mem_map.mp low
  obtain ⟨q, above, same⟩ := List.mem_map.mp high
  by_cases one : p = q
  · subst one
    refine .leaf p.1 (fst_mem_of_mem_pairs held) ((mem_inner_iff several').mpr ?_)
    exact fst_mem_of_mem_hashed above
  · refine .pair p q ?_ ?_ one same.symm
    · rw [hashed_of_several several]
      exact List.mem_append_left _ held
    · rw [hashed_of_several several']
      exact List.mem_append_right _ above

/-- What the levels above betray, the whole trees betray. -/
theorem Collides.of_parents {leaves other : List Hash} (several : 2 ≤ leaves.length)
    (several' : 2 ≤ other.length) (above : Collides (parents leaves) (parents other)) :
    Collides leaves other := by
  cases above with
  | pair p q first second different same =>
    refine .pair p q ?_ ?_ different same
    · rw [hashed_of_several several]
      exact List.mem_append_right _ first
    · rw [hashed_of_several several']
      exact List.mem_append_right _ second
  | leaf node low high => exact .of_parent several several' low high
  | inner node low high => exact (Collides.of_parent several' several low high).symm

omit [Primitives] in
/-- Two lists with the same images are the same, or two of their elements have one image. -/
theorem eq_or_exists_of_map_eq {α β : Type} (f : α → β) {xs ys : List α}
    (same : xs.map f = ys.map f) :
    xs = ys ∨ ∃ x ∈ xs, ∃ y ∈ ys, x ≠ y ∧ f x = f y := by
  induction xs generalizing ys with
  | nil => exact Or.inl (List.map_eq_nil_iff.mp same.symm).symm
  | cons x xs ih =>
    cases ys with
    | nil => cases same
    | cons y ys =>
      obtain ⟨here, later⟩ := List.cons.inj same
      by_cases one : x = y
      · rcases ih later with rfl | ⟨x', first, y', second, different, equal⟩
        · exact Or.inl (by rw [one])
        · exact Or.inr ⟨x', List.mem_cons_of_mem _ first, y', List.mem_cons_of_mem _ second,
            different, equal⟩
      · exact Or.inr ⟨x, List.mem_cons_self, y, List.mem_cons_self, one, here⟩

omit [Primitives] in
theorem exists_singleton {leaves : List Hash} (some : leaves ≠ []) (few : ¬ 2 ≤ leaves.length) :
    ∃ node, leaves = [node] := by
  have positive := List.length_pos_iff.mpr some
  exact List.length_eq_one_iff.mp (by omega)

/-- Two lists of leaves with one root, of which none is reported as mutated, are the same, unless
the folds betray the hash function. -/
theorem eq_or_collides {leaves other : List Hash} {root : Hash} (some : leaves ≠ [])
    (some' : other ≠ []) (folded : rootAndMutation leaves = (root, false))
    (folded' : rootAndMutation other = (root, false)) :
    leaves = other ∨ Collides leaves other := by
  -- Both trees are descended from the root level by level; where one of them ends first, its leaf
  -- is the root of a subtree of the other.
  induction h : leaves.length using Nat.strongRecOn generalizing leaves other with
  | ind n ih =>
    subst h
    by_cases several : 2 ≤ leaves.length
    · by_cases several' : 2 ≤ other.length
      · obtain ⟨distinct, above⟩ := (rootAndMutation_eq_iff several).mp folded
        obtain ⟨distinct', above'⟩ := (rootAndMutation_eq_iff several').mp folded'
        rcases ih _ (length_parents_lt several) (parents_ne_nil some) (parents_ne_nil some') above
          above' rfl with same | betrayed
        · rw [parents_eq_map_pairs, parents_eq_map_pairs] at same
          rcases eq_or_exists_of_map_eq join same with same | ⟨p, first, q, second, different, one⟩
          · exact Or.inl (eq_of_pairs_eq same distinct distinct')
          · refine Or.inr (.pair p q ?_ ?_ different one)
            · rw [hashed_of_several several]
              exact List.mem_append_left _ first
            · rw [hashed_of_several several']
              exact List.mem_append_left _ second
        · exact Or.inr (.of_parents several several' betrayed)
      · obtain ⟨node, rfl⟩ := exists_singleton some' several'
        rw [rootAndMutation, Prod.mk.injEq] at folded'
        obtain rfl := folded'.1
        exact Or.inr (.inner node List.mem_cons_self (root_mem_inner several folded))
    · obtain ⟨node, rfl⟩ := exists_singleton some several
      rw [rootAndMutation, Prod.mk.injEq] at folded
      obtain rfl := folded.1
      by_cases several' : 2 ≤ other.length
      · exact Or.inr (.leaf node List.mem_cons_self (root_mem_inner several' folded'))
      · obtain ⟨node', rfl⟩ := exists_singleton some' several'
        rw [rootAndMutation, Prod.mk.injEq] at folded'
        exact Or.inl (by rw [folded'.1])

omit [Primitives] in
theorem hasEqualPair_of_nodup {level : List Hash} (distinct : level.Nodup) :
    hasEqualPair level = false := by
  induction level using pairs.induct with
  | case1 left right rest ih =>
    obtain ⟨left_new, later⟩ := List.nodup_cons.mp distinct
    have apart : left ≠ right := fun same => left_new (same ▸ List.mem_cons_self)
    rw [hasEqualPair, Bool.or_eq_false_iff]
    exact ⟨beq_eq_false_iff_ne.mpr apart, ih (List.nodup_cons.mp later).2⟩
  | case2 last => rfl
  | case3 => rfl

omit [Primitives] in
theorem nodup_pairs {level : List Hash} (distinct : level.Nodup) : (pairs level).Nodup := by
  induction level using pairs.induct with
  | case1 left right rest ih =>
    obtain ⟨left_new, later⟩ := List.nodup_cons.mp distinct
    refine List.nodup_cons.mpr ⟨fun again => ?_, ih (List.nodup_cons.mp later).2⟩
    exact left_new (List.mem_cons_of_mem _ (fst_mem_of_mem_pairs again))
  | case2 last => exact List.nodup_singleton _
  | case3 => exact List.nodup_nil

/-- A fold that hashes no two pairs to one node. -/
def IsInjectiveOn (leaves : List Hash) : Prop :=
  ∀ p ∈ hashed leaves, ∀ q ∈ hashed leaves, join p = join q → p = q

theorem isInjectiveOn_singleton (leaf : Hash) : IsInjectiveOn [leaf] := by
  intro p held
  rw [hashed] at held
  cases held

theorem isInjectiveOn_pair (left right : Hash) : IsInjectiveOn [left, right] := by
  have only : hashed [left, right] = [(left, right)] := by
    rw [hashed, pairs, pairs, parents, parents, hashed, List.append_nil]
  intro p held q held' _
  rw [only] at held held'
  rw [List.mem_singleton.mp held, List.mem_singleton.mp held']

/-- Different leaves are never reported as mutated, unless the fold hashes two pairs to one
node. -/
theorem not_mutated_of_nodup {leaves : List Hash} (distinct : leaves.Nodup)
    (injective : IsInjectiveOn leaves) : (rootAndMutation leaves).2 = false := by
  induction h : leaves.length using Nat.strongRecOn generalizing leaves with
  | ind n ih =>
    subst h
    match leaves with
    | [] => rw [rootAndMutation]
    | [_] => rw [rootAndMutation]
    | first :: second :: rest =>
      have several : 2 ≤ (first :: second :: rest).length := by simp
      rw [IsInjectiveOn, hashed_of_several several] at injective
      -- Injectivity carries the difference of the nodes from this level to the next one.
      have above : (parents (first :: second :: rest)).Nodup := by
        rw [parents_eq_map_pairs]
        refine List.Nodup.map_on (fun p held q held' same => ?_) (nodup_pairs distinct)
        exact injective p (List.mem_append_left _ held) q (List.mem_append_left _ held') same
      have later := ih _ (length_parents_lt several) above
        (fun p held q held' => injective p (List.mem_append_right _ held) q
          (List.mem_append_right _ held')) rfl
      rw [rootAndMutation]
      simp only [hasEqualPair_of_nodup distinct, later, Bool.or_self]

end ScryptLedger.Merkle
