import Mathlib.Tactic.IntervalCases
import ScryptLedger.Proofs.MergeMining.Refusal

/-!
# The smallest proof

A parent with one transaction commits to one block: its script is the marker, the
reversed hash of the block, and the size and the nonce of a tree of one chain. The
proof that is built this way commits to its block unless the bytes of the hash
themselves play a part: if the marker stands in them a second time, or if they
repeat the end of the marker so that they can be read from before their place.
There are two hashes of the latter kind. Nothing else can go wrong but that the
parent has the chain's own number.
-/

namespace ScryptLedger.MergeMining

/-! ## Repetition -/

/-- The first bytes of a block of bytes written over and over. -/
def echo (block : Bytes) (size : Nat) : Bytes := (List.replicate size block).flatten.take size

/-- What stands before some bytes repeats in them if they can be read from before it. -/
theorem prefix_append_self_iff {block bytes : Bytes} (some : block ≠ []) :
    bytes <+: block ++ bytes ↔ bytes = echo block bytes.length := by
  constructor
  · intro shifted
    have many : ∀ count, bytes <+: (List.replicate count block).flatten ++ bytes := by
      intro count
      induction count with
      | zero => exact List.prefix_rfl
      | succ count ih =>
        rw [List.replicate_succ, List.flatten_cons, List.append_assoc]
        exact shifted.trans ((List.prefix_append_right_inj block).mpr ih)
    have long : bytes.length ≤ ((List.replicate bytes.length block).flatten).length := by
      rw [List.length_flatten, List.map_replicate, List.sum_replicate_nat]
      exact Nat.le_mul_of_pos_right _ (List.length_pos_iff.mpr some)
    calc bytes
        = ((List.replicate bytes.length block).flatten ++ bytes).take bytes.length :=
          List.prefix_iff_eq_take.mp (many bytes.length)
      _ = echo block bytes.length := List.take_append_of_le_length long
  · intro repeated
    have inside : bytes <+: (List.replicate bytes.length block).flatten :=
      List.prefix_iff_eq_take.mpr repeated
    have turned : block ++ (List.replicate bytes.length block).flatten =
        (List.replicate bytes.length block).flatten ++ block := by
      rw [← List.flatten_cons, ← List.replicate_succ, List.replicate_succ', List.flatten_concat]
    have one : bytes <+: block ++ (List.replicate bytes.length block).flatten :=
      turned ▸ inside.trans (List.prefix_append _ block)
    have other := (List.prefix_append_right_inj block).mpr inside
    refine List.prefix_of_prefix_length_le one other ?_
    rw [List.length_append]
    exact Nat.le_add_left _ _

/-- A pattern that begins before some bytes does not reach into them if its last byte is none of
theirs. -/
theorem prefix_of_prefix_append {pattern before after : Bytes} {last : UInt8}
    (reaches : pattern ++ [last] <+: before ++ after) (absent : last ∉ after) :
    pattern ++ [last] <+: before := by
  rcases Nat.lt_or_ge pattern.length before.length with short | long
  · refine List.prefix_of_prefix_length_le reaches (List.prefix_append before after) ?_
    rw [List.length_append, List.length_singleton]
    exact short
  · obtain ⟨rest, continued⟩ := reaches
    have there : (before ++ after)[pattern.length]? = some last := by
      rw [← continued, List.append_assoc, List.getElem?_append_right (Nat.le_refl _), Nat.sub_self]
      rfl
    rw [List.getElem?_append_right long] at there
    exact absurd (List.mem_of_getElem? there) absent

/-! ## The script of the parent -/

section Script

variable (hash : Hash)

/-- The size and the nonce of a tree of one chain. -/
def soleTree : Bytes := [1, 0, 0, 0, 0, 0, 0, 0]

theorem commitmentScript_eq :
    commitmentScript hash = marker ++ (hash.bytes.reverse ++ soleTree) := by
  rw [commitmentScript, List.append_assoc, List.append_assoc]
  rfl

theorem length_reverse_bytes : hash.bytes.reverse.length = 32 := by
  rw [List.length_reverse, hash.length_bytes]

theorem marker_stands : 0 ∈ places marker (commitmentScript hash) :=
  ⟨[], hash.bytes.reverse ++ soleTree, rfl, commitmentScript_eq hash⟩

theorem root_stands : 4 ∈ places hash.bytes.reverse (commitmentScript hash) :=
  ⟨marker, soleTree, rfl, by rw [commitmentScript_eq, List.append_assoc]⟩

variable {hash} {place : Nat}

theorem drop_commitmentScript (inside : place ≤ 4) :
    (commitmentScript hash).drop place =
      marker.drop place ++ (hash.bytes.reverse ++ soleTree) := by
  rw [commitmentScript_eq]
  exact List.drop_append_of_le_length inside

theorem drop_marker : (commitmentScript hash).drop 4 = hash.bytes.reverse ++ soleTree :=
  drop_commitmentScript (Nat.le_refl 4)

/-- Another marker in the script is one in the hash. -/
theorem marker_isInfix (stands : place ∈ places marker (commitmentScript hash))
    (other : place ≠ 0) : marker <:+: hash.bytes.reverse := by
  obtain ⟨inside, found⟩ := standsAt_iff.mp stands
  rcases Nat.lt_or_ge place 4 with early | late
  · -- The marker does not begin again inside itself.
    rw [drop_commitmentScript early.le] at found
    interval_cases place
    · exact absurd rfl other
    · simp [marker] at found
    · simp [marker] at found
    · simp [marker] at found
  · -- Nor does it end in the bytes behind the hash.
    obtain ⟨skipped, rfl⟩ := Nat.exists_eq_add_of_le late
    rw [← List.drop_drop, drop_marker, List.drop_append, length_reverse_bytes] at found
    have absent : (0x6d : UInt8) ∉ soleTree.drop (skipped - 32) := by
      intro held
      exact absurd (List.mem_of_mem_drop held) (by decide)
    have within : [0xfa, 0xbe, 0x6d] ++ [0x6d] <+: hash.bytes.reverse.drop skipped :=
      prefix_of_prefix_append found absent
    exact within.isInfix.trans (List.drop_suffix _ _).isInfix

theorem places_marker_eq_iff :
    places marker (commitmentScript hash) = {0} ↔ ¬ marker <:+: hash.bytes.reverse := by
  constructor
  · rintro only ⟨before, after, held⟩
    have stands : (marker ++ before).length ∈ places marker (commitmentScript hash) := by
      refine ⟨marker ++ before, after ++ soleTree, rfl, ?_⟩
      rw [commitmentScript_eq, ← held]
      simp only [List.append_assoc]
    rw [only, Set.mem_singleton_iff, List.length_append] at stands
    exact absurd stands (Nat.ne_of_gt (Nat.add_pos_left (by decide) _))
  · intro alone
    ext place
    constructor
    · intro stands
      by_contra other
      exact alone (marker_isInfix stands other)
    · rintro rfl
      exact marker_stands hash

/-- The hash stands before its own place exactly if it repeats the end of the marker there. -/
theorem mem_places_iff (early : place < 4) :
    place ∈ places hash.bytes.reverse (commitmentScript hash) ↔
      hash.bytes.reverse = echo (marker.drop place) 32 := by
  have ending : marker.drop place ≠ [] := by
    rw [Ne, List.drop_eq_nil_iff]
    exact Nat.not_le.mpr early
  have room := room_of_standsAt (root_stands hash)
  have inside : place ≤ (commitmentScript hash).length := by omega
  have repeats : hash.bytes.reverse <+: marker.drop place ++ hash.bytes.reverse ↔
      hash.bytes.reverse = echo (marker.drop place) 32 := by
    rw [prefix_append_self_iff ending, length_reverse_bytes]
  refine standsAt_iff.trans ((and_iff_right inside).trans (Iff.trans ?_ repeats))
  rw [drop_commitmentScript early.le, ← List.append_assoc]
  constructor
  · intro found
    refine List.prefix_of_prefix_length_le found (List.prefix_append _ soleTree) ?_
    rw [List.length_append]
    exact Nat.le_add_left _ _
  · intro found
    exact found.trans (List.prefix_append _ soleTree)

theorem isRootPlace_iff :
    IsRootPlace (commitmentScript hash) hash 4 ↔
      ∀ place < 4, hash.bytes.reverse ≠ echo (marker.drop place) 32 := by
  constructor
  · intro first place early repeated
    exact absurd (first.2 ((mem_places_iff early).mpr repeated)) (Nat.not_le.mpr early)
  · intro plain
    refine ⟨root_stands hash, fun place stands => ?_⟩
    by_contra early
    exact plain place (Nat.not_le.mp early) ((mem_places_iff (Nat.not_le.mp early)).mp stands)

/-- The marker and the hash stand where they were put, and nowhere that counts, except for hashes
with a marker in them and two hashes that repeat the end of the marker. -/
theorem placed_iff :
    (places marker (commitmentScript hash) = {0} ∧ IsRootPlace (commitmentScript hash) hash 4) ↔
      ¬ marker <:+: hash.bytes.reverse ∧ hash.bytes.reverse ≠ echo [0xbe, 0x6d, 0x6d] 32 ∧
        hash.bytes.reverse ≠ echo [0x6d] 32 := by
  rw [places_marker_eq_iff, isRootPlace_iff]
  refine and_congr_right fun alone => ?_
  constructor
  · intro plain
    exact ⟨plain 1 (by decide), plain 3 (by decide)⟩
  · rintro ⟨three, one⟩ place early
    interval_cases place
    · intro repeated
      exact alone (repeated ▸ (by decide : marker <:+: echo marker 32))
    · exact three
    · exact one
    · exact one

/-- The script commits to its hash alone in a tree of one chain, as long as marker and hash stand
where they should. -/
theorem exists_commitment_iff :
    (∃ found, commitment (commitmentScript hash) hash = .ok found ∧ found.treeSize = 1) ↔
      places marker (commitmentScript hash) = {0} ∧
        IsRootPlace (commitmentScript hash) hash 4 := by
  constructor
  · rintro ⟨found, committed, -⟩
    obtain ⟨place, commits⟩ := exists_commits committed
    rcases commits.placed with ⟨behind, only⟩ | ⟨unmarked, -⟩
    · have zero : 0 = place - 4 := Set.mem_singleton_iff.mp (only ▸ marker_stands hash)
      obtain rfl : place = 4 := by omega
      exact ⟨only, commits.first⟩
    · exact absurd (unmarked ▸ marker_stands hash) (Set.notMem_empty 0)
  · rintro ⟨only, first⟩
    have rest : (commitmentScript hash).drop (4 + 32) = soleTree := by
      rw [← List.drop_drop, drop_marker, List.drop_left' (length_reverse_bytes hash)]
    have commits : Commits (commitmentScript hash) hash 4 ⟨1, 0⟩ := by
      refine ⟨first, Or.inl ⟨Nat.le_refl 4, only⟩, ?_, ?_, ?_⟩
      · rw [rest]
        decide
      · rw [rest]
        rfl
      · rw [← Nat.add_assoc 4 32 4, ← List.drop_drop, rest]
        rfl
    exact ⟨_, (decides_commitment _ _).unique (.commits commits), rfl⟩

end Script

/-! ## The proof -/

section Proof

variable [Primitives]

/-- When the proof that is built for a header commits to it, for a chain with any number. -/
theorem check_build_eq_ok_iff {header : BlockHeader} {parentVersion : Int32} {chainId : Nat}
    {params : ChainParams} :
    check (build header parentVersion) header.hash chainId params = .ok () ↔
      (params.strictChainId = false ∨ Version.chainId parentVersion ≠ chainId) ∧
        places marker (commitmentScript header.hash) = {0} ∧
        IsRootPlace (commitmentScript header.hash) header.hash 4 := by
  have root : chainRoot (build header parentVersion) header.hash = header.hash :=
    Merkle.rootOfBranch_nil (Int.le_refl 0) header.hash
  have leads : Merkle.rootOfBranch (build header parentVersion).coinbase.txid [] 0 =
      (build header parentVersion).parent.merkleRoot :=
    Merkle.rootOfBranch_nil (Int.le_refl 0) _
  have foreign_iff : ¬ (params.strictChainId = true ∧ Version.chainId parentVersion = chainId) ↔
      params.strictChainId = false ∨ Version.chainId parentVersion ≠ chainId := by
    rw [Decidable.not_and_iff_not_or_not, Bool.not_eq_true]
  rw [check_eq_ok_iff, root, ← exists_commitment_iff]
  constructor
  · rintro ⟨-, foreign, -, -, -, found, committed, size, -⟩
    exact ⟨foreign_iff.mp foreign, found, committed, size⟩
  · rintro ⟨foreign, found, committed, size⟩
    refine ⟨rfl, foreign_iff.mpr foreign, Nat.zero_le _, leads, List.cons_ne_nil _ _, found,
      committed, size, ?_⟩
    exact (expectedIndex_zero found.nonce _).symm

/-- The proof that is built for a header commits to it exactly if the parent has another number
than the header's chain, where that is asked for, and in the script of the parent the marker
stands at its start only and the hash first behind it. That excludes the hashes with a marker in
them, and two more. The leaf in a tree of one chain is never wrong, whatever nonce a script has. -/
theorem check_build_iff (header : BlockHeader) (parentVersion : Int32) (params : ChainParams) :
    Coinbase.script (build header parentVersion).coinbase =
        marker ++ header.hash.bytes.reverse ++ littleEndian 4 1 ++ littleEndian 4 0 ∧
      (check (build header parentVersion) header.hash (Version.chainId header.version) params
          = .ok () ↔
        (params.strictChainId = false ∨
          Version.chainId parentVersion ≠ Version.chainId header.version) ∧
        places marker (Coinbase.script (build header parentVersion).coinbase) = {0} ∧
        IsRootPlace (Coinbase.script (build header parentVersion).coinbase) header.hash 4) ∧
      (places marker (Coinbase.script (build header parentVersion).coinbase) = {0} ∧
          IsRootPlace (Coinbase.script (build header parentVersion).coinbase) header.hash 4 ↔
        ¬ marker <:+: header.hash.bytes.reverse ∧
          header.hash.bytes.reverse ≠ echo [0xbe, 0x6d, 0x6d] 32 ∧
          header.hash.bytes.reverse ≠ echo [0x6d] 32) ∧
      ∀ (auxpow : AuxPow) (hash : Hash) (chainId : Nat) (rules : ChainParams),
        check { auxpow with chainBranch := [], chainIndex := 0 } hash chainId rules
          ≠ .error .wrongChainIndex := by
  refine ⟨rfl, check_build_eq_ok_iff, placed_iff, ?_⟩
  intro auxpow hash chainId rules
  exact check_ne_wrongChainIndex rfl rfl

end Proof

namespace Echoing

local instance : Primitives := Primitives.transparent

/-- A header whose hash is one of the two: it can be read from two bytes before its place on. -/
def header : BlockHeader where
  version := 0x00620104
  previous := Digest.zero
  merkleRoot := ⟨List.replicate 32 0x6d, rfl⟩
  time := 0x6d6d6d6d
  bits := 0x6d6d6d6d
  nonce := 0x6d6d6d6d

example : check (build header 4) header.hash 0x62 ChainParams.regtest
    = .error .mergeMinePrefixMisplaced := by
  decide +kernel

end Echoing

end ScryptLedger.MergeMining
