import Mathlib.Data.Set.Subsingleton
import Mathlib.Order.Bounds.Basic
import ScryptLedger.MergeMining
import ScryptLedger.Proofs.Outcome
import ScryptLedger.Proofs.Wire.Decoder

/-!
# Where a commitment stands

The miner of the parent chooses the bytes around a root: root and marker may
stand in a script any number of times, inside one another and inside what
follows. What counts is the first place of the root and the set of all places of
the marker. These decide whether a script commits to the root, and to what, and
otherwise which of five reasons against it comes first.
-/

namespace ScryptLedger.MergeMining

/-! ## Places of a pattern -/

/-- Whether a pattern stands at a place in a byte string. -/
def StandsAt (pattern bytes : Bytes) (place : Nat) : Prop :=
  ∃ before after, before.length = place ∧ bytes = before ++ pattern ++ after

/-- The places of a pattern. -/
def places (pattern bytes : Bytes) : Set Nat := {place | StandsAt pattern bytes place}

section Places

variable {pattern bytes : Bytes} {place : Nat}

theorem standsAt_iff : StandsAt pattern bytes place ↔
    place ≤ bytes.length ∧ pattern <+: bytes.drop place := by
  constructor
  · rintro ⟨before, after, rfl, rfl⟩
    rw [List.append_assoc, List.drop_left]
    exact ⟨by simp, List.prefix_append pattern after⟩
  · rintro ⟨inside, after, continued⟩
    refine ⟨bytes.take place, after, List.length_take_of_le inside, ?_⟩
    rw [List.append_assoc, continued, List.take_append_drop]

theorem room_of_standsAt (stands : StandsAt pattern bytes place) :
    place + pattern.length ≤ bytes.length := by
  obtain ⟨before, after, rfl, rfl⟩ := stands
  simp only [List.length_append]
  omega

theorem occurrencesFrom_eq_map (pattern : Bytes) (offset : Nat) (bytes : Bytes) :
    occurrencesFrom pattern offset bytes =
      ((List.range bytes.length).filter fun skipped =>
        pattern.isPrefixOf (bytes.drop skipped)).map (offset + ·) := by
  induction bytes generalizing offset with
  | nil => rfl
  | cons b rest ih =>
    have later : (offset + 1 + ·) = (offset + ·) ∘ Nat.succ := by
      funext skipped
      simp only [Function.comp_apply]
      omega
    have rest_eq : occurrencesFrom pattern (offset + 1) rest =
        (((List.range rest.length).map Nat.succ).filter fun skipped =>
          pattern.isPrefixOf ((b :: rest).drop skipped)).map (offset + ·) := by
      rw [ih, later, List.filter_map, List.map_map]
      rfl
    rw [occurrencesFrom, rest_eq, List.length_cons, List.range_succ_eq_map, List.filter_cons,
      List.drop_zero]
    cases pattern.isPrefixOf (b :: rest) with
    | false => rfl
    | true => rfl

/-- The places of a pattern in order are those of all indices where it is found. -/
theorem occurrences_eq_filter (pattern bytes : Bytes) :
    occurrences pattern bytes =
      (List.range bytes.length).filter fun place => pattern.isPrefixOf (bytes.drop place) := by
  rw [occurrences, occurrencesFrom_eq_map]
  simp

theorem mem_occurrences (some : pattern ≠ []) :
    place ∈ occurrences pattern bytes ↔ place ∈ places pattern bytes := by
  have positive := List.length_pos_iff.mpr some
  rw [occurrences_eq_filter, List.mem_filter, List.mem_range, List.isPrefixOf_iff_prefix]
  constructor
  · rintro ⟨inside, found⟩
    exact standsAt_iff.mpr ⟨inside.le, found⟩
  · intro stands
    have room := room_of_standsAt stands
    exact ⟨by omega, (standsAt_iff.mp stands).2⟩

theorem pairwise_occurrences (pattern bytes : Bytes) :
    (occurrences pattern bytes).Pairwise (· < ·) := by
  rw [occurrences_eq_filter]
  exact List.pairwise_lt_range.filter _

theorem places_eq_empty (some : pattern ≠ []) (none : occurrences pattern bytes = []) :
    places pattern bytes = ∅ := by
  refine Set.eq_empty_of_forall_notMem fun place stands => ?_
  have listed := (mem_occurrences some).mpr stands
  rw [none] at listed
  exact List.not_mem_nil listed

theorem isLeast_places (some : pattern ≠ []) {others : List Nat}
    (listed : occurrences pattern bytes = place :: others) :
    IsLeast (places pattern bytes) place := by
  have ordered := pairwise_occurrences pattern bytes
  rw [listed, List.pairwise_cons] at ordered
  constructor
  · rw [← mem_occurrences some, listed]
    exact List.mem_cons_self
  · intro other stands
    rw [← mem_occurrences some, listed] at stands
    rcases List.mem_cons.mp stands with rfl | later
    · exact Nat.le_refl _
    · exact (ordered.1 other later).le

theorem places_eq_singleton (some : pattern ≠ []) (listed : occurrences pattern bytes = [place]) :
    places pattern bytes = {place} := by
  ext other
  rw [← mem_occurrences some, listed, List.mem_singleton, Set.mem_singleton_iff]

theorem nontrivial_places (some : pattern ≠ []) {first second : Nat} {others : List Nat}
    (listed : occurrences pattern bytes = first :: second :: others) :
    (places pattern bytes).Nontrivial := by
  have ordered := pairwise_occurrences pattern bytes
  rw [listed, List.pairwise_cons] at ordered
  refine ⟨first, ?_, second, ?_, (ordered.1 second List.mem_cons_self).ne⟩
  · rw [← mem_occurrences some, listed]
    exact List.mem_cons_self
  · rw [← mem_occurrences some, listed]
    exact List.mem_cons_of_mem _ List.mem_cons_self

end Places

/-! ## What a script commits to -/

/-- The first place of a root, whose bytes a script has in the opposite order. -/
def IsRootPlace (script : Bytes) (root : Hash) (place : Nat) : Prop :=
  IsLeast (places root.bytes.reverse script) place

/-- Whether a script commits with a root at a place, and to what. -/
structure Commits (script : Bytes) (root : Hash) (place : Nat) (found : Commitment) : Prop where
  first : IsRootPlace script root place
  placed : (4 ≤ place ∧ places marker script = {place - 4}) ∨
    (places marker script = ∅ ∧ place ≤ 20)
  room : 8 ≤ (script.drop (place + 32)).length
  size : found.treeSize = ofLittleEndian ((script.drop (place + 32)).take 4)
  nonce : found.nonce.toNat = ofLittleEndian ((script.drop (place + 36)).take 4)

/-- Why a script does not commit to a root. Several reasons may apply. -/
inductive Fails (script : Bytes) (root : Hash) : AuxPowError → Prop
  | absent (missing : places root.bytes.reverse script = ∅) :
    Fails script root .missingChainMerkleRoot
  | several (many : (places marker script).Nontrivial) :
    Fails script root .multipleMergeMinePrefixes
  | misplaced {place marked : Nat} (first : IsRootPlace script root place)
    (stands : marked ∈ places marker script) (apart : marked + 4 ≠ place) :
    Fails script root .mergeMinePrefixMisplaced
  | late {place : Nat} (first : IsRootPlace script root place)
    (unmarked : places marker script = ∅) (far : 20 < place) :
    Fails script root .chainMerkleRootTooLate
  | short {place : Nat} (first : IsRootPlace script root place)
    (short : (script.drop (place + 32)).length < 8) :
    Fails script root .missingTreeSizeAndNonce

/-- The order in which the reasons count. -/
def precedence : List AuxPowError :=
  [.missingChainMerkleRoot, .multipleMergeMinePrefixes, .mergeMinePrefixMisplaced,
    .chainMerkleRootTooLate, .missingTreeSizeAndNonce]

/-- The first of some reasons that applies. -/
inductive FirstOf {Reason : Type} (applies : Reason → Prop) : List Reason → Reason → Prop
  | here {reason : Reason} {rest : List Reason} (now : applies reason) :
    FirstOf applies (reason :: rest) reason
  | later {passed reason : Reason} {rest : List Reason} (not_yet : ¬ applies passed)
    (then_ : FirstOf applies rest reason) : FirstOf applies (passed :: rest) reason

namespace FirstOf

variable {Reason : Type} {applies : Reason → Prop} {reasons : List Reason} {reason other : Reason}

theorem holds (first : FirstOf applies reasons reason) : applies reason := by
  induction first with
  | here now => exact now
  | later _ _ ih => exact ih

theorem unique (first : FirstOf applies reasons reason)
    (first' : FirstOf applies reasons other) : reason = other := by
  induction first with
  | here now =>
    cases first' with
    | here _ => rfl
    | later not_yet _ => exact absurd now not_yet
  | later not_yet _ ih =>
    cases first' with
    | here now => exact absurd now not_yet
    | later _ then_ => exact ih then_

end FirstOf

section Decision

variable {script : Bytes} {root : Hash} {place : Nat} {found : Commitment} {cause : AuxPowError}

theorem rootPattern_ne_nil (root : Hash) : root.bytes.reverse ≠ [] := by
  intro empty
  have length := congrArg List.length empty
  rw [List.length_reverse, root.length_bytes] at length
  cases length

theorem marker_ne_nil : marker ≠ [] := by decide

theorem IsRootPlace.unique {other : Nat} (first : IsRootPlace script root place)
    (first' : IsRootPlace script root other) : place = other :=
  IsLeast.unique first first'

theorem Commits.unique {other : Nat} {found' : Commitment}
    (commits : Commits script root place found) (commits' : Commits script root other found') :
    found = found' := by
  obtain rfl := commits.first.unique commits'.first
  have size : found.treeSize = found'.treeSize := commits.size.trans commits'.size.symm
  have nonce : found.nonce = found'.nonce :=
    UInt32.toNat_inj.mp (commits.nonce.trans commits'.nonce.symm)
  cases found; cases found'
  simp_all

/-- Nothing speaks against a script that commits to a root. -/
theorem Commits.not_fails (commits : Commits script root place found) :
    ¬ Fails script root cause := by
  intro fails
  cases fails with
  | absent missing =>
    have stands := commits.first.1
    rw [missing] at stands
    exact stands
  | several many =>
    rcases commits.placed with ⟨-, only⟩ | ⟨unmarked, -⟩
    · exact Set.not_nontrivial_singleton (only ▸ many)
    · exact Set.not_nontrivial_empty (unmarked ▸ many)
  | misplaced first stands apart =>
    obtain rfl := commits.first.unique first
    rcases commits.placed with ⟨behind, only⟩ | ⟨unmarked, -⟩
    · rw [only, Set.mem_singleton_iff] at stands
      omega
    · rw [unmarked] at stands
      exact stands
  | late first unmarked far =>
    obtain rfl := commits.first.unique first
    rcases commits.placed with ⟨-, only⟩ | ⟨-, near⟩
    · exact Set.singleton_ne_empty _ (only.symm.trans unmarked)
    · omega
  | short first short =>
    obtain rfl := commits.first.unique first
    exact absurd commits.room (Nat.not_le.mpr short)

/-- The commitment in the bytes behind a root, if there are as many as it needs. -/
def commitmentBehind (script : Bytes) (place : Nat) : Except AuxPowError Commitment :=
  if (script.drop (place + 32)).length < 8 then throw .missingTreeSizeAndNonce
  else return ⟨ofLittleEndian ((script.drop (place + 32)).take 4),
    UInt32.ofNat (ofLittleEndian (((script.drop (place + 32)).drop 4).take 4))⟩

/-- A commitment from the places of root and marker, each choice with all that follows it. -/
theorem commitment_eq_match (script : Bytes) (root : Hash) :
    commitment script root =
      match occurrences root.bytes.reverse script, occurrences marker script with
      | [], _ => throw .missingChainMerkleRoot
      | _ :: _, _ :: _ :: _ => throw .multipleMergeMinePrefixes
      | place :: _, [marked] =>
        if marked + marker.length ≠ place then throw .mergeMinePrefixMisplaced
        else commitmentBehind script place
      | place :: _, [] =>
        if place > maxUnmarkedOffset then throw .chainMerkleRootTooLate
        else commitmentBehind script place := by
  rw [commitment]
  simp only [Outcome.throw_bind]
  rcases occurrences root.bytes.reverse script with _ | ⟨place, others⟩
  · rfl
  · rcases occurrences marker script with _ | ⟨marked, _ | ⟨second, more⟩⟩ <;> rfl

/-- What is decided about a script and a root. -/
inductive Decides (script : Bytes) (root : Hash) : Except AuxPowError Commitment → Prop
  | commits {place : Nat} {found : Commitment} (commits : Commits script root place found) :
    Decides script root (.ok found)
  | fails {cause : AuxPowError} (first : FirstOf (Fails script root) precedence cause) :
    Decides script root (.error cause)

theorem Decides.unique {one other : Except AuxPowError Commitment}
    (decides : Decides script root one) (decides' : Decides script root other) : one = other := by
  cases decides with
  | commits commits =>
    cases decides' with
    | commits commits' => rw [commits.unique commits']
    | fails first => exact absurd first.holds commits.not_fails
  | fails first =>
    cases decides' with
    | commits commits => exact absurd first.holds commits.not_fails
    | fails first' => rw [first.unique first']

theorem not_absent (first : IsRootPlace script root place) :
    ¬ Fails script root .missingChainMerkleRoot := by
  rintro ⟨missing⟩
  exact Set.notMem_empty place (missing ▸ first.1)

theorem not_several (few : (places marker script).Subsingleton) :
    ¬ Fails script root .multipleMergeMinePrefixes := by
  intro fails
  cases fails with
  | several many => exact Set.not_nontrivial_iff.mpr few many

theorem not_misplaced (first : IsRootPlace script root place)
    (adjacent : ∀ marked ∈ places marker script, marked + 4 = place) :
    ¬ Fails script root .mergeMinePrefixMisplaced := by
  intro fails
  cases fails with
  | misplaced first' stands apart =>
    exact apart ((adjacent _ stands).trans (first.unique first'))

theorem not_late (first : IsRootPlace script root place)
    (near : places marker script = ∅ → place ≤ 20) :
    ¬ Fails script root .chainMerkleRootTooLate := by
  intro fails
  cases fails with
  | late first' unmarked far =>
    obtain rfl := first.unique first'
    exact absurd (near unmarked) (Nat.not_le.mpr far)

theorem toNat_ofLittleEndian_take (bytes : Bytes) :
    (UInt32.ofNat (ofLittleEndian (bytes.take 4))).toNat = ofLittleEndian (bytes.take 4) := by
  have small : 256 ^ (bytes.take 4).length ≤ 256 ^ 4 :=
    Nat.pow_le_pow_right (by decide) (List.length_take_le 4 bytes)
  exact UInt32.toNat_ofNat_of_lt' ((ofLittleEndian_lt _).trans_le small)

/-- Once the root and the marker stand as they should, it only takes the bytes behind the root. -/
theorem decides_commitmentBehind (first : IsRootPlace script root place)
    (placed : (4 ≤ place ∧ places marker script = {place - 4}) ∨
      (places marker script = ∅ ∧ place ≤ 20)) :
    Decides script root (commitmentBehind script place) := by
  have few : (places marker script).Subsingleton := by
    rcases placed with ⟨-, only⟩ | ⟨unmarked, -⟩
    · exact only ▸ Set.subsingleton_singleton
    · exact unmarked ▸ Set.subsingleton_empty
  have adjacent : ∀ marked ∈ places marker script, marked + 4 = place := by
    intro marked stands
    rcases placed with ⟨behind, only⟩ | ⟨unmarked, -⟩
    · rw [only, Set.mem_singleton_iff] at stands
      omega
    · exact absurd (unmarked ▸ stands) (Set.notMem_empty marked)
  have near : places marker script = ∅ → place ≤ 20 := by
    intro unmarked
    rcases placed with ⟨-, only⟩ | ⟨-, near⟩
    · exact absurd (only.symm.trans unmarked) (Set.singleton_ne_empty _)
    · exact near
  rw [commitmentBehind]
  by_cases short : (script.drop (place + 32)).length < 8
  · rw [if_pos short]
    exact .fails (.later (not_absent first) (.later (not_several few)
      (.later (not_misplaced first adjacent) (.later (not_late first near)
        (.here (.short first short))))))
  · rw [if_neg short]
    refine .commits ⟨first, placed, Nat.not_lt.mp short, rfl, ?_⟩
    rw [toNat_ofLittleEndian_take, List.drop_drop]

theorem decides_commitment (script : Bytes) (root : Hash) :
    Decides script root (commitment script root) := by
  rw [commitment_eq_match]
  rcases roots : occurrences root.bytes.reverse script with _ | ⟨place, others⟩
  · exact .fails (.here (.absent (places_eq_empty (rootPattern_ne_nil root) roots)))
  have first : IsRootPlace script root place := isLeast_places (rootPattern_ne_nil root) roots
  rcases marks : occurrences marker script with _ | ⟨marked, _ | ⟨second, more⟩⟩
  · have unmarked := places_eq_empty marker_ne_nil marks
    dsimp only
    by_cases far : place > maxUnmarkedOffset
    · rw [if_pos far]
      exact .fails (.later (not_absent first)
        (.later (not_several (unmarked ▸ Set.subsingleton_empty))
          (.later (not_misplaced first (by simp [unmarked])) (.here (.late first unmarked far)))))
    · rw [if_neg far]
      exact decides_commitmentBehind first (Or.inr ⟨unmarked, Nat.not_lt.mp far⟩)
  · have only := places_eq_singleton marker_ne_nil marks
    dsimp only
    by_cases apart : marked + marker.length ≠ place
    · rw [if_pos apart]
      have stands : marked ∈ places marker script := only ▸ Set.mem_singleton marked
      exact .fails (.later (not_absent first)
        (.later (not_several (only ▸ Set.subsingleton_singleton))
          (.here (.misplaced first stands apart))))
    · rw [if_neg apart]
      have behind : marked + 4 = place := not_not.mp apart
      refine decides_commitmentBehind first (Or.inl ⟨by omega, ?_⟩)
      rw [only, ← behind, Nat.add_sub_cancel]
  · have many := nontrivial_places marker_ne_nil marks
    exact .fails (.later (not_absent first) (.here (.several many)))

theorem exists_commits (committed : commitment script root = .ok found) :
    ∃ place, Commits script root place found := by
  have decides := decides_commitment script root
  rw [committed] at decides
  cases decides with
  | commits commits => exact ⟨_, commits⟩

end Decision

end ScryptLedger.MergeMining
