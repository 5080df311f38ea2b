import ScryptLedger.Proofs.MergeMining.Placement
import ScryptLedger.Proofs.Script.Positional.Attempt

/-!
# One pass over the script of a parent coinbase

A machine looks at a script from each place on, once, and keeps three places: the
first of the root and the first two of the marker. After the pass these are what
the lists of all places begin with, so it decides as if it knew them. The bytes
behind the root are read by their indices, and they are there.
-/

namespace ScryptLedger.MergeMining

namespace Scan

open Attempt

/-! ## The computation -/

/-- The places found so far that are kept. -/
structure Seen where
  root : Option Nat
  first : Option Nat
  second : Option Nat

def Seen.addMarker (seen : Seen) (place : Nat) : Seen :=
  if seen.first.isNone then { seen with first := some place }
  else if seen.second.isNone then { seen with second := some place }
  else seen

/-- Looks at the bytes from a place on. -/
def look (pattern script : Bytes) (seen : Seen) (place : Nat) : Attempt Seen := do
  let rest ← sliceFrom script place
  let rooted :=
    if seen.root.isNone && pattern.isPrefixOf rest then { seen with root := some place } else seen
  return if marker.isPrefixOf rest then rooted.addMarker place else rooted

def pass (pattern script : Bytes) : Attempt Seen :=
  (List.range script.length).foldlM (look pattern script) ⟨none, none, none⟩

/-- The four bytes from an index on, as a number. -/
def word (bytes : Bytes) (index : Nat) : Attempt Nat := do
  return ofLittleEndian [← item bytes index, ← item bytes (index + 1), ← item bytes (index + 2),
    ← item bytes (index + 3)]

def commitmentBehind (script : Bytes) (place : Nat) :
    Attempt (Except AuxPowError Commitment) := do
  let tail ← sliceFrom script (place + 32)
  if tail.length < 8 then return .error .missingTreeSizeAndNonce
  else return .ok ⟨← word tail 0, UInt32.ofNat (← word tail 4)⟩

def commitment (script : Bytes) (root : Hash) : Attempt (Except AuxPowError Commitment) := do
  let seen ← pass root.bytes.reverse script
  match seen.root, seen.first, seen.second with
  | none, _, _ => return .error .missingChainMerkleRoot
  | some _, some _, some _ => return .error .multipleMergeMinePrefixes
  | some place, some marked, none =>
    if marked + marker.length ≠ place then return .error .mergeMinePrefixMisplaced
    else commitmentBehind script place
  | some place, none, _ =>
    if place > maxUnmarkedOffset then return .error .chainMerkleRootTooLate
    else commitmentBehind script place

/-! ## The pass -/

/-- What is kept of two lists of places. -/
def Seen.of (roots markers : List Nat) : Seen := ⟨roots[0]?, markers[0]?, markers[1]?⟩

theorem addRoot_of (roots markers : List Nat) (place : Nat) (found : Bool) :
    (if (Seen.of roots markers).root.isNone && found then
      { Seen.of roots markers with root := some place } else Seen.of roots markers) =
      Seen.of (roots ++ if found then [place] else []) markers := by
  cases found <;> cases roots <;> rfl

theorem addMarker_of (roots markers : List Nat) (place : Nat) :
    (Seen.of roots markers).addMarker place = Seen.of roots (markers ++ [place]) := by
  rcases markers with _ | ⟨first, _ | ⟨second, more⟩⟩ <;> rfl

/-- The places of a pattern before a position. -/
def placesBefore (pattern script : Bytes) (position : Nat) : List Nat :=
  (List.range position).filter fun place => pattern.isPrefixOf (script.drop place)

theorem placesBefore_succ (pattern script : Bytes) (position : Nat) :
    placesBefore pattern script (position + 1) = placesBefore pattern script position ++
      if pattern.isPrefixOf (script.drop position) then [position] else [] := by
  rw [placesBefore, List.range_succ, List.filter_append, List.filter_cons, List.filter_nil,
    placesBefore]

theorem placesBefore_length (pattern script : Bytes) :
    placesBefore pattern script script.length = occurrences pattern script :=
  (occurrences_eq_filter pattern script).symm

section Pass

variable {pattern script : Bytes}

/-- A look adds one place to either list if the pattern stands there. -/
theorem look_eq {position : Nat} (inside : position < script.length) :
    look pattern script
        (Seen.of (placesBefore pattern script position) (placesBefore marker script position))
        position =
      pure (Seen.of (placesBefore pattern script (position + 1))
        (placesBefore marker script (position + 1))) := by
  rw [look, sliceFrom_eq inside.le, pure_bind, addRoot_of]
  dsimp only
  rw [addMarker_of, placesBefore_succ, placesBefore_succ]
  cases marker.isPrefixOf (script.drop position) with
  | true => rfl
  | false => rw [if_neg Bool.false_ne_true, if_neg Bool.false_ne_true, List.append_nil]

theorem pass_eq (pattern script : Bytes) :
    pass pattern script =
      pure (Seen.of (occurrences pattern script) (occurrences marker script)) := by
  have upTo : ∀ position ≤ script.length,
      (List.range position).foldlM (look pattern script) ⟨none, none, none⟩ =
        pure (Seen.of (placesBefore pattern script position)
          (placesBefore marker script position)) := by
    intro position inside
    induction position with
    | zero => rfl
    | succ position ih =>
      rw [List.range_succ, List.foldlM_append, ih (Nat.le_of_succ_le inside), pure_bind,
        List.foldlM_cons, look_eq inside, pure_bind, List.foldlM_nil]
  rw [pass, upTo _ (Nat.le_refl _), placesBefore_length, placesBefore_length]

end Pass

/-! ## The decision -/

theorem word_eq {bytes : Bytes} {index : Nat} (inside : index + 4 ≤ bytes.length) :
    word bytes index = pure (ofLittleEndian ((bytes.drop index).take 4)) := by
  have zero : index < bytes.length := by omega
  have one : index + 1 < bytes.length := by omega
  have two : index + 2 < bytes.length := by omega
  have three : index + 3 < bytes.length := by omega
  rw [word, item_eq (List.getElem?_eq_getElem zero), item_eq (List.getElem?_eq_getElem one),
    item_eq (List.getElem?_eq_getElem two), item_eq (List.getElem?_eq_getElem three),
    List.drop_eq_getElem_cons zero, List.drop_eq_getElem_cons one, List.drop_eq_getElem_cons two,
    List.drop_eq_getElem_cons three]
  rfl

theorem commitmentBehind_eq {script : Bytes} {place : Nat} (inside : place + 32 ≤ script.length) :
    commitmentBehind script place = pure (MergeMining.commitmentBehind script place) := by
  rw [commitmentBehind, MergeMining.commitmentBehind, sliceFrom_eq inside, pure_bind]
  refine refuse_eq_pure fun short => ?_
  rw [word_eq (by omega), pure_bind, word_eq (by omega), pure_bind]
  rfl

theorem commitment_eq (script : Bytes) (root : Hash) :
    commitment script root = pure (MergeMining.commitment script root) := by
  rw [commitment, pass_eq, pure_bind, commitment_eq_match]
  rcases roots : occurrences root.bytes.reverse script with _ | ⟨place, others⟩
  · rfl
  have stands : StandsAt root.bytes.reverse script place :=
    (isLeast_places (rootPattern_ne_nil root) roots).1
  have room := room_of_standsAt stands
  rw [List.length_reverse, root.length_bytes] at room
  rcases occurrences marker script with _ | ⟨marked, _ | ⟨second, more⟩⟩
  · exact refuse_eq_pure fun _ => commitmentBehind_eq room
  · exact refuse_eq_pure fun _ => commitmentBehind_eq room
  · rfl

end Scan

/-- What a script commits to, or why it does not, is decided by the first place of the root, the
set of the places of the marker, and the bytes behind the root; and one pass over the script finds
that decision without reading outside of it. -/
theorem commitment_exact (script : Bytes) (root : Hash) :
    (∀ outcome, commitment script root = outcome ↔ Decides script root outcome) ∧
      Scan.commitment script root = pure (commitment script root) := by
  refine ⟨fun outcome => ?_, Scan.commitment_eq script root⟩
  constructor
  · rintro rfl
    exact decides_commitment script root
  · intro decides
    exact (decides_commitment script root).unique decides

/-- A marker counts also where it stands inside the root. -/
example :
    let root : Hash := ⟨marker.reverse ++ List.replicate 28 0, rfl⟩
    commitment (commitmentScript root) root = .error .multipleMergeMinePrefixes := by
  decide +kernel

end ScryptLedger.MergeMining
