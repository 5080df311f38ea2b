import Mathlib.Data.Nat.BitIndices
import Mathlib.Data.Fintype.Card
import Mathlib.Order.Fin.Basic
import ScryptLedger.Primitives.Transparent
import ScryptLedger.Proofs.Outcome
import ScryptLedger.Script.Multisig

/-!
# What several signatures at once decide

Where the signatures are matched in order, each key is tried once and never
given back. That loses nothing: of all ways to place the signatures, one that
takes each key as early as it fits exists whenever any exists. Where a selector
names the keys, its set bits are as many as the signatures, and each signature
has the key of its bit.
-/

namespace ScryptLedger.Script

/-! ## Placing one list in another -/

/-- Whether the elements of one list can be placed, in order, at elements of another that they
go with. -/
def Placeable {α β : Type} (goes : α → β → Prop) (items : List α) (places : List β) : Prop :=
  ∃ place : Fin items.length → Fin places.length,
    StrictMono place ∧ ∀ i, goes (items.get i) (places.get (place i))

namespace Placeable

variable {α β : Type} {goes : α → β → Prop} {item : α} {items : List α} {spot : β}
  {places : List β}

theorem nil : Placeable goes [] places :=
  ⟨fun i => i.elim0, fun i => i.elim0, fun i => i.elim0⟩

theorem length_le (placeable : Placeable goes items places) : items.length ≤ places.length := by
  obtain ⟨place, increasing, -⟩ := placeable
  simpa using Fintype.card_le_of_injective place increasing.injective

/-- The first item can take the first place wherever it goes there. -/
theorem cons (here : goes item spot) (rest : Placeable goes items places) :
    Placeable goes (item :: items) (spot :: places) := by
  obtain ⟨place, increasing, fits⟩ := rest
  refine ⟨Fin.cons 0 fun i => (place i).succ, ?_, ?_⟩
  · intro i j below
    cases i using Fin.cases with
    | zero =>
      cases j using Fin.cases with
      | zero => exact absurd below (lt_irrefl _)
      | succ j => simp
    | succ i =>
      cases j using Fin.cases with
      | zero => exact absurd below (Fin.not_lt_zero _)
      | succ j => simpa using increasing (Fin.succ_lt_succ_iff.mp below)
  · intro i
    cases i using Fin.cases with
    | zero => exact here
    | succ i => exact fits i

theorem skip (rest : Placeable goes items places) : Placeable goes items (spot :: places) := by
  obtain ⟨place, increasing, fits⟩ := rest
  exact ⟨fun i => (place i).succ, fun i j below => Fin.succ_lt_succ_iff.mpr (increasing below),
    fits⟩

/-- Places that leave out the first one are places among the others. -/
theorem of_ne_zero (place : Fin items.length → Fin (spot :: places).length)
    (increasing : StrictMono place)
    (fits : ∀ i, goes (items.get i) ((spot :: places).get (place i)))
    (later : ∀ i, place i ≠ 0) : Placeable goes items places := by
  choose lower above using fun i => Fin.exists_succ_eq.mpr (later i)
  refine ⟨lower, ?_, ?_⟩
  · intro i j below
    have ordered := increasing below
    rw [← above i, ← above j] at ordered
    exact Fin.succ_lt_succ_iff.mp ordered
  · intro i
    have here := fits i
    rw [← above i] at here
    exact here

/-- Whatever place the first item has, the others have places behind it. -/
theorem tail (placeable : Placeable goes (item :: items) (spot :: places)) :
    Placeable goes items places := by
  obtain ⟨place, increasing, fits⟩ := placeable
  refine of_ne_zero (fun i => place i.succ) ?_ (fun i => fits i.succ) ?_
  · intro i j below
    exact increasing (Fin.succ_lt_succ_iff.mpr below)
  · intro i
    have behind : place 0 < place i.succ := increasing (Fin.succ_pos i)
    exact ((Fin.zero_le _).trans_lt behind).ne'

/-- Where the first item does not go to the first place, no item has that place. -/
theorem of_not_goes (placeable : Placeable goes (item :: items) (spot :: places))
    (elsewhere : ¬ goes item spot) : Placeable goes (item :: items) places := by
  obtain ⟨place, increasing, fits⟩ := placeable
  have first : place 0 ≠ 0 := by
    intro zero
    have here := fits 0
    rw [zero] at here
    exact elsewhere here
  refine of_ne_zero place increasing fits ?_
  intro i
  have behind : place 0 ≤ place i := increasing.monotone (Fin.zero_le i)
  exact ((Fin.pos_of_ne_zero first).trans_le behind).ne'

end Placeable

namespace Multisig

/-! ## The operands on the stack -/

/-- The operands lie on top of the stack, each list behind its number of elements, and the keys
are counted within the limit on operations. -/
theorem stack_of_ofStack {minimal : Bool} {performed operations : Nat} {stack : Stack}
    {multisig : Multisig} (taken : ofStack minimal performed stack = .ok (multisig, operations)) :
    ∃ keyCount signatureCount,
      stack = (keyCount :: multisig.keys) ++ (signatureCount :: multisig.signatures)
        ++ multisig.selector :: multisig.below ∧
      operand minimal keyCount = .ok multisig.keys.length ∧
      operand minimal signatureCount = .ok multisig.signatures.length ∧
      multisig.signatures.length ≤ multisig.keys.length ∧
      operations = performed + multisig.keys.length ∧ operations ≤ maxOperations := by
  cases stack with
  | nil => exact absurd taken Outcome.throw_ne_ok
  | cons keyCount rest =>
    obtain ⟨keys, readKeys, taken⟩ := Outcome.bind_eq_ok_iff.mp taken
    obtain ⟨inRange, taken⟩ := Outcome.refuse_eq_ok_iff.mp taken
    obtain ⟨affordable, taken⟩ := Outcome.refuse_eq_ok_iff.mp taken
    cases afterKeys : rest.drop keys.toNat with
    | nil =>
      rw [afterKeys] at taken
      exact absurd taken Outcome.throw_ne_ok
    | cons signatureCount belowCount =>
      rw [afterKeys] at taken
      obtain ⟨signatures, readSignatures, taken⟩ := Outcome.bind_eq_ok_iff.mp taken
      obtain ⟨fewEnough, taken⟩ := Outcome.refuse_eq_ok_iff.mp taken
      cases afterSignatures : belowCount.drop signatures.toNat with
      | nil =>
        rw [afterSignatures] at taken
        exact absurd taken Outcome.throw_ne_ok
      | cons selector below =>
        rw [afterSignatures] at taken
        cases Outcome.pure_eq_ok_iff.mp taken
        have longKeys := congrArg List.length afterKeys
        have longSignatures := congrArg List.length afterSignatures
        simp only [List.length_drop, List.length_cons] at longKeys longSignatures
        have keyLength : (rest.take keys.toNat).length = keys.toNat := by
          rw [List.length_take]
          omega
        have signatureLength : (belowCount.take signatures.toNat).length = signatures.toNat := by
          rw [List.length_take]
          omega
        refine ⟨keyCount, signatureCount, ?_, ?_, ?_, ?_, ?_, ?_⟩
        · have upper := List.take_append_drop keys.toNat rest
          have lower := List.take_append_drop signatures.toNat belowCount
          rw [afterKeys] at upper
          rw [afterSignatures] at lower
          simp [lower, upper]
        · rw [readKeys, keyLength, Int.toNat_of_nonneg (by omega)]
        · rw [readSignatures, signatureLength, Int.toNat_of_nonneg (by omega)]
        · dsimp only
          omega
        · dsimp only
          omega
        · omega

/-! ## Keys named by a selector -/

theorem bitIndices_eq_filter {bits count : Nat} (inside : bits < 2 ^ count) :
    bits.bitIndices = (List.range count).filter bits.testBit := by
  refine Nat.bitIndices_sorted.eq_of_mem_iff ?_ ?_
  · exact (List.pairwise_lt_range.filter _).sortedLT
  · intro place
    have low : bits.testBit place = true → place < count := by
      intro isSet
      exact (Nat.pow_lt_pow_iff_right (by decide)).mp
        ((Nat.ge_two_pow_of_testBit isSet).trans_lt inside)
    simpa using low

/-- The selected keys are those at the set bits, and no bit is set beyond the keys. -/
theorem keys_of_selected {keys chosen : List Bytes} {selector : Bytes}
    (done : selected keys selector = .ok chosen) :
    (ofLittleEndian selector).bitIndices.map (keys[·]?) = chosen.map some := by
  obtain ⟨-, done⟩ := Outcome.refuse_eq_ok_iff.mp done
  obtain ⟨inside, done⟩ := Outcome.refuse_eq_ok_iff.mp done
  cases Outcome.pure_eq_ok_iff.mp done
  rw [Nat.not_le, Nat.one_shiftLeft] at inside
  have numbered : List.range keys.length = keys.zipIdx.map Prod.snd := by
    rw [List.zipIdx_map_snd, List.range_eq_range']
  rw [bitIndices_eq_filter inside, numbered, List.filter_map, List.map_map, List.map_map]
  refine List.map_congr_left fun pair kept => ?_
  exact List.mem_zipIdx_iff_getElem?.mp (List.mem_filter.mp kept).1

section Decision

variable [Primitives] {spend : Spend} {code : Bytes} {flags : ScriptFlags}

/-- Whether the check of one signature with one key succeeds. -/
def Covers (spend : Spend) (code : Bytes) (flags : ScriptFlags) (signature key : Bytes) : Prop :=
  spend.checkSignature signature key code flags = .ok true

theorem covers_of_checkPairs {pairs : List (Bytes × Bytes)}
    (done : checkPairs spend code flags pairs = .ok ()) :
    ∀ pair ∈ pairs, Covers spend code flags pair.1 pair.2 := by
  induction pairs with
  | nil => simp
  | cons pair rest ih =>
    obtain ⟨signature, key⟩ := pair
    obtain ⟨-, -, done⟩ := Outcome.bind_eq_ok_iff.mp done
    obtain ⟨-, -, done⟩ := Outcome.bind_eq_ok_iff.mp done
    obtain ⟨success, checked, done⟩ := Outcome.bind_eq_ok_iff.mp done
    cases success with
    | false => exact absurd done Outcome.throw_ne_ok
    | true => exact List.forall_mem_cons.mpr ⟨checked, ih done⟩

/-! ## Signatures matched in order -/

/-- Trying each key once, against the first signature without one, finds out whether the
signatures can be placed at keys that they go with. -/
theorem placeable_of_matchInOrder {keys signatures : List Bytes} {success : Bool}
    (done : matchInOrder spend code flags keys signatures = .ok success) :
    success = true ↔ Placeable (Covers spend code flags) signatures keys := by
  induction keys generalizing signatures with
  | nil =>
    cases signatures with
    | nil =>
      cases Outcome.pure_eq_ok_iff.mp done
      simp [Placeable.nil]
    | cons signature signatures =>
      cases Outcome.pure_eq_ok_iff.mp done
      simpa using fun placeable : Placeable _ _ _ => absurd placeable.length_le (by simp)
  | cons key keys ih =>
    cases signatures with
    | nil =>
      cases Outcome.pure_eq_ok_iff.mp done
      simp [Placeable.nil]
    | cons signature signatures =>
      obtain ⟨-, -, done⟩ := Outcome.bind_eq_ok_iff.mp done
      obtain ⟨-, -, done⟩ := Outcome.bind_eq_ok_iff.mp done
      obtain ⟨covered, checked, done⟩ := Outcome.bind_eq_ok_iff.mp done
      dsimp only at done
      have tried : Placeable (Covers spend code flags) (signature :: signatures) (key :: keys) ↔
          Placeable (Covers spend code flags)
            (if covered then signatures else signature :: signatures) keys := by
        cases covered with
        | true => exact ⟨Placeable.tail, Placeable.cons checked⟩
        | false =>
          have elsewhere : ¬ Covers spend code flags signature key := by simp [Covers, checked]
          exact ⟨fun placeable => placeable.of_not_goes elsewhere, Placeable.skip⟩
      rw [tried]
      by_cases few : keys.length < (if covered then signatures else signature :: signatures).length
      · rw [if_pos few] at done
        cases Outcome.pure_eq_ok_iff.mp done
        simpa using fun placeable : Placeable _ _ _ => absurd placeable.length_le few.not_ge
      · rw [if_neg few] at done
        exact ih done

/-! ## Both ways to decide -/

/-- Where no selector has a meaning, the signatures are matched in order, and each key counts as
one check unless nothing was signed. -/
theorem check_matching_eq_ok {multisig : Multisig} {success : Bool} {checks : Nat}
    (inOrder : (flags.schnorrMultisig && !multisig.selector.isEmpty) = false)
    (done : multisig.check spend code flags = .ok (success, checks)) :
    matchInOrder spend code flags multisig.keys multisig.signatures = .ok success ∧
      checks = if multisig.signatures.any (!·.isEmpty) then multisig.keys.length else 0 := by
  simp only [check, inOrder, Bool.false_eq_true, if_false] at done
  obtain ⟨-, done⟩ := Outcome.refuse_eq_ok_iff.mp done
  obtain ⟨matched, found, done⟩ := Outcome.bind_eq_ok_iff.mp done
  obtain ⟨-, done⟩ := Outcome.refuse_eq_ok_iff.mp done
  cases Outcome.pure_eq_ok_iff.mp done
  exact ⟨found, rfl⟩

/-- Where a selector has a meaning, it names one key for each signature, and each of these pairs
is one check that succeeds. -/
theorem check_selecting_eq_ok {multisig : Multisig} {success : Bool} {checks : Nat}
    (selecting : (flags.schnorrMultisig && !multisig.selector.isEmpty) = true)
    (done : multisig.check spend code flags = .ok (success, checks)) :
    success = true ∧ checks = multisig.signatures.length ∧
      ∃ chosen, selected multisig.keys multisig.selector = .ok chosen ∧
        chosen.length = multisig.signatures.length ∧
        ∀ pair ∈ multisig.signatures.zip chosen, Covers spend code flags pair.1 pair.2 := by
  simp only [check, selecting, if_true] at done
  obtain ⟨chosen, named, done⟩ := Outcome.bind_eq_ok_iff.mp done
  obtain ⟨sameCount, done⟩ := Outcome.refuse_eq_ok_iff.mp done
  obtain ⟨_, passed, done⟩ := Outcome.bind_eq_ok_iff.mp done
  cases Outcome.pure_eq_ok_iff.mp done
  exact ⟨rfl, rfl, chosen, named, not_not.mp sameCount, covers_of_checkPairs passed⟩

/-- Whether each signature goes with the key at its set bit of a selector. -/
structure CoveredBySelected (multisig : Multisig) (spend : Spend) (code : Bytes)
    (flags : ScriptFlags) : Prop where
  count : (ofLittleEndian multisig.selector).bitIndices.length = multisig.signatures.length
  inside : ∀ bit ∈ (ofLittleEndian multisig.selector).bitIndices, bit < multisig.keys.length
  covers : ∀ (i bit : Nat) (signature : Bytes), multisig.signatures[i]? = some signature →
    (ofLittleEndian multisig.selector).bitIndices[i]? = some bit →
    ∃ key, multisig.keys[bit]? = some key ∧ Covers spend code flags signature key

theorem coveredBySelected_of_pairs {multisig : Multisig} {chosen : List Bytes}
    (named : selected multisig.keys multisig.selector = .ok chosen)
    (sameCount : chosen.length = multisig.signatures.length)
    (passed : ∀ pair ∈ multisig.signatures.zip chosen, Covers spend code flags pair.1 pair.2) :
    CoveredBySelected multisig spend code flags := by
  have keys := keys_of_selected named
  constructor
  · have lengths := congrArg List.length keys
    simpa [sameCount] using lengths
  · intro bit isSet
    have found : multisig.keys[bit]? ∈ chosen.map some := by
      rw [← keys]
      exact List.mem_map_of_mem isSet
    obtain ⟨key, -, here⟩ := List.mem_map.mp found
    exact (List.getElem?_eq_some_iff.mp here.symm).1
  · intro i bit signature signed isSet
    have found : (chosen.map some)[i]? = some multisig.keys[bit]? := by
      rw [← keys, List.getElem?_map, isSet]
      rfl
    rw [List.getElem?_map] at found
    obtain ⟨key, here, same⟩ := Option.map_eq_some_iff.mp found
    have paired : (signature, key) ∈ multisig.signatures.zip chosen :=
      List.mem_of_getElem? (List.getElem?_zip_eq_some.mpr ⟨signed, here⟩)
    exact ⟨key, same.symm, passed _ paired⟩

/-- There are no more signature checks than keys. -/
theorem checks_le {multisig : Multisig} {success : Bool} {checks : Nat}
    (done : multisig.check spend code flags = .ok (success, checks))
    (fewer : multisig.signatures.length ≤ multisig.keys.length) :
    checks ≤ multisig.keys.length := by
  cases mode : flags.schnorrMultisig && !multisig.selector.isEmpty with
  | true =>
    obtain ⟨-, rfl, -⟩ := check_selecting_eq_ok mode done
    exact fewer
  | false =>
    obtain ⟨-, rfl⟩ := check_matching_eq_ok mode done
    split <;> omega

/-- What CHECKMULTISIG decides when it decides anything. -/
theorem decision_of_check {minimal : Bool} {performed operations : Nat} {stack : Stack}
    {multisig : Multisig} {success : Bool} {checks : Nat}
    (taken : ofStack minimal performed stack = .ok (multisig, operations))
    (done : multisig.check spend code flags = .ok (success, checks)) :
    (∃ keyCount signatureCount,
      stack = (keyCount :: multisig.keys) ++ (signatureCount :: multisig.signatures)
        ++ multisig.selector :: multisig.below ∧
      operand minimal keyCount = .ok multisig.keys.length ∧
      operand minimal signatureCount = .ok multisig.signatures.length) ∧
    stack.drop (multisig.keys.length + multisig.signatures.length + 3) = multisig.below ∧
    (multisig.selector = [] ∨ flags.schnorrMultisig = false →
      (success = true ↔ ∃ place : Fin multisig.signatures.length → Fin multisig.keys.length,
        StrictMono place ∧ ∀ i, spend.checkSignature (multisig.signatures.get i)
          (multisig.keys.get (place i)) code flags = .ok true)) ∧
    (multisig.selector ≠ [] ∧ flags.schnorrMultisig = true →
      success = true ∧ checks = multisig.signatures.length ∧
        CoveredBySelected multisig spend code flags) := by
  obtain ⟨keyCount, signatureCount, layout, readKeys, readSignatures, -⟩ := stack_of_ofStack taken
  refine ⟨⟨keyCount, signatureCount, layout, readKeys, readSignatures⟩, ?_, ?_, ?_⟩
  · have top : multisig.keys.length + multisig.signatures.length + 3
        = ((keyCount :: multisig.keys) ++ (signatureCount :: multisig.signatures)
          ++ [multisig.selector]).length := by
      simp only [List.length_append, List.length_cons, List.length_nil]
      omega
    rw [layout, List.append_cons, top, List.drop_left]
  · intro meaningless
    have inOrder : (flags.schnorrMultisig && !multisig.selector.isEmpty) = false := by
      rcases meaningless with empty | off
      · simp [empty]
      · simp [off]
    exact placeable_of_matchInOrder (check_matching_eq_ok inOrder done).1
  · rintro ⟨nonempty, on⟩
    have selecting : (flags.schnorrMultisig && !multisig.selector.isEmpty) = true := by
      simp [on, nonempty]
    obtain ⟨succeeds, counted, chosen, named, sameCount, passed⟩ :=
      check_selecting_eq_ok selecting done
    exact ⟨succeeds, counted, coveredBySelected_of_pairs named sameCount passed⟩

end Decision

namespace Spread

/-- Signatures that go with the keys of the same first byte. -/
local instance : Primitives :=
  { Primitives.transparent with
    ecdsaVerifies := fun signature key _ => signature.head? == key.head?
    schnorrVerifies := fun signature key _ => signature.head? == key.head? }

def tx : Transaction := ⟨1, [], [], 0⟩

def spend : Spend := ⟨tx, 0, 0, Sighash.Midstate.of tx⟩

/-- Two signatures for the last two of three keys, on a stack of one more element. -/
def matched : Multisig := ⟨[[9], [1], [2]], [[1, 1], [2, 1]], [], [[7]]⟩

/-- The same with Schnorr signatures and a selector. -/
def named : Multisig :=
  ⟨[[9], [1], [2]], [1 :: List.replicate 64 0, 2 :: List.replicate 64 0], [6], [[7]]⟩

def stackOf (multisig : Multisig) : Stack :=
  ([3] :: multisig.keys) ++ ([2] :: multisig.signatures) ++ multisig.selector :: multisig.below

def selecting : ScriptFlags := { ScriptFlags.none with schnorrMultisig := true }

theorem decision_spread :
    ofStack false 0 (stackOf matched) = .ok (matched, 3) ∧
      matched.check spend [] ScriptFlags.none = .ok (true, 3) ∧
      (∃ place : Fin 2 → Fin 3, StrictMono place ∧
        ∀ i, spend.checkSignature (matched.signatures.get i) (matched.keys.get (place i)) []
          ScriptFlags.none = .ok true) ∧
      ofStack false 0 (stackOf named) = .ok (named, 3) ∧
      named.check spend [] selecting = .ok (true, 2) ∧
      CoveredBySelected named spend [] selecting := by
  have taken : ofStack false 0 (stackOf matched) = .ok (matched, 3) := rfl
  have done : matched.check spend [] ScriptFlags.none = .ok (true, 3) := rfl
  have takenNamed : ofStack false 0 (stackOf named) = .ok (named, 3) := rfl
  have doneNamed : named.check spend [] selecting = .ok (true, 2) := rfl
  obtain ⟨-, -, inOrder, -⟩ := decision_of_check taken done
  obtain ⟨-, -, -, bySelector⟩ := decision_of_check takenNamed doneNamed
  exact ⟨taken, done, (inOrder (.inl rfl)).mp rfl, takenNamed, doneNamed,
    (bySelector ⟨by decide, rfl⟩).2.2⟩

end Spread

end Multisig

end ScryptLedger.Script
