import ScryptLedger.Primitives.Transparent
import ScryptLedger.Proofs.Subsidy.Draw
import ScryptLedger.Proofs.Subsidy.Share

/-!
# The most that a block may create

What a block may create is told for its parent, and the most that it may create for
its height alone. Where amounts are not drawn, both are the same. A drawn amount is one
coin at least, and no more than the most as long as that is a coin or more. From the
height of two million on, amounts are drawn on no network but one whose digishield
height lies above; there the most is nothing, and a block gets one coin.
-/

namespace ScryptLedger

/-- A network on which difficulty moves with every block from another height on. -/
def ChainParams.withDigishield (params : ChainParams) (digishield : Nat) : ChainParams :=
  { params with digishieldHeight := digishield }

namespace Subsidy

/-- Whether amounts are drawn at a height. -/
def IsDrawnAt (height : Nat) (params : ChainParams) : Prop :=
  params.network ≠ .regtest ∧ params.isDigishield height = false

/-- The coins that the most comes to where amounts are drawn. -/
def mostCoins (height : Nat) (params : ChainParams) : Nat :=
  1000000 >>> min (height / params.halvingInterval) 31

/-- What a block at a height, on a given parent, may create, if a draw takes no more words than it
is given. -/
def ofBlockWithin? (tries height : Nat) (params : ChainParams) (previous : Hash) : Option Int :=
  let halvings := height / params.halvingInterval
  if params.network = .regtest then
    some (if 64 ≤ halvings then 0 else (50 * unitsPerCoin) >>> halvings)
  else if !params.isDigishield height then
    let most := 1000000 >>> min halvings 31 - 1
    if most < 1 then some unitsPerCoin
    else (UniformDraw.draw? 1 most tries (Twister.ofSeed (seed previous))).map fun drawn =>
      (1 + (drawn : Nat)) * unitsPerCoin
  else if halvings < 6 then some ((500000 * unitsPerCoin) >>> halvings)
  else some (10000 * unitsPerCoin)

/-- The amounts that blocks at a height may create, whatever their parents are. -/
inductive Possible (height : Nat) (params : ChainParams) : Int → Prop
  | fixed (isFixed : ¬ IsDrawnAt height params) : Possible height params (largest height params)
  | drawn (isDrawn : IsDrawnAt height params) (coins : Nat) (some : 1 ≤ coins)
      (within : coins ≤ max 1 (mostCoins height params)) :
      Possible height params (coins * unitsPerCoin)

variable {height : Nat} {params : ChainParams} {previous : Hash}

/-! ## Drawn amounts and the others -/

theorem largest_of_drawn (isDrawn : IsDrawnAt height params) :
    largest height params = mostCoins height params * unitsPerCoin := by
  obtain ⟨isPublic, early⟩ := isDrawn
  simp only [largest, mostCoins, isPublic, early, ne_eq, not_false_eq_true, Bool.not_false,
    and_self, if_true]

/-- Where amounts are not drawn, the parent does not count. -/
theorem ofBlockWithin?_of_fixed (isFixed : ¬ IsDrawnAt height params) (tries : Nat) :
    ofBlockWithin? tries height params previous = some (largest height params) := by
  have late : params.network ≠ .regtest → params.isDigishield height = true := by
    intro isPublic
    by_contra early
    exact isFixed ⟨isPublic, Bool.eq_false_iff.mpr early⟩
  by_cases isPublic : params.network = .regtest
  · simp [ofBlockWithin?, largest, ofBlock, isPublic]
  by_cases halves : height / params.halvingInterval < 6
  · simp [ofBlockWithin?, largest, ofBlock, isPublic, late isPublic, halves]
  · simp [ofBlockWithin?, largest, ofBlock, isPublic, late isPublic, halves]

theorem ofBlockWithin?_of_drawn (isDrawn : IsDrawnAt height params) (tries : Nat) :
    ofBlockWithin? tries height params previous =
      if mostCoins height params - 1 < 1 then some unitsPerCoin
      else (UniformDraw.draw? 1 (mostCoins height params - 1) tries
        (Twister.ofSeed (seed previous))).map fun drawn => (1 + (drawn : Nat)) * unitsPerCoin := by
  obtain ⟨isPublic, early⟩ := isDrawn
  simp only [ofBlockWithin?, mostCoins, isPublic, early, if_false, Bool.not_false, if_true]
  rfl

/-- What a block may create is what the draw comes to with the words that a node looks at. -/
theorem ofBlock_eq_getD (height : Nat) (params : ChainParams) (previous : Hash) :
    ofBlock height params previous =
      (ofBlockWithin? drawTries height params previous).getD (2 * unitsPerCoin) := by
  simp only [ofBlock, ofBlockWithin?, drawn]
  split
  · rfl
  split
  · split
    · rfl
    · cases UniformDraw.draw? _ _ _ _ <;> rfl
  split <;> rfl

theorem possible_of_ofBlockWithin? {tries : Nat} {amount : Int}
    (granted : ofBlockWithin? tries height params previous = some amount) :
    Possible height params amount := by
  by_cases isDrawn : IsDrawnAt height params
  · rw [ofBlockWithin?_of_drawn isDrawn] at granted
    split at granted
    case isTrue least =>
      cases granted
      exact Possible.drawn isDrawn 1 (Nat.le_refl 1) (Nat.le_max_left 1 _)
    case isFalse several =>
      obtain ⟨coins, drawn, rfl⟩ := Option.map_eq_some_iff.mp granted
      have words : mostCoins height params ≤ 1000000 := by
        rw [mostCoins, Nat.shiftRight_eq_div_pow]
        exact Nat.div_le_self _ _
      obtain ⟨least, within⟩ := UniformDraw.bounds_of_draw? (by omega) drawn
      exact Possible.drawn isDrawn (1 + coins) (by omega) (by omega)
  · rw [ofBlockWithin?_of_fixed isDrawn] at granted
    cases granted
    exact Possible.fixed isDrawn

theorem possible_ofBlock (height : Nat) (params : ChainParams) (previous : Hash) :
    Possible height params (ofBlock height params previous) := by
  rw [ofBlock_eq_getD]
  cases granted : ofBlockWithin? drawTries height params previous with
  | some amount => exact possible_of_ofBlockWithin? granted
  | none =>
    by_cases isDrawn : IsDrawnAt height params
    · rw [ofBlockWithin?_of_drawn isDrawn] at granted
      split at granted
      case isTrue => cases granted
      case isFalse several => exact Possible.drawn isDrawn 2 (by omega) (by omega)
    · rw [ofBlockWithin?_of_fixed isDrawn] at granted
      cases granted

/-! ## The most -/

theorem Possible.nonneg {amount : Int} (possible : Possible height params amount) : 0 ≤ amount := by
  cases possible with
  | fixed isFixed =>
    have granted :
        ofBlockWithin? drawTries height params Digest.zero = some (largest height params) :=
      ofBlockWithin?_of_fixed isFixed drawTries
    have same := ofBlock_eq_getD height params Digest.zero
    rw [granted, Option.getD_some] at same
    rw [← same]
    exact ofBlock_nonneg height params Digest.zero
  | drawn isDrawn coins some within => exact Int.mul_nonneg (Int.natCast_nonneg coins) (by decide)

/-- No amount is more than the most, unless the most is nothing and amounts are drawn. -/
theorem Possible.le_largest_iff {amount : Int} (possible : Possible height params amount) :
    amount ≤ largest height params ↔
      ¬ (IsDrawnAt height params ∧ mostCoins height params = 0) := by
  cases possible with
  | fixed isFixed => exact iff_of_true (Int.le_refl _) fun both => isFixed both.1
  | drawn isDrawn coins some within =>
    have unit : 0 < unitsPerCoin := by decide
    rw [largest_of_drawn isDrawn, mul_le_mul_iff_left₀ unit]
    simp only [isDrawn, true_and]
    omega

theorem mostCoins_eq_zero_iff (height : Nat) (params : ChainParams) :
    mostCoins height params = 0 ↔ 20 ≤ height / params.halvingInterval := by
  have last : 2 ^ 19 ≤ 1000000 := by decide
  have next : 1000000 < 2 ^ 20 := by decide
  rw [mostCoins, Nat.shiftRight_eq_div_pow, Nat.div_eq_zero_iff_lt (Nat.two_pow_pos _)]
  constructor
  · intro none
    have more : 2 ^ 19 < 2 ^ min (height / params.halvingInterval) 31 := last.trans_lt none
    have reached := (Nat.pow_lt_pow_iff_right (by decide)).mp more
    omega
  · intro many
    exact next.trans_le (Nat.pow_le_pow_right (by decide) (by omega))

/-- On no network is the most nothing while amounts are drawn, except behind two million blocks. -/
theorem isDrawnAt_and_mostCoins_iff [Primitives] (network : Network) (digishield height : Nat) :
    (IsDrawnAt height ((ChainParams.ofNetwork network).withDigishield digishield) ∧
        mostCoins height ((ChainParams.ofNetwork network).withDigishield digishield) = 0) ↔
      network ≠ .regtest ∧ height < digishield ∧ 2000000 ≤ height := by
  have early : (ChainParams.isDigishield
      ((ChainParams.ofNetwork network).withDigishield digishield) height = false) ↔
        height < digishield := by
    rw [ChainParams.isDigishield, decide_eq_false_iff_not]
    exact Nat.not_le
  have behind : 20 ≤ height / 100000 ↔ 2000000 ≤ height := by omega
  rw [mostCoins_eq_zero_iff, IsDrawnAt, early]
  cases network with
  | main =>
    have interval : ((ChainParams.ofNetwork .main).withDigishield digishield).halvingInterval
        = 100000 := rfl
    rw [interval, behind]
    exact and_assoc
  | test =>
    have interval : ((ChainParams.ofNetwork .test).withDigishield digishield).halvingInterval
        = 100000 := rfl
    rw [interval, behind]
    exact and_assoc
  | regtest =>
    have network : ((ChainParams.ofNetwork .regtest).withDigishield digishield).network
        = .regtest := rfl
    simp [network]

/-- What a block may create is an amount of at least nothing. With any number of words that a draw
may take, it is at most the most for its height, unless the block comes below the digishield
height and behind two million others. There it is one coin, and the most is nothing. -/
theorem ofBlock_le_largest_iff [Primitives] (network : Network) (digishield height : Nat)
    (previous : Hash) :
    (∀ tries amount,
      ofBlockWithin? tries height ((ChainParams.ofNetwork network).withDigishield digishield)
          previous = some amount →
        0 ≤ amount ∧
          (amount ≤ largest height ((ChainParams.ofNetwork network).withDigishield digishield) ↔
            ¬ (network ≠ .regtest ∧ height < digishield ∧ 2000000 ≤ height))) ∧
      0 ≤ ofBlock height ((ChainParams.ofNetwork network).withDigishield digishield) previous ∧
      (ofBlock height ((ChainParams.ofNetwork network).withDigishield digishield) previous
          ≤ largest height ((ChainParams.ofNetwork network).withDigishield digishield) ↔
        ¬ (network ≠ .regtest ∧ height < digishield ∧ 2000000 ≤ height)) := by
  rw [← isDrawnAt_and_mostCoins_iff network digishield height]
  constructor
  · intro tries amount granted
    have possible := possible_of_ofBlockWithin? granted
    exact ⟨possible.nonneg, possible.le_largest_iff⟩
  · have possible := possible_ofBlock height
      ((ChainParams.ofNetwork network).withDigishield digishield) previous
    exact ⟨possible.nonneg, possible.le_largest_iff⟩

namespace Postponed

local instance : Primitives := Primitives.transparent

/-- The public network, with amounts drawn for ever. -/
def unending : ChainParams :=
  (ChainParams.ofNetwork .main).withDigishield 4294967295

/-- At this height one or two coins are drawn, and each word stands for one of the two. -/
theorem exists_drawn (previous : Hash) :
    ∃ coins : Nat, ofBlockWithin? 1 1800000 unending previous
      = some ((1 + (coins : Int)) * unitsPerCoin) := by
  have isDrawn : IsDrawnAt 1800000 unending := ⟨by decide, by decide⟩
  have most : mostCoins 1800000 unending - 1 = 2 := by decide
  have words (twister : Twister) : twister.outputs 1 = [twister.next.1] := rfl
  have stands (word : UInt32) :
      UniformDraw.result? 1 2 word = some (word.toNat / 0x80000000 + 1) := by
    have half : UniformDraw.bucketSize (2 - 1) = 0x80000000 := by decide
    have range := word.toNat_lt
    rw [UniformDraw.result?, half, if_pos (by omega)]
  refine ⟨(Twister.ofSeed (seed previous)).next.1.toNat / 0x80000000 + 1, ?_⟩
  rw [ofBlockWithin?_of_drawn isDrawn, most, if_neg (by decide), UniformDraw.draw?_eq_findSome?,
    words, List.findSome?_cons, stands]
  rfl

/-- A block for which an amount is drawn, and the last one for which the most is something. -/
theorem ofBlock_le_largest_last :
    (∃ amount, ofBlockWithin? 1 1800000 unending Digest.zero = some amount ∧
      0 ≤ amount ∧ amount ≤ largest 1800000 unending) ∧
    ofBlockWithin? 0 1999999 unending Digest.zero = some 100000000 ∧
      (0 : Int) ≤ 100000000 ∧ 100000000 ≤ largest 1999999 unending := by
  have below {height : Nat} (low : height < 2000000) :
      ¬ (Network.main ≠ .regtest ∧ height < 4294967295 ∧ 2000000 ≤ height) := by
    omega
  constructor
  · obtain ⟨coins, granted⟩ := exists_drawn Digest.zero
    obtain ⟨least, most⟩ :=
      (ofBlock_le_largest_iff .main 4294967295 1800000 Digest.zero).1 1 _ granted
    exact ⟨_, granted, least, most.mpr (below (by decide))⟩
  · have granted : ofBlockWithin? 0 1999999 unending Digest.zero = some 100000000 := by decide
    obtain ⟨least, most⟩ :=
      (ofBlock_le_largest_iff .main 4294967295 1999999 Digest.zero).1 0 100000000 granted
    exact ⟨granted, least, most.mpr (below (by decide))⟩

/-- The block after it may create one coin, and no block at its height may create any. -/
theorem not_le_largest :
    ¬ (0 ≤ ofBlock 2000000 unending Digest.zero ∧
      ofBlock 2000000 unending Digest.zero ≤ largest 2000000 unending) := by
  decide

end Postponed

end Subsidy

end ScryptLedger
