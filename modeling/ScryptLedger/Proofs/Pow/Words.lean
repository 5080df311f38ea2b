import Mathlib.Data.List.Induction
import ScryptLedger.Proofs.Pow.Transition
import ScryptLedger.Proofs.Script.Positional.Attempt

/-!
# Difficulty in words

A machine computes heights and times in signed words of 64 bits and looks headers
up by their indices. Where a sum leaves its word, a divisor is zero or an index
lies outside, it cannot go on. With heights and times of 32 bits and the spacing
of any network none of this happens, and the answer is the one that difficulty is
defined by.
-/

namespace ScryptLedger

/-- Whether the height and the time of a header are unsigned numbers of 32 bits. -/
def HeaderInfo.FitsWords (header : HeaderInfo) : Prop :=
  header.height < 2 ^ 32 ∧ 0 ≤ header.time ∧ header.time < 2 ^ 32

namespace Retarget.Words

open Attempt

/-! ## The computation -/

/-- The lower 64 bits of a number, as an unsigned word. -/
def unsignedWord (n : Int) : Nat := (n % 2 ^ 64).toNat

/-- A number moved into a range, which must not be empty. -/
def clamp (least most n : Int) : Attempt Int :=
  if least ≤ most then return max least (min n most) else fault .outOfRange

/-- A quotient of unsigned numbers. -/
def ratio (a b : Nat) : Attempt Nat :=
  if b = 0 then fault .divisionByZero else return a / b

/-- Whether a block comes more than two spacings after its parent. -/
def isLate (parent : HeaderInfo) (time : Int) (params : ChainParams) : Attempt Bool := do
  let pause ← int64 (params.targetSpacing * 2)
  return (← int64 (parent.time + pause)) < time

/-- Walks back from an index through easiest targets, up to the start of the round or to the first
header there is. -/
def hardBitsFrom (chain : List HeaderInfo) (limitBits : UInt32) (round : Int) :
    Nat → Attempt UInt32
  | 0 => do return (← item chain 0).bits
  | index + 1 => do
    let header ← item chain (index + 1)
    if ← pure (decide (0 < round)) <&&> (do return (← remainder header.height round) == 0) then
      return header.bits
    else if header.bits != limitBits then return header.bits
    else hardBitsFrom chain limitBits round index

/-- The time a round counts as. -/
def countedTime (rules : RetargetRules) (actual : Int) : Attempt Int := do
  let damped ←
    if rules.digishield then do
      let deviation ← int64 (actual - rules.target)
      int64 (rules.target + (← quotient deviation 8))
    else pure actual
  clamp rules.least rules.most damped

/-- A target scaled by the time a round counts as, within the limit. -/
def scale (params : ChainParams) (rules : RetargetRules) (target : Nat) (counted : Int) :
    Attempt Nat := do
  let product := min (target * unsignedWord counted) Target.max
  let scaled ← ratio product (unsignedWord rules.target)
  if params.powLimit < scaled then return params.powLimit else return scaled

/-- The number of blocks that a round is looked back. The first round lacks the genesis block. -/
def blocksBack (height interval : Int) : Attempt Int :=
  if height = interval then int64 (interval - 1) else return interval

/-- The compact target after a round that started a number of blocks back. -/
def afterRound (chain : List HeaderInfo) (parent : HeaderInfo) (back : Int)
    (params : ChainParams) : Attempt (Except RetargetError UInt32) := do
  let start ← int64 (parent.height - back)
  if start < 0 then return .error (.windowBelowGenesis start)
  else
    match headerAt chain (start % 2 ^ 32).toNat with
    | .error cause => return .error cause
    | .ok first => do
      let rules := rulesAt params parent.height
      let actual ← int64 (parent.time - first.time)
      let counted ← countedTime rules actual
      return .ok (Target.toCompact
        (← scale params rules (Target.ofCompact parent.bits).target counted))

/-- The compact target of the block after `chain`. -/
def next (chain : List HeaderInfo) (time : Int) (params : ChainParams) :
    Attempt (Except RetargetError UInt32) :=
  match chain.getLast? with
  | none => return .error .noParent
  | some parent =>
    if params.noRetargeting then return .ok parent.bits
    else do
      let limitBits := Target.toCompact params.powLimit
      let rules := rulesAt params parent.height
      if ← pure rules.allowMinDifficulty <&&> isLate parent time params then
        return .ok limitBits
      else do
        let round ← quotient (params.targetTimespan parent.height) params.targetSpacing
        let interval := if rules.digishield then 1 else round
        let height ← int64 (parent.height + 1)
        if (← remainder height interval) ≠ 0 then
          if rules.allowMinDifficulty then do
            return .ok (← hardBitsFrom chain limitBits round (← minus chain.length 1))
          else return .ok parent.bits
        else do
          let back ← blocksBack height interval
          afterRound chain parent back params

/-! ## Its steps -/

section Steps

variable {params : ChainParams}

theorem unsignedWord_of_nonneg {n : Int} (least : 0 ≤ n) (most : n < 2 ^ 63) :
    unsignedWord n = n.toNat := by
  rw [unsignedWord]
  omega

theorem ratio_eq {a b : Nat} (nonzero : b ≠ 0) : ratio a b = pure (a / b) :=
  if_neg nonzero

theorem clamp_eq {least most n : Int} (nonempty : least ≤ most) :
    clamp least most n = pure (max least (min n most)) :=
  if_pos nonempty

theorem quotient_natCast {a b : Nat} (positive : 0 < b) (small : a < 2 ^ 63) :
    quotient a b = pure ((a / b : Nat) : Int) := by
  have below : ((a / b : Nat) : Int).natAbs < 2 ^ 63 := by
    rw [Int.natAbs_natCast]
    exact (Nat.div_le_self a b).trans_lt small
  rw [quotient, if_neg (by omega), ← Int.ofNat_tdiv, int64_eq below]

theorem remainder_natCast {a b : Nat} (positive : 0 < b) (small : a < 2 ^ 63) :
    remainder a b = pure ((a % b : Nat) : Int) := by
  rw [remainder, quotient_natCast positive small, ← Int.ofNat_tmod]
  rfl

theorem isLate_eq {parent : HeaderInfo} (fits : parent.FitsWords) (time : Int)
    (spacing : params.targetSpacing ≤ 4 * 60 * 60) :
    isLate parent time params
      = pure (decide (parent.time + params.targetSpacing * 2 < time)) := by
  obtain ⟨-, least, most⟩ := fits
  rw [isLate, int64_eq (by omega), pure_bind, int64_eq (by omega)]
  rfl

theorem allowed_eq {parent : HeaderInfo} (fits : parent.FitsWords) (time : Int) (allow : Bool)
    (spacing : params.targetSpacing ≤ 4 * 60 * 60) :
    (pure allow <&&> isLate parent time params : Attempt Bool)
      = pure (allow && decide (parent.time + params.targetSpacing * 2 < time)) := by
  rw [isLate_eq fits time spacing]
  cases allow <;> rfl

/-- Whether a round starts at a header is found without dividing by a round of length zero. -/
theorem startsRound_eq {header : HeaderInfo} (fits : header.FitsWords) (round : Nat) :
    (pure (decide (0 < (round : Int))) <&&> (do
        return (← remainder header.height round) == 0) : Attempt Bool)
      = pure (decide (0 < round) && header.height % round == 0) := by
  have small : header.height < 2 ^ 63 := fits.1.trans (by decide)
  by_cases positive : 0 < round
  · have nonzero : decide (0 < (round : Int)) = true := decide_eq_true (by omega)
    have same : (((header.height % round : Nat) : Int) == 0) = (header.height % round == 0) := by
      rw [Bool.eq_iff_iff, beq_iff_eq, beq_iff_eq]
      exact Int.natCast_eq_zero
    rw [nonzero, decide_eq_true positive, remainder_natCast positive small]
    exact congrArg (pure : Bool → Attempt Bool) same
  · have zero : decide (0 < (round : Int)) = false := decide_eq_false (by omega)
    rw [zero, decide_eq_false positive]
    rfl

/-- Walking back by index is walking through the headers latest first. -/
theorem hardBitsFrom_eq {before : List HeaderInfo} {latest : HeaderInfo}
    {after : List HeaderInfo} {limitBits : UInt32} {round : Nat}
    (fits : ∀ header ∈ before ++ latest :: after, header.FitsWords) :
    hardBitsFrom (before ++ latest :: after) limitBits round before.length
      = pure (lastHardBits limitBits round latest before.reverse) := by
  induction before using List.reverseRecOn generalizing latest after with
  | nil => rfl
  | append_singleton front previous ih =>
    have found : item (front ++ [previous] ++ latest :: after) (front.length + 1) = pure latest :=
      item_eq (by simp)
    have starts := startsRound_eq (fits latest (by simp)) round
    have walked : hardBitsFrom (front ++ previous :: latest :: after) limitBits round front.length
        = pure (lastHardBits limitBits round previous front.reverse) :=
      ih (by simpa using fits)
    rw [List.append_assoc, List.singleton_append] at found ⊢
    rw [List.length_append, List.length_singleton, hardBitsFrom, found, pure_bind, starts,
      pure_bind, walked, List.reverse_append, List.reverse_singleton, List.singleton_append,
      lastHardBits]
    cases decide (0 < round) && latest.height % round == 0 with
    | true => rfl
    | false => cases latest.bits != limitBits <;> rfl

theorem target_rulesAt (params : ChainParams) (height : Nat) :
    0 < (rulesAt params height).target ∧ (rulesAt params height).target ≤ 4 * 60 * 60 := by
  have target : (rulesAt params height).target = params.targetTimespan height := rfl
  rw [target, ChainParams.targetTimespan]
  split <;> decide

theorem most_rulesAt_lt (params : ChainParams) (height : Nat) :
    (rulesAt params height).most < 2 ^ 32 := by
  have timespan : params.targetTimespan height ≤ 4 * 60 * 60 := (target_rulesAt params height).2
  simp only [rulesAt]
  split
  · dsimp only
    omega
  split
  · dsimp only
    omega
  split <;> (dsimp only; omega)

theorem countedTime_eq (params : ChainParams) (height : Nat) {actual : Int}
    (small : actual.natAbs < 2 ^ 32) :
    countedTime (rulesAt params height) actual
      = pure (Retarget.countedTime (rulesAt params height) actual) := by
  have ordered := least_le_most params height
  have target := (target_rulesAt params height).2
  generalize rulesAt params height = rules at ordered target
  have nonempty : (rules.least : Int) ≤ rules.most := Int.ofNat_le.mpr ordered
  have eighth : ((actual - rules.target).tdiv 8).natAbs ≤ (actual - rules.target).natAbs := by
    rw [Int.natAbs_tdiv]
    exact Nat.div_le_self _ _
  have divided : quotient (actual - rules.target) 8 = pure ((actual - rules.target).tdiv 8) := by
    rw [quotient, if_neg (by decide), int64_eq (by omega)]
  rw [countedTime, Retarget.countedTime]
  cases rules.digishield with
  | true =>
    rw [if_pos rfl, if_pos rfl, int64_eq (by omega), pure_bind, divided, pure_bind,
      int64_eq (by omega), pure_bind]
    exact clamp_eq nonempty
  | false =>
    rw [if_neg Bool.false_ne_true, if_neg Bool.false_ne_true, pure_bind]
    exact clamp_eq nonempty

/-- The time a round counts as is not negative and fits a word. -/
theorem countedTime_bounds (params : ChainParams) (height : Nat) (actual : Int) :
    0 ≤ Retarget.countedTime (rulesAt params height) actual ∧
      Retarget.countedTime (rulesAt params height) actual < 2 ^ 63 := by
  have ordered := least_le_most params height
  have most := most_rulesAt_lt params height
  generalize rulesAt params height = rules at ordered most
  rw [Retarget.countedTime]
  generalize (if rules.digishield then _ else _ : Int) = damped
  omega

theorem scale_eq (params : ChainParams) (height target : Nat) {counted : Int}
    (least : 0 ≤ counted) (most : counted < 2 ^ 63) :
    scale params (rulesAt params height) target counted
      = pure (Retarget.scale params (rulesAt params height) target counted.toNat) := by
  obtain ⟨positive, short⟩ := target_rulesAt params height
  generalize rulesAt params height = rules at positive short
  have time : unsignedWord counted = counted.toNat := unsignedWord_of_nonneg least most
  have divisor : unsignedWord rules.target = rules.target :=
    unsignedWord_of_nonneg (by omega) (by omega)
  rw [scale, Retarget.scale, time, divisor, ratio_eq (by omega), pure_bind]
  generalize min (target * counted.toNat) Target.max / rules.target = scaled
  by_cases above : params.powLimit < scaled
  · rw [if_pos above, Nat.min_eq_right above.le]
  · rw [if_neg above, Nat.min_eq_left (Nat.not_lt.mp above)]

theorem mem_of_headerAt {chain : List HeaderInfo} {height : Nat} {header : HeaderInfo}
    (found : headerAt chain height = .ok header) : header ∈ chain := by
  obtain ⟨-, found⟩ := Outcome.refuse_eq_ok_iff.mp found
  split at found
  case h_1 other here =>
    cases Outcome.pure_eq_ok_iff.mp found
    exact List.mem_of_getElem? here
  case h_2 => exact absurd found Outcome.throw_ne_ok

theorem blocksBack_eq {height interval : Nat} (positive : 0 < interval)
    (small : interval < 2 ^ 63) :
    blocksBack height interval
      = pure ((if height = interval then interval - 1 else interval : Nat) : Int) := by
  rw [blocksBack]
  by_cases first : height = interval
  · have cast : (interval : Int) - 1 = ((interval - 1 : Nat) : Int) := by omega
    rw [if_pos (by omega), if_pos first, cast, int64_eq (by omega)]
  · rw [if_neg (by omega), if_neg first]

theorem afterRound_eq {chain : List HeaderInfo} {parent : HeaderInfo} {back : Nat}
    (fits : ∀ header ∈ chain, header.FitsWords) (word : parent.FitsWords)
    (small : back < 2 ^ 32) :
    afterRound chain parent back params = pure (
      if parent.height < back then throw (.windowBelowGenesis (parent.height - back))
      else do
        let first ← headerAt chain (parent.height - back)
        let counted := Retarget.countedTime (rulesAt params parent.height)
          (parent.time - first.time)
        return Target.toCompact (Retarget.scale params (rulesAt params parent.height)
          (Target.ofCompact parent.bits).target counted.toNat)) := by
  obtain ⟨height, least, most⟩ := word
  rw [afterRound, int64_eq (by omega), pure_bind]
  by_cases below : parent.height < back
  · rw [if_pos (by omega), if_pos below]
    rfl
  have start : (((parent.height : Int) - back) % 2 ^ 32).toNat = parent.height - back := by omega
  rw [if_neg (by omega), if_neg below, start]
  cases found : headerAt chain (parent.height - back) with
  | error cause => rfl
  | ok first =>
    obtain ⟨-, least', most'⟩ := fits first (mem_of_headerAt found)
    have elapsed : (parent.time - first.time).natAbs < 2 ^ 32 := by omega
    have ⟨least, most⟩ := countedTime_bounds params parent.height (parent.time - first.time)
    dsimp only
    rw [int64_eq (by omega), pure_bind, countedTime_eq params parent.height elapsed, pure_bind,
      scale_eq params parent.height _ least most]
    rfl

end Steps

/-! ## The answer -/

theorem retargetInterval_pos {params : ChainParams} (positive : 0 < params.targetSpacing)
    (spacing : params.targetSpacing ≤ 4 * 60 * 60) (height : Nat) :
    0 < params.retargetInterval height := by
  rw [ChainParams.retargetInterval]
  by_cases single : params.isDigishield height = true
  · rw [if_pos single]
    decide
  · rw [if_neg single, ChainParams.targetTimespan, if_neg single]
    exact Nat.div_pos spacing positive

theorem retargetInterval_lt (params : ChainParams) (height : Nat) :
    params.retargetInterval height < 2 ^ 32 := by
  have timespan := (target_rulesAt params height).2
  have quotient := Nat.div_le_self (params.targetTimespan height) params.targetSpacing
  rw [ChainParams.retargetInterval]
  change params.targetTimespan height ≤ 4 * 60 * 60 at timespan
  split <;> omega

theorem wordInterval_eq (params : ChainParams) (height : Nat) :
    (if (rulesAt params height).digishield then (1 : Int)
      else ((params.targetTimespan height / params.targetSpacing : Nat) : Int))
      = (params.retargetInterval height : Nat) := by
  rw [← interval_rulesAt]
  split <;> rfl

/-- Nothing is divided by zero, no sum leaves its word and no index lies outside. -/
theorem next_eq {params : ChainParams} (positive : 0 < params.targetSpacing)
    (spacing : params.targetSpacing ≤ 4 * 60 * 60) {chain : List HeaderInfo}
    (fits : ∀ header ∈ chain, header.FitsWords) (time : Int) :
    next chain time params = pure (Retarget.next chain time params) := by
  rcases chain.eq_nil_or_concat' with rfl | ⟨before, parent, rfl⟩
  · rfl
  have word : parent.FitsWords := fits parent (by simp)
  have timespan : params.targetTimespan parent.height < 2 ^ 63 :=
    (target_rulesAt params parent.height).2.trans_lt (by decide)
  have shape : (before ++ [parent]).reverse = parent :: before.reverse := by simp
  have last : minus (before ++ [parent]).length 1 = pure before.length :=
    (minus_eq (by simp)).trans (by simp)
  have interval_pos := retargetInterval_pos positive spacing parent.height
  rw [next, List.getLast?_concat, Retarget.next, shape]
  dsimp only
  by_cases fixed : params.noRetargeting = true
  · rw [if_pos fixed, if_pos fixed]
    rfl
  rw [if_neg fixed, if_neg fixed, allowed_eq word time _ spacing, pure_bind]
  by_cases easy : ((rulesAt params parent.height).allowMinDifficulty
      && decide (parent.time + params.targetSpacing * 2 < time)) = true
  · rw [if_pos easy, if_pos easy]
    rfl
  have interval_lt := retargetInterval_lt params parent.height
  have following : int64 ((parent.height : Int) + 1) = pure ((parent.height + 1 : Nat) : Int) := by
    have height := word.1
    rw [int64_eq (by omega)]
    rfl
  have round_eq := interval_rulesAt params parent.height
  rw [if_neg easy, if_neg easy, quotient_natCast positive timespan, pure_bind]
  simp only [wordInterval_eq, following, pure_bind]
  generalize (if (rulesAt params parent.height).digishield then 1
    else params.targetTimespan parent.height / params.targetSpacing) = rounds at round_eq ⊢
  subst round_eq
  generalize params.retargetInterval parent.height = interval at *
  rw [remainder_natCast interval_pos (by have height := word.1; omega), pure_bind]
  by_cases ends : (parent.height + 1) % interval = 0
  · rw [if_neg (by simp [ends]), if_neg (by simp [ends]), blocksBack_eq interval_pos (by omega),
      pure_bind, afterRound_eq fits word (by split <;> omega)]
  · have inside : (((parent.height + 1) % interval : Nat) : Int) ≠ 0 := by omega
    have inside' : ((parent.height + 1) % interval != 0) = true := bne_iff_ne.mpr ends
    rw [if_pos inside, if_pos inside']
    by_cases allow : (rulesAt params parent.height).allowMinDifficulty = true
    · rw [if_pos allow, if_pos allow, last, pure_bind, hardBitsFrom_eq fits]
      rfl
    · rw [if_neg allow, if_neg allow]
      rfl

end Retarget.Words

end ScryptLedger
