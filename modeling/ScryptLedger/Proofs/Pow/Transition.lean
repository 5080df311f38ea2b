import ScryptLedger.Pow.Retarget
import ScryptLedger.Primitives.Transparent
import ScryptLedger.Proofs.Outcome
import ScryptLedger.Proofs.Pow.Compact

/-!
# The next target is a permitted one

The target of a block is found from the times of the headers before it, and a
change of target is judged without any times. The two agree: however long a
round took, it counts as a time between the shortest and the longest one, and
scaling, the limit and rounding keep that order.
-/

namespace ScryptLedger.Retarget

variable {params : ChainParams}

theorem allowMinDifficulty_rulesAt (params : ChainParams) (height : Nat) :
    (rulesAt params height).allowMinDifficulty = params.allowsMinDifficulty height := rfl

/-- Both rules count a round by the same number of blocks. -/
theorem interval_rulesAt (params : ChainParams) (height : Nat) :
    (if (rulesAt params height).digishield then 1
      else params.targetTimespan height / params.targetSpacing)
      = params.retargetInterval height := rfl

theorem least_le_most (params : ChainParams) (height : Nat) :
    (rulesAt params height).least ≤ (rulesAt params height).most := by
  simp only [rulesAt]
  split
  · dsimp only
    omega
  split
  · dsimp only
    omega
  split <;> (dsimp only; omega)

theorem countedTime_mem (rules : RetargetRules) (ordered : rules.least ≤ rules.most)
    (actual : Int) :
    rules.least ≤ (countedTime rules actual).toNat ∧
      (countedTime rules actual).toNat ≤ rules.most := by
  simp only [countedTime]
  generalize (if rules.digishield then _ else _ : Int) = damped
  omega

theorem scale_le_max (params : ChainParams) (rules : RetargetRules) (target time : Nat) :
    scale params rules target time ≤ Target.max :=
  (Nat.min_le_left _ _).trans ((Nat.div_le_self _ _).trans (Nat.min_le_right _ _))

theorem scale_le_powLimit (params : ChainParams) (rules : RetargetRules) (target time : Nat) :
    scale params rules target time ≤ params.powLimit :=
  Nat.min_le_right _ _

/-- A longer round gives a target that is no harder. -/
theorem scale_mono (params : ChainParams) (rules : RetargetRules) (target : Nat) {short long : Nat}
    (ordered : short ≤ long) :
    scale params rules target short ≤ scale params rules target long := by
  have product : target * short ≤ target * long := Nat.mul_le_mul_left target ordered
  have capped : min (target * short) Target.max ≤ min (target * long) Target.max := by omega
  have quotient := Nat.div_le_div_right (c := rules.target) capped
  simp only [scale]
  omega

/-- How the target of the next block comes about where no rule for tests sets it: it stays, or a
round ends and scales it. -/
theorem next_cases {chain : List HeaderInfo} {parent : HeaderInfo} {time : Int} {bits : UInt32}
    (latest : chain.getLast? = some parent) (known : next chain time params = .ok bits) :
    bits = parent.bits ∨ params.allowsMinDifficulty parent.height = true ∨
      (parent.height + 1) % params.retargetInterval parent.height = 0 ∧
      ∃ actual, bits = Target.toCompact (scale params (rulesAt params parent.height)
        (Target.ofCompact parent.bits).target
        (countedTime (rulesAt params parent.height) actual).toNat) := by
  obtain ⟨earlier, shape⟩ : ∃ earlier, chain.reverse = parent :: earlier := by
    obtain ⟨before, rfl⟩ := List.getLast?_eq_some_iff.mp latest
    exact ⟨before.reverse, by simp⟩
  simp only [next, shape] at known
  by_cases fixed : params.noRetargeting = true
  · rw [if_pos fixed] at known
    exact Or.inl (Outcome.pure_eq_ok_iff.mp known).symm
  rw [if_neg fixed] at known
  by_cases allowed : params.allowsMinDifficulty parent.height = true
  · exact Or.inr (Or.inl allowed)
  simp only [allowMinDifficulty_rulesAt, interval_rulesAt, allowed, Bool.false_and,
    Bool.false_eq_true, if_false] at known
  by_cases ends : (parent.height + 1) % params.retargetInterval parent.height = 0
  · rw [if_neg (by simp [ends])] at known
    obtain ⟨-, known⟩ := Outcome.refuse_eq_ok_iff.mp known
    obtain ⟨first, -, known⟩ := Outcome.bind_eq_ok_iff.mp known
    exact Or.inr (Or.inr ⟨ends, _, (Outcome.pure_eq_ok_iff.mp known).symm⟩)
  · rw [if_pos (by simp [ends])] at known
    exact Or.inl (Outcome.pure_eq_ok_iff.mp known).symm

/-- A target that scaling by some counted time gives is a permitted one, unless it is rounded to
zero. -/
theorem isPermitted_of_counted {height time : Nat} {old : UInt32}
    (ends : (height + 1) % params.retargetInterval height = 0)
    (least : (rulesAt params height).least ≤ time) (most : time ≤ (rulesAt params height).most)
    (nonzero : Target.rounded
      (scale params (rulesAt params height) (Target.ofCompact old).target time) ≠ 0) :
    isPermitted params (height + 1) old (Target.toCompact
      (scale params (rulesAt params height) (Target.ofCompact old).target time)) = true := by
  have observed := Target.derive?_toCompact (scale_le_max ..) (scale_le_powLimit ..) nonzero
  have above := Target.rounded_mono
    (scale_mono params (rulesAt params height) (Target.ofCompact old).target least)
    (scale_le_max ..)
  have below := Target.rounded_mono
    (scale_mono params (rulesAt params height) (Target.ofCompact old).target most)
    (scale_le_max ..)
  simp only [Target.rounded] at observed above below
  simp only [isPermitted, Nat.add_sub_cancel, ends, observed]
  simp [above, below]

/-- Whatever the times of the headers, the next target is a permitted one. -/
theorem isPermitted_next {chain : List HeaderInfo} {parent : HeaderInfo} {time : Int}
    {bits : UInt32} (latest : chain.getLast? = some parent)
    (known : next chain time params = .ok bits) (nonzero : (Target.ofCompact bits).target ≠ 0) :
    isPermitted params (parent.height + 1) parent.bits bits = true := by
  rcases next_cases latest known with rfl | allowed | ⟨ends, actual, rfl⟩
  · simp [isPermitted]
  · simp [isPermitted, allowMinDifficulty_rulesAt, allowed]
  · obtain ⟨least, most⟩ := countedTime_mem (rulesAt params parent.height)
      (least_le_most params parent.height) actual
    exact isPermitted_of_counted ends least most nonzero

namespace Stretched

local instance : Primitives := Primitives.transparent

/-- Two headers, ten minutes apart where a minute is aimed at. -/
def headers : List HeaderInfo := [⟨200000, 1000, 0x1b0404cb⟩, ⟨200001, 1600, 0x1b0404cb⟩]

/-- The round counts as a minute and a half, and the last bit of the target is lost. -/
theorem isPermitted_stretched :
    headers.getLast? = some ⟨200001, 1600, 0x1b0404cb⟩ ∧
      next headers 1700 ChainParams.main = .ok 0x1b060730 ∧
      (Target.ofCompact 0x1b060730).target ≠ 0 ∧
      isPermitted ChainParams.main 200002 0x1b0404cb 0x1b060730 = true := by
  have latest : headers.getLast? = some ⟨200001, 1600, 0x1b0404cb⟩ := rfl
  have known : next headers 1700 ChainParams.main = .ok 0x1b060730 := rfl
  have nonzero : (Target.ofCompact 0x1b060730).target ≠ 0 := by decide
  exact ⟨latest, known, nonzero, isPermitted_next latest known nonzero⟩

end Stretched

end ScryptLedger.Retarget
