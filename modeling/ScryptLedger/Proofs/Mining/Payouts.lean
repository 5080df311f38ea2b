import ScryptLedger.Mining.Assembly
import ScryptLedger.Proofs.Subsidy.Share
import ScryptLedger.Proofs.Transaction.Check

/-!
# What a new coinbase pays

The miner gets what is left of a reward when the miner fund and the staking winner
have had their shares, so that a new coinbase always pays what a node insists on, and
in a word its outputs come to the reward. They come to it exactly, and none is
negative, unless the reward itself or the product that a share is taken from leaves its
word and comes back on the negative side.
-/

namespace ScryptLedger

/-- What the networks have in common, as far as new blocks rely on it. -/
structure ChainParams.Mineable (params : ChainParams) : Prop where
  chainId : params.auxpowChainId = ScryptLedger.auxpowChainId
  fundRatio : params.minerFundRatio = 32
  stakingRatio : params.stakingRatio = 25
  fundScript : params.minerFundScript.length ≤ 100
  matures : ∀ height, 0 < params.maturityDepth height

theorem ChainParams.mineable_ofNetwork [Primitives] (network : Network) :
    (ofNetwork network).Mineable := by
  have script : ChainParams.fundScript.length ≤ 100 := by decide
  have deep (params : ChainParams) (some : 0 < params.coinbaseMaturity) (height : Nat) :
      0 < params.maturityDepth height := by
    rw [maturityDepth]
    split
    · decide
    · exact some
  cases network with
  | main => exact ⟨rfl, rfl, rfl, script, deep main (by decide : 0 < 30)⟩
  | test => exact ⟨rfl, rfl, rfl, script, deep test (by decide : 0 < 30)⟩
  | regtest => exact ⟨rfl, rfl, rfl, script, deep regtest (by decide : 0 < 100)⟩

namespace Assembly

/-- What a new coinbase owes out of a reward. -/
def due (rules : Rules) (reward : Int) (winner : Option Bytes) : List (Bytes × Int) :=
  (rules.minerFundDue reward).toList ++ (rules.stakingDue reward winner).toList

/-- The scripts that a new coinbase pays, the miner's first, with their amounts. -/
def amounts (rules : Rules) (reward : Int) (script : Bytes) (winner : Option Bytes) :
    List (Bytes × Int) :=
  (script, Money.wrap (reward - Money.total ((due rules reward winner).map Prod.snd)))
    :: due rules reward winner

/-- Whether nothing that a new coinbase owes out of a reward is negative. -/
def IsFair (rules : Rules) (reward : Int) (winner : Option Bytes) : Prop :=
  ∀ paid ∈ due rules reward winner, 0 ≤ paid.2

variable {rules : Rules} {reward : Int} {script : Bytes} {winner : Option Bytes}

theorem length_due_le : (due rules reward winner).length ≤ 2 := by
  rw [due, List.length_append]
  cases rules.minerFundDue reward <;> cases rules.stakingDue reward winner <;> simp

/-- What is due is a share of the reward, to the miner fund or to the winner. -/
theorem mem_due {paid : Bytes × Int} (owed : paid ∈ due rules reward winner) :
    (paid.1 = rules.params.minerFundScript ∧
        paid.2 = Subsidy.share reward rules.params.minerFundRatio) ∨
      (winner = some paid.1 ∧ paid.2 = Subsidy.share reward rules.params.stakingRatio) := by
  rcases List.mem_append.mp owed with fund | staking
  · rw [Option.mem_toList, Rules.minerFundDue] at fund
    split at fund
    · obtain rfl := Option.some.inj fund
      exact Or.inl ⟨rfl, rfl⟩
    · cases fund
  · rw [Option.mem_toList, Rules.stakingDue] at staking
    split at staking
    · obtain ⟨paid, won, rfl⟩ := Option.map_eq_some_iff.mp staking
      exact Or.inr ⟨won, rfl⟩
    · cases staking

/-- All that is due, in each case. -/
theorem total_due_cases (rules : Rules) (reward : Int) (winner : Option Bytes) :
    Money.total ((due rules reward winner).map Prod.snd) =
      (if rules.config.enableMinerFund then
          Subsidy.share reward rules.params.minerFundRatio else 0)
        + (if rules.config.enableStakingRewards && winner.isSome then
          Subsidy.share reward rules.params.stakingRatio else 0) := by
  rw [due, Rules.minerFundDue, Rules.stakingDue]
  cases rules.config.enableMinerFund <;> cases rules.config.enableStakingRewards <;>
    cases winner <;> simp [Subsidy.fundShare, Subsidy.stakingShare]

theorem total_due_le (mineable : rules.params.Mineable) (positive : 0 ≤ reward) :
    Money.total ((due rules reward winner).map Prod.snd) ≤ reward := by
  have fund := Subsidy.share_le positive rules.params.minerFundRatio
  have staking := Subsidy.share_le positive rules.params.stakingRatio
  rw [mineable.fundRatio] at fund
  rw [mineable.stakingRatio] at staking
  rw [total_due_cases, mineable.fundRatio, mineable.stakingRatio]
  split <;> split <;> omega

/-- Rewards whose products their words hold are shared fairly. -/
theorem isFair_of_lt (mineable : rules.params.Mineable) (positive : 0 ≤ reward)
    (small : reward * 32 < 2 ^ 63) : IsFair rules reward winner := by
  intro paid owed
  rcases mem_due owed with ⟨-, share⟩ | ⟨-, share⟩
  · rw [share, mineable.fundRatio]
    exact Subsidy.share_nonneg positive small
  · rw [share, mineable.stakingRatio]
    exact Subsidy.share_nonneg positive (by omega)

/-! ## The outputs -/

/-- Every amount has its value on the wire. -/
theorem toInt_amount : ∀ paid ∈ amounts rules reward script winner,
    (Int64.ofInt paid.2).toInt = paid.2 := by
  intro paid held
  rw [Money.toInt_ofInt]
  rcases List.mem_cons.mp held with rfl | owed
  · exact Money.wrap_wrap _
  · rcases mem_due owed with ⟨-, share⟩ | ⟨-, share⟩
    · have bounds := Subsidy.share_bounds reward rules.params.minerFundRatio
      exact Money.wrap_eq_self_iff.mpr (by omega)
    · have bounds := Subsidy.share_bounds reward rules.params.stakingRatio
      exact Money.wrap_eq_self_iff.mpr (by omega)

theorem payouts_eq (rules : Rules) (reward : Int) (script : Bytes) (winner : Option Bytes) :
    payouts rules reward script winner =
      (amounts rules reward script winner).map fun paid => ⟨Int64.ofInt paid.2, paid.1⟩ := by
  have rest : Int64.ofInt (((due rules reward winner).map Prod.snd).foldl
        (fun rest amount => Money.wrap (rest - amount)) reward)
      = Int64.ofInt
        (Money.wrap (reward - Money.total ((due rules reward winner).map Prod.snd))) := by
    rw [← Int64.toInt_inj, Money.toInt_ofInt, Money.toInt_ofInt, Money.wrap_foldl_sub,
      Money.wrap_wrap]
  rw [amounts, List.map_cons, ← rest]
  rfl

theorem forall_mem_payouts (property : Int → Prop) :
    (∀ output ∈ payouts rules reward script winner, property output.value.toInt) ↔
      ∀ paid ∈ amounts rules reward script winner, property paid.2 := by
  rw [payouts_eq, List.forall_mem_map]
  refine forall_congr' fun paid => forall_congr' fun held => ?_
  dsimp only
  rw [toInt_amount paid held]

theorem total_payouts : TxOutput.total (payouts rules reward script winner) =
    Money.total ((amounts rules reward script winner).map Prod.snd) := by
  rw [TxOutput.total, payouts_eq, List.map_map]
  exact congrArg Money.total (List.map_congr_left toInt_amount)

/-- In a word, a new coinbase pays out the whole reward. -/
theorem wrap_total_payouts :
    Money.wrap (TxOutput.total (payouts rules reward script winner)) = Money.wrap reward := by
  rw [total_payouts, amounts, List.map_cons, Money.total_cons, Money.wrap_wrap_add,
    Int.sub_add_cancel]

theorem pays_of_mem_due {coinbase : Transaction}
    (outputs : coinbase.outputs = payouts rules reward script winner) {paid : Bytes × Int}
    (owed : paid ∈ due rules reward winner) : Rules.isPaid coinbase (some paid) = true := by
  have listed : paid ∈ amounts rules reward script winner := List.mem_cons_of_mem _ owed
  refine List.any_eq_true.mpr ⟨⟨Int64.ofInt paid.2, paid.1⟩, ?_, ?_⟩
  · rw [outputs, payouts_eq]
    exact List.mem_map_of_mem listed
  · simp [toInt_amount paid listed]

/-- A new coinbase pays what the node insists on. -/
theorem checkPayouts_payouts {coinbase : Transaction}
    (outputs : coinbase.outputs = payouts rules reward script winner) (height : Nat) :
    rules.checkPayouts coinbase reward height winner = .ok () := by
  have fund : Rules.isPaid coinbase (rules.minerFundDue reward) = true := by
    cases owed : rules.minerFundDue reward with
    | none => rfl
    | some paid =>
      refine pays_of_mem_due outputs ?_
      rw [due, owed]
      exact List.mem_append_left _ (List.mem_singleton_self paid)
  have staking : Rules.isPaid coinbase (rules.stakingDue reward winner) = true := by
    cases owed : rules.stakingDue reward winner with
    | none => rfl
    | some paid =>
      refine pays_of_mem_due outputs ?_
      rw [due, owed]
      exact List.mem_append_right _ (List.mem_singleton_self paid)
  simp only [Rules.checkPayouts, fund, staking, Bool.not_true, Bool.false_eq_true, if_false,
    ite_self, pure, Except.pure]

/-- Where nothing that is due is negative, a reward is paid out exactly. -/
theorem exact_of_isFair (mineable : rules.params.Mineable) (positive : 0 ≤ reward)
    (bounded : reward < 2 ^ 63) (fair : IsFair rules reward winner) :
    (∀ paid ∈ amounts rules reward script winner, 0 ≤ paid.2) ∧
      Money.total ((amounts rules reward script winner).map Prod.snd) = reward := by
  have least := (Money.le_total (List.forall_mem_map.mpr fair)).1
  have most : Money.total ((due rules reward winner).map Prod.snd) ≤ reward :=
    total_due_le mineable positive
  have rest : Money.wrap (reward - Money.total ((due rules reward winner).map Prod.snd))
      = reward - Money.total ((due rules reward winner).map Prod.snd) :=
    Money.wrap_eq_self_iff.mpr (by omega)
  constructor
  · refine List.forall_mem_cons.mpr ⟨?_, fair⟩
    dsimp only
    omega
  · rw [amounts, List.map_cons, Money.total_cons]
    omega

/-- No output of a new coinbase is more than all money, unless the reward is. -/
theorem ranged_payouts (mineable : rules.params.Mineable) (ranged : inMoneyRange reward = true)
    (fair : IsFair rules reward winner) :
    ∀ output ∈ payouts rules reward script winner, inMoneyRange output.value.toInt = true := by
  obtain ⟨least, most⟩ := inMoneyRange_iff.mp ranged
  have wide : maxMoney < 2 ^ 63 := by decide
  refine (forall_mem_payouts fun amount => inMoneyRange amount = true).mpr fun paid held => ?_
  obtain ⟨positive, exact⟩ := exact_of_isFair mineable least (by omega) fair
  have bound := (Money.le_total (List.forall_mem_map.mpr positive)).2 paid.2
    (List.mem_map_of_mem held)
  rw [exact] at bound
  exact inMoneyRange_iff.mpr ⟨positive paid held, by omega⟩

theorem length_payouts_le : (payouts rules reward script winner).length ≤ 3 := by
  have few : (due rules reward winner).length ≤ 2 := length_due_le
  rw [payouts_eq, List.length_map, amounts, List.length_cons]
  omega

theorem short_payouts (payout : script.length ≤ 100)
    (fund : rules.params.minerFundScript.length ≤ 100)
    (staker : ∀ paid, winner = some paid → paid.length ≤ 100) :
    ∀ output ∈ payouts rules reward script winner, output.scriptPubKey.length ≤ 100 := by
  rw [payouts_eq]
  refine List.forall_mem_map.mpr (List.forall_mem_cons.mpr ⟨payout, fun paid owed => ?_⟩)
  rcases mem_due owed with ⟨same, -⟩ | ⟨won, -⟩
  · rw [same]
    exact fund
  · exact staker paid.1 won

end Assembly

end ScryptLedger
