import ScryptLedger.Proofs.Money
import ScryptLedger.Subsidy

/-!
# Shares of a reward

A block may always create something or nothing, never less. A share of a reward is a
hundredth of a word, so that the product behind it may have wrapped around: a share is
never too large, but it is too small or negative where its word did not hold the
product.
-/

namespace ScryptLedger

namespace Subsidy

theorem drawn_nonneg (previous : Hash) (most : Nat) : 0 ≤ drawn previous most :=
  Int.natCast_nonneg _

theorem ofBlock_nonneg (height : Nat) (params : ChainParams) (previous : Hash) :
    0 ≤ ofBlock height params previous := by
  have unit : (0 : Int) ≤ unitsPerCoin := by decide
  simp only [ofBlock]
  split
  · split
    · exact Int.le_refl 0
    · rw [Int.shiftRight_eq_div_pow]
      exact Int.ediv_nonneg (by decide) (Int.natCast_nonneg _)
  split
  · split
    · exact unit
    · have drawn := drawn_nonneg previous
        (1000000 >>> min (height / params.halvingInterval) 31 - 1)
      exact Int.mul_nonneg (by omega) unit
  split
  · rw [Int.shiftRight_eq_div_pow]
    exact Int.ediv_nonneg (by decide) (Int.natCast_nonneg _)
  · decide

/-- A share is a hundredth of a word. -/
theorem share_cases (reward : Int) (ratio : Nat) :
    (0 ≤ Money.wrap (reward * ratio) ∧
        share reward ratio = Money.wrap (reward * ratio) / 100) ∨
      (Money.wrap (reward * ratio) < 0 ∧
        share reward ratio = -(-Money.wrap (reward * ratio) / 100)) := by
  unfold share
  rcases Int.lt_or_le (Money.wrap (reward * ratio)) 0 with negative | positive
  · refine Or.inr ⟨negative, ?_⟩
    calc (Money.wrap (reward * ratio)).tdiv 100
        = -(-Money.wrap (reward * ratio)).tdiv 100 := by rw [Int.neg_tdiv, Int.neg_neg]
      _ = -(-Money.wrap (reward * ratio) / 100) := by
        rw [Int.tdiv_eq_ediv_of_nonneg (by omega)]
  · exact Or.inl ⟨positive, Int.tdiv_eq_ediv_of_nonneg positive⟩

theorem share_bounds (reward : Int) (ratio : Nat) :
    -2 ^ 63 ≤ 100 * share reward ratio ∧ 100 * share reward ratio < 2 ^ 63 := by
  have word := Money.wrap_bounds (reward * ratio)
  have cases := share_cases reward ratio
  omega

/-- A share of a reward is never too large. -/
theorem share_le {reward : Int} (positive : 0 ≤ reward) (ratio : Nat) :
    100 * share reward ratio ≤ reward * ratio := by
  have product : 0 ≤ reward * ratio := Int.mul_nonneg positive (Int.natCast_nonneg ratio)
  have least := Money.wrap_le_self product
  have cases := share_cases reward ratio
  omega

theorem share_nonneg {reward : Int} {ratio : Nat} (positive : 0 ≤ reward)
    (small : reward * ratio < 2 ^ 63) : 0 ≤ share reward ratio := by
  have product : 0 ≤ reward * ratio := Int.mul_nonneg positive (Int.natCast_nonneg ratio)
  have exact : Money.wrap (reward * ratio) = reward * ratio :=
    Money.wrap_eq_self_iff.mpr (by omega)
  have cases := share_cases reward ratio
  omega

section Beyond

-- A reward just beyond the range of a word.
variable {reward : Int} (large : 2 ^ 63 ≤ reward) (close : 50 * reward ≤ 51 * 2 ^ 63)

include large close

end Beyond

end Subsidy

end ScryptLedger
