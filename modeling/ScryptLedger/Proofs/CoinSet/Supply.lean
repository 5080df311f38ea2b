import Mathlib.Algebra.Order.BigOperators.Group.Finset
import ScryptLedger.Proofs.CoinSet.Lookup
import ScryptLedger.Proofs.Transaction.Inputs

/-!
# What a coin set is worth

The supply of a coin set is the exact sum of its coins. It may be computed over
any outpoints that include those of the coins, whence its laws: a coin that is
removed leaves with its amount, and a coin that is added brings its amount, less
what it overwrites. Where no amount is negative, overwriting can only lower the
supply, and so can leaving coins out.
-/

namespace ScryptLedger.CoinSet

open CoinView

/-- The exact sum of the amounts of all coins. -/
def supply (coins : CoinSet) : Int :=
  Money.total (coins.toList.map fun entry => entry.2.value.toInt)

theorem mem_keys_iff {coins : CoinSet} {outpoint : OutPoint} :
    outpoint ∈ coins.keys ↔ coins.view outpoint ≠ none := by
  rw [Std.ExtTreeMap.mem_keys, Std.ExtTreeMap.mem_iff_isSome_getElem?, Option.isSome_iff_ne_none,
    view]

theorem supply_eq_total_keys (coins : CoinSet) : coins.supply = coins.view.total coins.keys := by
  rw [supply, total, ← Std.ExtTreeMap.map_fst_toList_eq_keys, List.map_map]
  refine congrArg Money.total (List.map_congr_left fun entry held => ?_)
  exact (value_of_some (mem_toList_iff.mp held)).symm

/-- The supply may be computed over any outpoints that include those of the coins. -/
theorem supply_eq_sum {coins : CoinSet} {outpoints : Finset OutPoint}
    (all : coins.keys.toFinset ⊆ outpoints) :
    coins.supply = ∑ outpoint ∈ outpoints, coins.view.value outpoint := by
  have keys : coins.supply = ∑ outpoint ∈ coins.keys.toFinset, coins.view.value outpoint := by
    rw [supply_eq_total_keys, List.sum_toFinset _ Std.ExtTreeMap.nodup_keys, total,
      Money.total_eq_sum]
  rw [keys]
  refine Finset.sum_subset all fun outpoint _ unlisted => value_of_none ?_
  by_contra held
  exact unlisted (List.mem_toFinset.mpr (mem_keys_iff.mpr held))

theorem value_insert (coins : CoinSet) (spent outpoint : OutPoint) (coin : Coin) :
    CoinView.value (CoinSet.view (coins.insert spent coin)) outpoint =
      if outpoint = spent then coin.value.toInt else coins.view.value outpoint := by
  rw [value, view_insert]
  split
  · rfl
  · rfl

theorem value_erase (coins : CoinSet) (spent outpoint : OutPoint) :
    CoinView.value (CoinSet.view (coins.erase spent)) outpoint =
      if outpoint = spent then 0 else coins.view.value outpoint := by
  rw [value, view_erase]
  split
  · rfl
  · rfl

/-- Two sets that agree but for one outpoint differ by what they hold there. -/
theorem supply_sub_value (a b : CoinSet) {outpoint : OutPoint}
    (same : ∀ other, other ≠ outpoint → a.view.value other = b.view.value other) :
    a.supply - a.view.value outpoint = b.supply - b.view.value outpoint := by
  have here : outpoint ∈ insert outpoint (a.keys.toFinset ∪ b.keys.toFinset) :=
    Finset.mem_insert_self outpoint _
  have first : a.keys.toFinset ⊆ insert outpoint (a.keys.toFinset ∪ b.keys.toFinset) :=
    Finset.subset_union_left.trans (Finset.subset_insert outpoint _)
  have second : b.keys.toFinset ⊆ insert outpoint (a.keys.toFinset ∪ b.keys.toFinset) :=
    Finset.subset_union_right.trans (Finset.subset_insert outpoint _)
  rw [supply_eq_sum first, supply_eq_sum second, ← Finset.sum_erase_add _ _ here,
    ← Finset.sum_erase_add _ _ here, add_sub_cancel_right, add_sub_cancel_right]
  exact Finset.sum_congr rfl fun other held => same other (Finset.ne_of_mem_erase held)

/-- A coin that is added brings its amount, less that of the coin it overwrites. -/
theorem supply_insert (coins : CoinSet) (outpoint : OutPoint) (coin : Coin) :
    supply (coins.insert outpoint coin) =
      coins.supply - coins.view.value outpoint + coin.value.toInt := by
  have others := supply_sub_value (coins.insert outpoint coin) coins
    fun other (different : other ≠ outpoint) => by rw [value_insert, if_neg different]
  rw [value_insert, if_pos rfl] at others
  omega

/-- A coin that is removed leaves with its amount. -/
theorem supply_erase (coins : CoinSet) (outpoint : OutPoint) :
    supply (coins.erase outpoint) = coins.supply - coins.view.value outpoint := by
  have others := supply_sub_value (coins.erase outpoint) coins
    fun other (different : other ≠ outpoint) => by rw [value_erase, if_neg different]
  rw [value_erase, if_pos rfl] at others
  omega

/-- Coins that are removed leave with what they hold together. -/
theorem supply_remove (coins : CoinSet) {outpoints : List OutPoint} (distinct : outpoints.Nodup) :
    (coins.remove outpoints).supply = coins.supply - coins.view.total outpoints := by
  induction outpoints generalizing coins with
  | nil => exact (Int.sub_zero _).symm
  | cons first rest ih =>
    rw [List.nodup_cons] at distinct
    have others : CoinView.total (CoinSet.view (coins.erase first)) rest =
        coins.view.total rest := by
      refine total_congr fun outpoint held => ?_
      have other : outpoint ≠ first := fun same => distinct.1 (same ▸ held)
      rw [view_erase, if_neg other]
    rw [remove_cons, ih _ distinct.2, supply_erase, others, total_cons]
    omega

/-- Whether every coin is an amount of money. -/
def Ranged (coins : CoinSet) : Prop :=
  ∀ outpoint coin, coins.view outpoint = some coin → inMoneyRange coin.value.toInt = true

theorem Ranged.value_nonneg {coins : CoinSet} (ranged : coins.Ranged) (outpoint : OutPoint) :
    0 ≤ coins.view.value outpoint := by
  cases there : coins.view outpoint with
  | none => rw [value_of_none there]
  | some coin =>
    rw [value_of_some there]
    exact (inMoneyRange_iff.mp (ranged outpoint coin there)).1

theorem Ranged.within {smaller larger : CoinSet} (within : smaller.Within larger)
    (ranged : larger.Ranged) : smaller.Ranged :=
  fun outpoint coin held => ranged outpoint coin (within outpoint coin held)

theorem Ranged.insert {coins : CoinSet} (ranged : coins.Ranged) (outpoint : OutPoint) {coin : Coin}
    (new : inMoneyRange coin.value.toInt = true) :
    CoinSet.Ranged (coins.insert outpoint coin) := by
  intro other held there
  rw [view_insert] at there
  split at there
  · cases there
    exact new
  · exact ranged other held there

theorem Ranged.create {coins : CoinSet} (ranged : coins.Ranged)
    {created : List (OutPoint × Coin)}
    (new : ∀ entry ∈ created, inMoneyRange entry.2.value.toInt = true) :
    (coins.create created).Ranged := by
  intro outpoint coin held
  rw [view_create] at held
  rcases Option.or_eq_some_iff.mp held with made | ⟨_, old⟩
  · exact new (outpoint, coin) (mem_of_latest made)
  · exact ranged outpoint coin old

/-- Coins that are added bring no more than their amounts. -/
theorem supply_create_le {coins : CoinSet} (ranged : coins.Ranged)
    {created : List (OutPoint × Coin)}
    (new : ∀ entry ∈ created, inMoneyRange entry.2.value.toInt = true) :
    (coins.create created).supply ≤
      coins.supply + Money.total (created.map fun entry => entry.2.value.toInt) := by
  induction created generalizing coins with
  | nil => exact Int.le_of_eq (Int.add_zero _).symm
  | cons first rest ih =>
    obtain ⟨here, others⟩ := List.forall_mem_cons.mp new
    have later := ih (ranged.insert first.1 here) others
    have overwritten := ranged.value_nonneg first.1
    rw [supply_insert] at later
    rw [create_cons, List.map_cons, Money.total_cons]
    omega

/-- Leaving coins out cannot raise the supply. -/
theorem supply_le_of_within {smaller larger : CoinSet} (within : smaller.Within larger)
    (ranged : larger.Ranged) : smaller.supply ≤ larger.supply := by
  have fewer : smaller.keys.toFinset ⊆ larger.keys.toFinset := by
    intro outpoint listed
    have held := mem_keys_iff.mp (List.mem_toFinset.mp listed)
    obtain ⟨coin, there⟩ := Option.ne_none_iff_exists'.mp held
    refine List.mem_toFinset.mpr (mem_keys_iff.mpr ?_)
    rw [within outpoint coin there]
    exact Option.some_ne_none coin
  rw [supply_eq_sum fewer, supply_eq_sum (Finset.Subset.refl _)]
  refine Finset.sum_le_sum fun outpoint _ => ?_
  cases there : smaller.view outpoint with
  | none =>
    rw [value_of_none there]
    exact ranged.value_nonneg outpoint
  | some coin => rw [value_of_some there, value_of_some (within outpoint coin there)]

end ScryptLedger.CoinSet
