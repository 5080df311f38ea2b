import ScryptLedger.Proofs.Transaction.Check
import ScryptLedger.Transaction.Inputs

/-!
# Transactions that can pay

When the inputs of a transaction can be spent, and which fee it then leaves.
As with outputs, the running total of the inputs comes to their whole sum.
-/

namespace ScryptLedger

namespace CoinView

/-- The amount at an outpoint; nothing where there is no coin. -/
def value (view : CoinView) (outpoint : OutPoint) : Int :=
  ((view outpoint).map fun coin => coin.value.toInt).getD 0

theorem value_of_some {view : CoinView} {outpoint : OutPoint} {coin : Coin}
    (there : view outpoint = some coin) : view.value outpoint = coin.value.toInt := by
  rw [value, there, Option.map_some, Option.getD_some]

theorem value_of_none {view : CoinView} {outpoint : OutPoint} (absent : view outpoint = none) :
    view.value outpoint = 0 := by
  rw [value, absent, Option.map_none, Option.getD_none]

/-- The sum of the amounts at some outpoints. -/
def total (view : CoinView) (outpoints : List OutPoint) : Int :=
  Money.total (outpoints.map view.value)

@[simp]
theorem total_nil (view : CoinView) : view.total [] = 0 := rfl

@[simp]
theorem total_cons (view : CoinView) (outpoint : OutPoint) (rest : List OutPoint) :
    view.total (outpoint :: rest) = view.value outpoint + view.total rest := by
  rw [total, List.map_cons, Money.total_cons, total]

@[simp]
theorem total_append (view : CoinView) (first second : List OutPoint) :
    view.total (first ++ second) = view.total first + view.total second := by
  rw [total, List.map_append, Money.total_append, total, total]

theorem total_congr {a b : CoinView} {outpoints : List OutPoint}
    (same : ∀ outpoint ∈ outpoints, a outpoint = b outpoint) :
    a.total outpoints = b.total outpoints := by
  rw [total, total]
  refine congrArg Money.total (List.map_congr_left fun outpoint held => ?_)
  rw [value, value, same outpoint held]

/-- Whether a coin can be spent at a height: it is there, mature, and an amount of money. -/
def CanSpend (view : CoinView) (params : ChainParams) (height : Nat) (outpoint : OutPoint) : Prop :=
  ∃ coin, view outpoint = some coin ∧ coin.isSpendableAt params height = true ∧
    inMoneyRange coin.value.toInt = true

theorem CanSpend.value_nonneg {view : CoinView} {params : ChainParams} {height : Nat}
    {outpoint : OutPoint} (can : view.CanSpend params height outpoint) :
    0 ≤ view.value outpoint := by
  obtain ⟨coin, there, _, ranged⟩ := can
  rw [value_of_some there]
  exact (inMoneyRange_iff.mp ranged).1

theorem total_nonneg {view : CoinView} {params : ChainParams} {height : Nat}
    {outpoints : List OutPoint}
    (can : ∀ outpoint ∈ outpoints, view.CanSpend params height outpoint) :
    0 ≤ view.total outpoints := by
  induction outpoints with
  | nil => exact Int.le_refl 0
  | cons outpoint rest ih =>
    have here := (can outpoint List.mem_cons_self).value_nonneg
    have others := ih fun other later => can other (List.mem_cons_of_mem _ later)
    rw [total_cons]
    omega

end CoinView

namespace Coin

/-- A coin of a coinbase can be spent once it lies deep enough. -/
theorem isSpendableAt_iff {coin : Coin} {params : ChainParams} {height : Nat} :
    coin.isSpendableAt params height = true ↔
      (coin.isCoinbase = true →
        (params.maturityDepth coin.height : Int) ≤ height - coin.height) := by
  have deep : coin.isSpendableAt params height = true ↔ coin.isCoinbase = false ∨
      (params.maturityDepth coin.height : Int) ≤ coin.depthAt height := by
    simp only [isSpendableAt, Bool.or_eq_true, Bool.not_eq_true', decide_eq_true_eq]
  rw [deep, depthAt]
  cases coin.isCoinbase <;> simp

/-- A coin that can be spent at a height can be spent at every greater one. -/
theorem isSpendableAt_mono {coin : Coin} {params : ChainParams} {low high : Nat}
    (spendable : coin.isSpendableAt params low = true) (higher : low ≤ high) :
    coin.isSpendableAt params high = true := by
  refine isSpendableAt_iff.mpr fun kind => ?_
  have deep := isSpendableAt_iff.mp spendable kind
  omega

end Coin

namespace Transaction

variable {view : CoinView} {params : ChainParams} {height : Nat}

theorem sumInputs_cons_eq_ok_iff {total sum : Int} (start : inMoneyRange total = true)
    {input : TxInput} {rest : List TxInput} :
    sumInputs view params height total (input :: rest) = .ok sum ↔
      view.CanSpend params height input.outpoint ∧
        inMoneyRange (total + view.value input.outpoint) ∧
        sumInputs view params height (total + view.value input.outpoint) rest = .ok sum := by
  rw [sumInputs]
  cases there : view input.outpoint with
  | none =>
    refine ⟨fun refused => absurd refused Outcome.throw_ne_ok, ?_⟩
    rintro ⟨⟨coin, found, _⟩, _⟩
    rw [there] at found
    cases found
  | some coin =>
    have can : view.CanSpend params height input.outpoint ↔
        coin.isSpendableAt params height = true ∧ inMoneyRange coin.value.toInt = true := by
      simp only [CoinView.CanSpend, there, Option.some.injEq, exists_eq_left']
    simp only [Outcome.refuse_eq_ok_iff, can, CoinView.value_of_some there, Bool.or_eq_true,
      Bool.not_eq_true', not_or, Bool.not_eq_false]
    constructor
    · rintro ⟨mature, ⟨ranged, sum⟩, later⟩
      rw [Money.wrap_add_of_ranged start ranged] at sum later
      exact ⟨⟨mature, ranged⟩, sum, later⟩
    · rintro ⟨⟨mature, ranged⟩, sum, later⟩
      rw [Money.wrap_add_of_ranged start ranged]
      exact ⟨mature, ⟨ranged, sum⟩, later⟩

theorem sumInputs_eq_ok_iff {total sum : Int} {inputs : List TxInput}
    (start : inMoneyRange total = true) :
    sumInputs view params height total inputs = .ok sum ↔
      (∀ outpoint ∈ inputs.map TxInput.outpoint, view.CanSpend params height outpoint) ∧
        total + view.total (inputs.map TxInput.outpoint) ≤ maxMoney ∧
        sum = total + view.total (inputs.map TxInput.outpoint) := by
  -- No coin is negative, so that the running total is in range wherever the whole sum is.
  induction inputs generalizing total with
  | nil =>
    have bounded := (inMoneyRange_iff.mp start).2
    simp only [sumInputs, Outcome.pure_eq_ok_iff, List.map_nil, List.not_mem_nil, false_implies,
      implies_true, bounded, true_and, CoinView.total_nil, Int.add_zero]
    exact eq_comm
  | cons input rest ih =>
    rw [sumInputs_cons_eq_ok_iff start, List.map_cons, CoinView.total_cons, ← Int.add_assoc]
    constructor
    · rintro ⟨can, range, later⟩
      obtain ⟨others, bounded, rfl⟩ := (ih range).mp later
      exact ⟨List.forall_mem_cons.mpr ⟨can, others⟩, bounded, rfl⟩
    · rintro ⟨can, bounded, rfl⟩
      obtain ⟨can, others⟩ := List.forall_mem_cons.mp can
      have positive := can.value_nonneg
      have rest_positive := CoinView.total_nonneg others
      have before := (inMoneyRange_iff.mp start).1
      have range : inMoneyRange (total + view.value input.outpoint) = true :=
        inMoneyRange_iff.mpr ⟨by omega, by omega⟩
      exact ⟨can, range, (ih range).mpr ⟨others, bounded, rfl⟩⟩

/-- When a transaction leaves a fee, and which: what its inputs hold is an amount of money, but what
its outputs come to, and what is left, is what words keep of it. -/
theorem fee_eq_ok_iff {tx : Transaction} {fee : Int} :
    tx.fee view params height = .ok fee ↔
      (∀ outpoint ∈ tx.inputs.map TxInput.outpoint, view.CanSpend params height outpoint) ∧
        view.total (tx.inputs.map TxInput.outpoint) ≤ maxMoney ∧
        tx.totalOutput ≤ view.total (tx.inputs.map TxInput.outpoint) ∧
        fee = Money.wrap
          (view.total (tx.inputs.map TxInput.outpoint) - TxOutput.total tx.outputs) := by
  have zero : inMoneyRange 0 = true := by decide
  rw [← Money.wrap_sub_wrap _ (TxOutput.total tx.outputs), ← totalOutput_eq]
  simp only [Transaction.fee, Outcome.bind_eq_ok_iff, sumInputs_eq_ok_iff zero, Int.zero_add,
    Outcome.refuse_eq_ok_iff, Outcome.pure_eq_ok_iff, Int.not_lt]
  constructor
  · rintro ⟨_, ⟨can, bounded, rfl⟩, covered, rfl⟩
    exact ⟨can, bounded, covered, rfl⟩
  · rintro ⟨can, bounded, covered, rfl⟩
    exact ⟨_, ⟨can, bounded, rfl⟩, covered, rfl⟩

/-- The fee of a transaction that passes on its own is exact. -/
theorem fee_of_check {tx : Transaction} {fee : Int} (passes : tx.check = .ok ())
    (paid : tx.fee view params height = .ok fee) :
    0 ≤ fee ∧ fee = view.total (tx.inputs.map TxInput.outpoint) - TxOutput.total tx.outputs := by
  obtain ⟨can, bounded, covered, rfl⟩ := fee_eq_ok_iff.mp paid
  obtain ⟨range, exact⟩ := totalOutput_of_check passes
  have least := (inMoneyRange_iff.mp range).1
  have ranged : inMoneyRange
      (view.total (tx.inputs.map TxInput.outpoint) - TxOutput.total tx.outputs) = true :=
    inMoneyRange_iff.mpr ⟨by omega, by omega⟩
  rw [Money.wrap_of_ranged ranged]
  exact ⟨(inMoneyRange_iff.mp ranged).1, rfl⟩

/-- A transaction that leaves a fee at a height leaves it at every greater one. -/
theorem fee_mono {tx : Transaction} {high : Nat} {fee : Int}
    (paid : tx.fee view params height = .ok fee) (higher : height ≤ high) :
    tx.fee view params high = .ok fee := by
  obtain ⟨can, rest⟩ := fee_eq_ok_iff.mp paid
  refine fee_eq_ok_iff.mpr ⟨fun outpoint named => ?_, rest⟩
  obtain ⟨coin, there, spendable, ranged⟩ := can outpoint named
  exact ⟨coin, there, coin.isSpendableAt_mono spendable higher, ranged⟩

/-- The fee follows from the amounts that a transaction spends. -/
theorem fee_unique {tx : Transaction} {other : CoinView} {params' : ChainParams} {high : Nat}
    {fee fee' : Int}
    (paid : tx.fee view params height = .ok fee) (paid' : tx.fee other params' high = .ok fee')
    (same : ∀ outpoint ∈ tx.inputs.map TxInput.outpoint,
      other.value outpoint = view.value outpoint) : fee' = fee := by
  obtain ⟨-, -, -, rfl⟩ := fee_eq_ok_iff.mp paid
  obtain ⟨-, -, -, rfl⟩ := fee_eq_ok_iff.mp paid'
  rw [CoinView.total, CoinView.total, List.map_congr_left same]

end Transaction

end ScryptLedger
