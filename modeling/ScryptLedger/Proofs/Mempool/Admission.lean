import ScryptLedger.Mempool.Admission
import ScryptLedger.Primitives.Transparent
import ScryptLedger.Proofs.Transaction.Relay
import ScryptLedger.Proofs.Transaction.Inputs

/-!
# What admission to a pool says

A transaction is admitted exactly when each of the checks passes. Its scripts
have then passed the rules of relay, and pass those of every later block.
-/

namespace ScryptLedger.Mempool

section General

variable [Primitives]

theorem checkScripts_eq_ok_iff {tx : Transaction} {coins : List Coin} {rules : Rules}
    {height checks : Nat} :
    checkScripts tx coins rules height = .ok checks ↔
      tx.verifyScripts coins (rules.relayFlags height) = .ok checks := by
  rw [checkScripts]
  cases tx.verifyScripts coins (rules.relayFlags height) with
  | ok found => simp
  | error relayError =>
    cases tx.verifyScripts coins (rules.blockFlags height) <;> simp

theorem checkSpends_eq_ok_iff {tx : Transaction} {chain : Chain} {fee : Int} {checks : Nat} :
    checkSpends tx chain = .ok (fee, checks) ↔
      tx.fee chain.coins.view chain.rules.params (chain.height + 1) = .ok fee ∧
        tx.verifyScripts (tx.inputs.filterMap fun input => chain.coins.view input.outpoint)
          (chain.rules.relayFlags (chain.height + 1)) = .ok checks := by
  rw [checkSpends]
  cases tx.fee chain.coins.view chain.rules.params (chain.height + 1) with
  | error error => simp
  | ok found =>
    simp only [Outcome.bind_eq_ok_iff, checkScripts_eq_ok_iff, Outcome.pure_eq_ok_iff,
      Except.ok.injEq, Prod.mk.injEq]
    constructor
    · rintro ⟨checks, passed, rfl, rfl⟩
      exact ⟨rfl, passed⟩
    · rintro ⟨rfl, passed⟩
      exact ⟨checks, passed, rfl, rfl⟩

theorem accept_eq_ok_iff {pool pool' : Mempool} {tx : Transaction} {chain : Chain} :
    pool.accept tx chain = .ok pool' ↔
      pool.contains tx.txid = false ∧ tx.check = .ok () ∧ tx.isCoinbase = false ∧
        (∀ input ∈ tx.inputs, pool.spender? input.outpoint = none) ∧
        ∃ fee checks, checkSpends tx chain = .ok (fee, checks) ∧
          pool' = pool.insert tx.txid tx fee checks := by
  have free : (tx.inputs.any fun input => (pool.spender? input.outpoint).isSome) = false ↔
      ∀ input ∈ tx.inputs, pool.spender? input.outpoint = none := by
    simp only [List.any_eq_false, Option.not_isSome_iff_eq_none]
  simp only [accept, Outcome.throw_bind, Outcome.refuse_eq_ok_iff, Bool.not_eq_true]
  cases tx.check with
  | error fault =>
    constructor
    · rintro ⟨-, done⟩
      exact absurd done Outcome.throw_ne_ok
    · rintro ⟨-, ⟨⟩, -⟩
  | ok =>
    simp only [Outcome.refuse_eq_ok_iff, Outcome.bind_eq_ok_iff, Outcome.pure_eq_ok_iff,
      Bool.not_eq_true, free, Prod.exists, true_and, eq_comm (b := pool')]

/-- The coins an admitted transaction spends are those of the chain, one for each input. -/
theorem coins_of_passed {tx : Transaction} {view : CoinView} {flags : ScriptFlags} {checks : Nat}
    (passed : tx.verifyScripts (tx.inputs.filterMap fun input => view input.outpoint) flags
      = .ok checks) :
    (tx.inputs.filterMap fun input => view input.outpoint).map some
      = tx.inputs.map fun input => view input.outpoint := by
  obtain ⟨complete, -⟩ := Outcome.refuse_eq_ok_iff.mp passed
  have found : ∀ input ∈ tx.inputs, (view input.outpoint).isSome :=
    List.filterMap_length_eq_length.mp (Decidable.not_not.mp complete)
  rw [List.map_filterMap_some_eq_filter_map_isSome]
  refine List.filter_eq_self.mpr fun coin held => ?_
  obtain ⟨input, named, rfl⟩ := List.mem_map.mp held
  exact found input named

theorem verifyScripts_later {tx : Transaction} {coins : List Coin} {rules : Rules} {height : Nat}
    {checks : Nat} (passed : tx.verifyScripts coins (rules.relayFlags height) = .ok checks)
    (later : Nat) : tx.verifyScripts coins (rules.blockFlags later) = .ok checks :=
  tx.verifyScripts_implies (rules.ruleSet.blockFlags_relaxes rules.params height later) coins passed

/-- A transaction whose scripts pass the rules of relay passes the rules of every block, and counts
for the same signature checks: whichever rules join before it is mined, what a pool has admitted
cannot fail for its scripts. -/
theorem scripts_pass_in_blocks :
    (∀ (rules : RuleSet) (params : ChainParams) (height later : Nat) (tx : Transaction)
        (coins : List Coin) (checks : Nat),
      tx.verifyScripts coins (rules.relayFlags params height) = .ok checks →
        tx.verifyScripts coins (rules.blockFlags params later) = .ok checks) ∧
    ∀ (pool pool' : Mempool) (tx : Transaction) (chain : Chain),
      pool.accept tx chain = .ok pool' →
        ∃ coins checks, coins.map some = tx.inputs.map (chain.coins.view ·.outpoint) ∧
          (pool'.get? tx.txid).map MempoolEntry.sigChecks = some checks ∧
          ∀ later, tx.verifyScripts coins (chain.rules.blockFlags later) = .ok checks := by
  constructor
  · intro rules params height later tx coins checks passed
    exact tx.verifyScripts_implies (rules.blockFlags_relaxes params height later) coins passed
  · intro pool pool' tx chain admitted
    obtain ⟨-, -, -, -, fee, checks, spends, rfl⟩ := accept_eq_ok_iff.mp admitted
    obtain ⟨-, passed⟩ := checkSpends_eq_ok_iff.mp spends
    refine ⟨_, checks, coins_of_passed passed, ?_, verifyScripts_later passed⟩
    simp [get?, insert]

end General

namespace Locked

local instance : Primitives := Primitives.transparent

/-- A node of the older language, on a network where lock times join at height 1351. -/
def rules : Rules :=
  Rules.ofConfig { NodeConfig.default with legacyScriptRules := some true }

/-- Pays, from height 1 on, to whoever signs. -/
def coin : Coin where
  value := 5000
  scriptPubKey := [0x51, 0xb1, 0x75, 0x21, 0x02] ++ List.replicate 32 7 ++ [0xac]
  height := 1
  isCoinbase := false

def source : OutPoint := ⟨Digest.zero, 0⟩

def chain : Chain := { Chain.new rules with coins := (∅ : CoinSet).insert source coin }

/-- A strictly encoded signature with its hash type. -/
def signature : Bytes := [0x30, 6, 2, 1, 1, 2, 1, 1, 0x01]

def payment : Transaction where
  version := 1
  inputs := [⟨source, Script.push signature, 0⟩]
  outputs := [⟨4000, Script.push (List.replicate 40 0)⟩]
  lockTime := 1

theorem passes_before_lock_times :
    payment.verifyScripts [coin] (rules.relayFlags 1) = .ok 1 ∧
      payment.verifyScripts [coin] (rules.blockFlags 1350) = .ok 1 ∧
      payment.verifyScripts [coin] (rules.blockFlags 1351) = .ok 1 ∧
      ∃ pool, Mempool.empty.accept payment chain = .ok pool ∧
        ∃ coins checks, coins.map some = payment.inputs.map (chain.coins.view ·.outpoint) ∧
          (pool.get? payment.txid).map MempoolEntry.sigChecks = some checks ∧
          ∀ later, payment.verifyScripts coins (rules.blockFlags later) = .ok checks := by
  have passed : payment.verifyScripts [coin] (rules.relayFlags 1) = .ok 1 :=
    Outcome.toOption_eq_some_iff.mp (by decide +kernel)
  have later (height : Nat) : payment.verifyScripts [coin] (rules.blockFlags height) = .ok 1 :=
    scripts_pass_in_blocks.1 rules.ruleSet rules.params 1 height payment [coin] 1 passed
  have succeeds : (Mempool.empty.accept payment chain).isOk = true := by decide +kernel
  obtain ⟨pool, admitted⟩ := Outcome.eq_ok_of_isOk succeeds
  exact ⟨passed, later 1350, later 1351, pool, admitted,
    scripts_pass_in_blocks.2 Mempool.empty pool payment chain admitted⟩

end Locked

end ScryptLedger.Mempool
