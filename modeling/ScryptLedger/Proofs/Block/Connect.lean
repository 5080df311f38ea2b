import ScryptLedger.Block.Connect
import ScryptLedger.Primitives.Transparent
import ScryptLedger.Proofs.Block.Apply
import ScryptLedger.Proofs.Block.Check
import ScryptLedger.Proofs.Transaction.Inputs

/-!
# What is validated is what is applied

A block is validated through a view that marks what was spent, transaction by
transaction, and is then applied in one sweep that passes over what it cannot
find. For a block that connects, both see the same coins: every outpoint that
the block names holds one, none is named twice, and the sweep passes over
nothing.
-/

namespace ScryptLedger

namespace Transaction

/-- The outpoints that the inputs of some transactions name, in order. -/
def named (txs : List Transaction) : List OutPoint :=
  txs.flatMap fun tx => tx.inputs.map TxInput.outpoint

@[simp]
theorem named_cons (tx : Transaction) (rest : List Transaction) :
    named (tx :: rest) = tx.inputs.map TxInput.outpoint ++ named rest := rfl

/-- The exact sum of the outputs of some transactions. -/
def paid (txs : List Transaction) : Int :=
  Money.total (txs.map fun tx => TxOutput.total tx.outputs)

@[simp]
theorem paid_cons (tx : Transaction) (rest : List Transaction) :
    paid (tx :: rest) = TxOutput.total tx.outputs + paid rest := by
  rw [paid, List.map_cons, Money.total_cons, paid]

end Transaction

namespace BlockView

theorem contains_spend (spent : Std.ExtTreeSet OutPoint compare) (outpoints : List OutPoint)
    (outpoint : OutPoint) :
    (outpoints.foldl (fun spent outpoint => spent.insert outpoint) spent).contains outpoint =
      (decide (outpoint ∈ outpoints) || spent.contains outpoint) := by
  induction outpoints generalizing spent with
  | nil => simp
  | cons first rest ih =>
    rw [List.foldl_cons, ih, Std.ExtTreeSet.contains_insert]
    by_cases here : outpoint = first
    · simp [here]
    · have other : (compare first outpoint == .eq) = false := beq_eq_false_iff_ne.mpr fun same =>
        here (Std.compare_eq_iff_eq.mp same).symm
      simp [here, other]

/-- What was spent is no longer seen. -/
theorem coin_spend (view : BlockView) (outpoints : List OutPoint) (outpoint : OutPoint) :
    (view.spend outpoints).coin outpoint =
      if outpoint ∈ outpoints then none else view.coin outpoint := by
  simp only [coin, spend, contains_spend, Bool.or_eq_true, decide_eq_true_eq]
  by_cases here : outpoint ∈ outpoints
  · simp [here]
  · simp [here]

/-- Before the first transaction, the view shows the set with the block's outputs over it. -/
theorem coin_start [Primitives] (coins : CoinSet) (block : Block) (height : Nat) :
    (start coins block height).coin = (coins.create (block.created height)).view := by
  funext outpoint
  have nothing : (∅ : Std.ExtTreeSet OutPoint compare).contains outpoint = false := by simp
  simp only [coin, start, nothing, Bool.false_eq_true, if_false, CoinSet.view_create,
    CoinSet.view_empty, Option.or_none]

end BlockView

namespace Block

section SpendAll

variable {params : ChainParams} {height : Nat}

theorem spendAll_cons_eq_ok {view : BlockView} {tx : Transaction} {rest : List Transaction}
    {spends : List (Transaction × Int × List Coin)}
    (done : spendAll params height view (tx :: rest) = .ok spends) :
    ∃ fee coins later, tx.fee view.coin params height = .ok fee ∧
      tx.spentCoins view.coin = some coins ∧
      spendAll params height (view.spend (tx.inputs.map TxInput.outpoint)) rest = .ok later ∧
      spends = (tx, fee, coins) :: later := by
  rw [spendAll] at done
  cases paid : tx.fee view.coin params height with
  | error cause => simp [paid] at done
  | ok fee =>
    cases found : tx.spentCoins view.coin with
    | none => simp [paid, found] at done
    | some coins =>
      simp only [paid, found, Outcome.bind_eq_ok_iff, Outcome.pure_eq_ok_iff] at done
      obtain ⟨later, continued, rfl⟩ := done
      exact ⟨fee, coins, later, rfl, rfl, continued, rfl⟩

/-- Every outpoint named can be spent as the view stood before the first transaction. -/
theorem canSpend_of_spendAll {view : BlockView} {txs : List Transaction}
    {spends : List (Transaction × Int × List Coin)}
    (done : spendAll params height view txs = .ok spends) :
    ∀ outpoint ∈ Transaction.named txs, view.coin.CanSpend params height outpoint := by
  induction txs generalizing view spends with
  | nil => exact fun _ named => nomatch named
  | cons tx rest ih =>
    obtain ⟨fee, coins, later, paid, _, continued, _⟩ := spendAll_cons_eq_ok done
    intro outpoint named
    rcases List.mem_append.mp named with here | there
    · exact (Transaction.fee_eq_ok_iff.mp paid).1 outpoint here
    · obtain ⟨coin, seen, can⟩ := ih continued outpoint there
      rw [BlockView.coin_spend] at seen
      split at seen
      · cases seen
      · exact ⟨coin, seen, can⟩

/-- No transaction names an outpoint that an earlier one named. -/
theorem nodup_of_spendAll {view : BlockView} {txs : List Transaction}
    {spends : List (Transaction × Int × List Coin)}
    (done : spendAll params height view txs = .ok spends)
    (distinct : ∀ tx ∈ txs, (tx.inputs.map TxInput.outpoint).Nodup) :
    (Transaction.named txs).Nodup := by
  induction txs generalizing view spends with
  | nil => exact List.nodup_nil
  | cons tx rest ih =>
    obtain ⟨fee, coins, later, _, _, continued, _⟩ := spendAll_cons_eq_ok done
    obtain ⟨here, others⟩ := List.forall_mem_cons.mp distinct
    rw [Transaction.named_cons, List.nodup_append]
    refine ⟨here, ih continued others, ?_⟩
    -- What a later transaction names is still seen, and so was not spent by the first.
    rintro outpoint first _ again rfl
    obtain ⟨coin, seen, _⟩ := canSpend_of_spendAll continued outpoint again
    rw [BlockView.coin_spend, if_pos first] at seen
    cases seen

/-- The fees of transactions that pass on their own are what their inputs hold over what their
outputs take, and none is negative. -/
theorem fees_of_spendAll {view : BlockView} {txs : List Transaction}
    {spends : List (Transaction × Int × List Coin)}
    (done : spendAll params height view txs = .ok spends)
    (passes : ∀ tx ∈ txs, tx.check = .ok ()) :
    (∀ fee ∈ spends.map (fun (_, fee, _) => fee), 0 ≤ fee) ∧
      Money.total (spends.map fun (_, fee, _) => fee) =
        view.coin.total (Transaction.named txs) - Transaction.paid txs := by
  induction txs generalizing view spends with
  | nil =>
    cases done
    exact ⟨fun _ impossible => absurd impossible List.not_mem_nil, rfl⟩
  | cons tx rest ih =>
    obtain ⟨fee, coins, later, paid, _, continued, rfl⟩ := spendAll_cons_eq_ok done
    obtain ⟨first, others⟩ := List.forall_mem_cons.mp passes
    have same : (view.spend (tx.inputs.map TxInput.outpoint)).coin.total (Transaction.named rest) =
        view.coin.total (Transaction.named rest) := by
      refine CoinView.total_congr fun outpoint named => ?_
      obtain ⟨coin, seen, _⟩ := canSpend_of_spendAll continued outpoint named
      rw [BlockView.coin_spend] at seen ⊢
      split at seen
      · cases seen
      · rename_i unspent
        rw [if_neg unspent]
    obtain ⟨positive, exact⟩ := Transaction.fee_of_check first paid
    obtain ⟨positives, sum⟩ := ih continued others
    rw [same] at sum
    refine ⟨List.forall_mem_cons.mpr ⟨positive, positives⟩, ?_⟩
    rw [List.map_cons, Money.total_cons, Transaction.named_cons, CoinView.total_append,
      Transaction.paid_cons, sum]
    dsimp only
    omega

end SpendAll

theorem checkReward_eq_ok_iff {rules : Rules} {coinbase : Transaction} {previous : Hash}
    {fees : Int} {height : Nat} {winner : Option Bytes} :
    checkReward rules coinbase previous fees height winner = .ok () ↔
      Coinbase.check coinbase height rules.params = .ok () ∧
        coinbase.totalOutput ≤
          Money.wrap (Subsidy.ofBlock height rules.params previous + fees) ∧
        rules.checkPayouts coinbase
          (Money.wrap (Subsidy.ofBlock height rules.params previous + fees)) height winner
            = .ok () := by
  simp only [checkReward, Outcome.bind_eq_ok_iff, Outcome.throw_bind, Outcome.refuse_eq_ok_iff,
    gt_iff_lt, Int.not_lt]
  constructor
  · rintro ⟨⟨⟩, form, amount, paid⟩
    exact ⟨form, amount, paid⟩
  · rintro ⟨form, amount, paid⟩
    exact ⟨(), form, amount, paid⟩

variable [Primitives]

/-- When a block connects, and what that yields. -/
theorem connect_eq_ok_iff {rules : Rules} {height : Nat} {winner : Option Bytes} {coins : CoinSet}
    {block : Block} {connected : Connected} :
    block.connect rules height winner coins = .ok connected ↔
      block.check rules.params rules.config = .ok () ∧
        ∃ coinbase others spends, block.transactions = coinbase :: others ∧
          spendAll rules.params height (BlockView.start coins block height) others = .ok spends ∧
          verifyScripts (rules.blockFlags height) spends = .ok connected.sigChecks ∧
          ((rules.blockFlags height).enforceSigChecks = true →
            connected.sigChecks ≤ maxBlockSigChecks rules.config.maxBlockSize) ∧
          checkReward rules coinbase block.header.previous connected.fees height winner = .ok () ∧
          connected.fees = Money.sum (spends.map fun (_, fee, _) => fee) ∧
          (connected.coins, connected.undo) = block.apply coins height := by
  obtain ⟨left, undo, fees, sigChecks⟩ := connected
  rw [connect]
  simp only [Outcome.bind_eq_ok_iff]
  constructor
  · rintro ⟨⟨⟩, checked, rest⟩
    refine ⟨checked, ?_⟩
    cases shape : block.transactions with
    | nil => simp [shape] at rest
    | cons coinbase others =>
      simp only [shape, Outcome.bind_eq_ok_iff, Outcome.throw_bind, Outcome.refuse_eq_ok_iff,
        Outcome.pure_eq_ok_iff, Bool.and_eq_true, decide_eq_true_eq, not_and, Nat.not_lt,
        Connected.mk.injEq] at rest
      obtain ⟨spends, spent, checks, verified, bounded, ⟨⟩, rewarded, rfl, rfl, rfl, rfl⟩ := rest
      exact ⟨coinbase, others, spends, rfl, spent, verified, bounded, rewarded, rfl, rfl⟩
  · rintro ⟨checked, coinbase, others, spends, shape, spent, verified, bounded, rewarded, rfl,
      applied⟩
    refine ⟨(), checked, ?_⟩
    simp only [shape, Outcome.bind_eq_ok_iff, Outcome.throw_bind, Outcome.refuse_eq_ok_iff,
      Outcome.pure_eq_ok_iff, Bool.and_eq_true, decide_eq_true_eq, not_and, Nat.not_lt,
      Connected.mk.injEq, ← applied]
    exact ⟨spends, spent, sigChecks, verified, bounded, (), rewarded, trivial, trivial, rfl, rfl⟩

/-- The transactions of a block that spend coins. -/
def ordinary (block : Block) : List Transaction :=
  block.transactions.filter fun tx => !tx.isCoinbase

omit [Primitives] in
theorem spent_eq_named (block : Block) : block.spent = Transaction.named block.ordinary := by
  rw [spent, ordinary, Transaction.named]
  induction block.transactions with
  | nil => rfl
  | cons tx rest ih =>
    cases kind : tx.isCoinbase with
    | true => simp [Transaction.spent, kind, ih]
    | false => simp [Transaction.spent, kind, ih]

omit [Primitives] in
theorem ordinary_eq {block : Block} {coinbase : Transaction} {others : List Transaction}
    (shape : block.transactions = coinbase :: others) (first : coinbase.isCoinbase = true)
    (rest : ∀ tx ∈ others, tx.isCoinbase = false) : block.ordinary = others := by
  rw [ordinary, shape, List.filter_cons_of_neg (by simp [first]), List.filter_eq_self]
  intro tx held
  rw [rest tx held, Bool.not_false]

section Accepted

variable {rules : Rules} {height : Nat} {winner : Option Bytes} {coins : CoinSet} {block : Block}
variable {connected : Connected}

theorem apply_of_connect (accepted : block.connect rules height winner coins = .ok connected) :
    (connected.coins, connected.undo) = block.apply coins height := by
  obtain ⟨_, _, _, _, _, _, _, _, _, _, applied⟩ := connect_eq_ok_iff.mp accepted
  exact applied

theorem coins_of_connect (accepted : block.connect rules height winner coins = .ok connected) :
    connected.coins = (block.apply coins height).1 :=
  congrArg Prod.fst (apply_of_connect accepted)

theorem undo_of_connect (accepted : block.connect rules height winner coins = .ok connected) :
    connected.undo = (block.apply coins height).2 :=
  congrArg Prod.snd (apply_of_connect accepted)

theorem passes_of_connect (accepted : block.connect rules height winner coins = .ok connected) :
    ∀ tx ∈ block.transactions, tx.check = .ok () := by
  obtain ⟨_, _, _, _, each, _⟩ := check_eq_ok_iff.mp (connect_eq_ok_iff.mp accepted).1
  exact each

/-- The coinbase and the ordinary transactions of a block that connects, and what the latter
spend. -/
theorem spendAll_of_connect (accepted : block.connect rules height winner coins = .ok connected) :
    ∃ coinbase spends, block.transactions = coinbase :: block.ordinary ∧
      coinbase.isCoinbase = true ∧
      spendAll rules.params height (BlockView.start coins block height) block.ordinary
        = .ok spends ∧
      connected.fees = Money.sum (spends.map fun (_, fee, _) => fee) ∧
      coinbase.totalOutput ≤
        Money.wrap
          (Subsidy.ofBlock height rules.params block.header.previous + connected.fees) := by
  obtain ⟨checked, coinbase, others, spends, shape, spent, _, _, rewarded, fees, _⟩ :=
    connect_eq_ok_iff.mp accepted
  obtain ⟨_, _, _, _, _, first, rest, form, kind, kinds⟩ := check_eq_ok_iff.mp checked
  obtain ⟨rfl, rfl⟩ : coinbase = first ∧ others = rest := by
    simpa using shape.symm.trans form
  rw [ordinary_eq shape kind kinds]
  exact ⟨coinbase, spends, shape, kind, spent, fees, (checkReward_eq_ok_iff.mp rewarded).2.1⟩

/-- Every outpoint that a connecting block spends holds a coin that may be spent. -/
theorem canSpend_of_connect (accepted : block.connect rules height winner coins = .ok connected) :
    ∀ outpoint ∈ block.spent,
      (coins.create (block.created height)).view.CanSpend rules.params height outpoint := by
  obtain ⟨_, _, _, _, spent, _⟩ := spendAll_of_connect accepted
  rw [spent_eq_named, ← BlockView.coin_start]
  exact canSpend_of_spendAll spent

/-- A connecting block names no outpoint twice, not even that of its coinbase. -/
theorem nodup_named_of_connect
    (accepted : block.connect rules height winner coins = .ok connected) :
    (Transaction.named block.transactions).Nodup := by
  have passes := passes_of_connect accepted
  obtain ⟨coinbase, _, shape, kind, spent, _⟩ := spendAll_of_connect accepted
  have kinds : ∀ tx ∈ block.ordinary, tx.isCoinbase = false := by
    intro tx held
    simpa using (List.mem_filter.mp held).2
  rw [shape] at passes ⊢
  obtain ⟨first, others⟩ := List.forall_mem_cons.mp passes
  have own := fun tx held => (Transaction.check_eq_ok_iff.mp (others tx held)).2.2.2.2.2.2.1
  have single : ∀ outpoint ∈ coinbase.inputs.map TxInput.outpoint, outpoint = OutPoint.null := by
    rw [Transaction.isCoinbase] at kind
    split at kind
    · rename_i input only
      simpa [only] using kind
    · cases kind
  rw [Transaction.named_cons, List.nodup_append]
  refine ⟨(Transaction.check_eq_ok_iff.mp first).2.2.2.2.2.2.1, nodup_of_spendAll spent own, ?_⟩
  rintro outpoint null _ again rfl
  rw [single outpoint null] at again
  obtain ⟨tx, held, named⟩ := List.mem_flatMap.mp again
  exact Transaction.null_not_mem_of_check (others tx held) (kinds tx held) named

theorem nodup_spent_of_connect
    (accepted : block.connect rules height winner coins = .ok connected) : block.spent.Nodup := by
  obtain ⟨coinbase, _, shape, _⟩ := spendAll_of_connect accepted
  have distinct := nodup_named_of_connect accepted
  rw [shape, Transaction.named_cons, List.nodup_append] at distinct
  rw [spent_eq_named]
  exact distinct.2.1

/-- The fees of a block that connects are what its inputs hold over what its ordinary transactions
pay, as far as a word holds that. -/
theorem fees_of_connect (accepted : block.connect rules height winner coins = .ok connected) :
    0 ≤ (coins.create (block.created height)).view.total block.spent
        - Transaction.paid block.ordinary ∧
      connected.fees = Money.wrap ((coins.create (block.created height)).view.total block.spent
        - Transaction.paid block.ordinary) := by
  obtain ⟨_, _, shape, _, spent, fees, _⟩ := spendAll_of_connect accepted
  have passes := passes_of_connect accepted
  rw [shape] at passes
  obtain ⟨-, others⟩ := List.forall_mem_cons.mp passes
  obtain ⟨positive, sum⟩ := fees_of_spendAll spent others
  rw [BlockView.coin_start, ← spent_eq_named] at sum
  rw [fees, Money.sum_eq_wrap, ← sum]
  exact ⟨(Money.le_total positive).1, rfl⟩

end Accepted

end Block

namespace Block.ChildFirst

local instance : Primitives := Primitives.transparent

/-- A script that anyone may spend, long enough for a transaction to be no dwarf. -/
def freeForAll : Bytes := 40 :: List.replicate 40 1

/-- A coin set with one coin. -/
def coins : CoinSet :=
  CoinSet.create ∅ [(⟨Digest.zero, 0⟩, ⟨1000, freeForAll, 0, false⟩)]

def parent : Transaction where
  version := 2
  inputs := [⟨⟨Digest.zero, 0⟩, [], 0⟩]
  outputs := [⟨900, freeForAll⟩]
  lockTime := 2

def child : Transaction where
  version := 2
  inputs := [⟨⟨parent.txid, 0⟩, [], 0⟩]
  outputs := [⟨700, freeForAll⟩]
  lockTime := 1

def coinbase : Transaction :=
  Coinbase.build 1 [⟨5000000300, [0x51]⟩]

/-- A block that lists a transaction before the one whose output it spends. -/
def block : Block where
  header :=
    { BlockHeader.zero with
      version := 1
      merkleRoot := Merkle.root [coinbase.txid, child.txid, parent.txid]
      bits := 0x207fffff }
  auxpow := none
  transactions := [coinbase, child, parent]

end Block.ChildFirst

namespace Block.Burning

local instance : Primitives := Primitives.transparent

def source (number : Nat) : OutPoint := ⟨Digest.zero, UInt32.ofNat number⟩

/-- Nineteen coins, each of which is all the money there can be. -/
def coins : CoinSet :=
  CoinSet.create ∅ ((List.range 19).map fun number =>
    (source number, ⟨1000000000000000000, ChildFirst.freeForAll, 0, false⟩))

/-- Leaves all of a coin as its fee. -/
def burn (number : Nat) : Transaction where
  version := 2
  inputs := [⟨source number, [], 0⟩]
  outputs := [⟨0, ChildFirst.freeForAll⟩]
  lockTime := UInt32.ofNat (number + 1)

def coinbase : Transaction :=
  Coinbase.build 1 [⟨0, ChildFirst.freeForAll⟩]

/-- A block that burns all the coins. -/
def block : Block where
  header :=
    { BlockHeader.zero with
      version := 1
      merkleRoot := Merkle.root ((coinbase :: (List.range 19).map burn).map Transaction.txid)
      bits := 0x207fffff }
  auxpow := none
  transactions := coinbase :: (List.range 19).map burn

end Block.Burning

end ScryptLedger
