import ScryptLedger.Proofs.Mining.PrivateNetwork

/-!
# Spending what was mined

On a chain of blocks without transactions, a coin that has matured can be spent.
A pool that knows of nothing else admits the transaction that spends it, and the
next block takes it if its signature checks fit in the budget of blocks. This
block overwrites no coin, and leaves all but the one that is spent.
-/

namespace ScryptLedger

namespace PrivateNetwork

local instance : Primitives := Primitives.transparent

variable {size : Nat}

/-- A transaction whose one input names a coinbase's output, and which passes on its own. -/
structure Withdraws (tx : Transaction) (source : OutPoint) (amount : Int) : Prop where
  check : tx.check = .ok ()
  ordinary : tx.isCoinbase = false
  inputs : tx.inputs.map TxInput.outpoint = [source]
  outputs : TxOutput.total tx.outputs = amount
  positive : 0 ≤ amount
  covered : amount ≤ 5000000000
  small : tx.size ≤ 1000

theorem Withdraws.fee_nonneg {tx : Transaction} {source : OutPoint} {amount : Int}
    (withdraws : Withdraws tx source amount) : 0 ≤ 5000000000 - amount :=
  Int.sub_nonneg_of_le withdraws.covered

theorem Withdraws.fee_le {tx : Transaction} {source : OutPoint} {amount : Int}
    (withdraws : Withdraws tx source amount) : 5000000000 - amount ≤ 5000000000 :=
  Int.sub_le_self 5000000000 withdraws.positive

section Withdrawal

variable {chain : Chain} {tx : Transaction} {script : Bytes} {place : Nat} {amount : Int}
variable (withdraws : Withdraws tx (source script place) amount) (fixed : chain.rules = rules size)
variable (there : chain.coins.view (source script place) = some (coin script place))
variable (early : place < 150) (mature : place + 100 ≤ chain.height + 1)

include withdraws fixed there early mature

omit withdraws fixed there mature in
theorem maturityDepth_eq : (rules size).params.maturityDepth place = 100 := by
  have low : ¬ 1450 ≤ place := by omega
  change (if decide (1450 ≤ place) = true then 240 else 100) = 100
  rw [if_neg (by simpa using low)]

theorem nextFee_of_mature :
    tx.fee chain.coins.view chain.rules.params (chain.height + 1) = .ok (5000000000 - amount) := by
  have least := withdraws.positive
  have most := withdraws.covered
  have total : chain.coins.view.total (tx.inputs.map TxInput.outpoint) = 5000000000 := by
    rw [withdraws.inputs, CoinView.total_cons, CoinView.total_nil, CoinView.value_of_some there]
    rfl
  have paid : tx.totalOutput = amount := by
    rw [Transaction.totalOutput_eq, withdraws.outputs]
    exact Money.wrap_eq_self_iff.mpr (by omega)
  have deep : (coin script place).isSpendableAt chain.rules.params (chain.height + 1) = true := by
    refine Coin.isSpendableAt_iff.mpr fun _ => ?_
    rw [fixed]
    change (((rules size).params.maturityDepth place : Nat) : Int)
      ≤ ((chain.height + 1 : Nat) : Int) - place
    rw [maturityDepth_eq early]
    omega
  have ranged : inMoneyRange (coin script place).value.toInt = true := by
    change inMoneyRange 5000000000 = true
    decide
  rw [Transaction.fee_eq_ok_iff, total, withdraws.outputs, paid, withdraws.inputs]
  refine ⟨List.forall_mem_singleton.mpr ⟨_, there, deep, ranged⟩, by decide, by omega, ?_⟩
  exact (Money.wrap_eq_self_iff.mpr (by omega)).symm

/-- A pool that does not know the transaction, and in which nothing spends the same coin, admits
it. -/
theorem accept_of_mature {pool : Mempool} {checks : Nat} (absent : pool.contains tx.txid = false)
    (free : pool.spender? (source script place) = none)
    (scripts : tx.verifyScripts [coin script place] (chain.rules.relayFlags (chain.height + 1))
      = .ok checks) :
    pool.accept tx chain = .ok (pool.insert tx.txid tx (5000000000 - amount) checks) := by
  have coins : (tx.inputs.filterMap fun input => chain.coins.view input.outpoint)
      = [coin script place] := by
    have named : tx.inputs.filterMap (fun input => chain.coins.view input.outpoint)
        = (tx.inputs.map TxInput.outpoint).filterMap chain.coins.view := by
      rw [List.filterMap_map]
      rfl
    rw [named, withdraws.inputs, List.filterMap_cons_some there, List.filterMap_nil]
  refine Mempool.accept_eq_ok_iff.mpr ⟨absent, withdraws.check, withdraws.ordinary, ?_, _, checks,
    ?_, rfl⟩
  · intro input given
    have only : input.outpoint ∈ [source script place] :=
      withdraws.inputs ▸ List.mem_map_of_mem given
    rw [List.mem_singleton.mp only]
    exact free
  · have paid := nextFee_of_mature withdraws fixed there early mature
    refine Mempool.checkSpends_eq_ok_iff.mpr ⟨paid, ?_⟩
    rw [coins]
    exact scripts

omit mature in
theorem isFundedBy_iff_mature :
    Mempool.isFundedBy tx chain = true ↔ place + 100 ≤ chain.height + 1 := by
  constructor
  · intro funded
    rw [Mempool.isFundedBy] at funded
    split at funded
    · rename_i fee paid
      obtain ⟨can, -⟩ := Transaction.fee_eq_ok_iff.mp paid
      rw [withdraws.inputs, List.forall_mem_singleton] at can
      obtain ⟨held, there', deep, -⟩ := can
      obtain rfl := Option.some.inj (there.symm.trans there')
      have depth := Coin.isSpendableAt_iff.mp deep rfl
      rw [fixed] at depth
      change (((rules size).params.maturityDepth place : Nat) : Int)
        ≤ ((chain.height + 1 : Nat) : Int) - place at depth
      rw [maturityDepth_eq early] at depth
      omega
    · cases funded
  · intro mature
    rw [Mempool.isFundedBy, nextFee_of_mature withdraws fixed there early mature]

end Withdrawal

/-- A pool with a single withdrawal. -/
def waiting (tx : Transaction) (amount : Int) (checks : Nat) : Mempool :=
  Mempool.empty.insert tx.txid tx (5000000000 - amount) checks

/-- The coinbase of the block that takes a withdrawal. -/
def newest (height : Nat) (script : Bytes) (amount : Int) : Transaction :=
  Coinbase.build height [⟨Int64.ofInt (10000000000 - amount), script⟩]

theorem transactions_waiting (tx : Transaction) (amount : Int) (checks : Nat) :
    (waiting tx amount checks).transactions = [tx] :=
  Mempool.transactions_insert_empty _ _ _ _

/-- Whether hashes tell a withdrawal, the coinbase of the block that takes it and those of the
blocks below apart. -/
structure Tells (payee : Nat → Bytes) (count : Nat) (tx reward : Transaction) : Prop where
  taken : ∀ height, 0 < height → height ≤ count → (coinbase (payee height) height).txid ≠ tx.txid
  latest : ∀ height, 0 < height → height ≤ count →
    (coinbase (payee height) height).txid ≠ reward.txid
  both : reward.txid ≠ tx.txid

/-- Whether the next block can take a withdrawal, with what its scripts check and what the block
pays to. -/
structure Takeable (size : Nat) (payee : Nat → Bytes) (count place : Nat) (tx : Transaction)
    (amount : Int) (checks : Nat) (script : Bytes) : Prop where
  room : 2000 ≤ size
  early : count + 1 < 150
  payable : Payable payee count
  positive : 0 < place
  mature : place + 100 ≤ count + 1
  withdraws : Withdraws tx (source (payee place) place) amount
  scripts : tx.verifyScripts [coin (payee place) place] ((rules size).relayFlags (count + 1))
    = .ok checks
  short : script.length ≤ 100
  tells : Tells payee count tx (newest (count + 1) script amount)

/-- The block that takes a withdrawal. -/
def takingBlock (chain : Chain) (tx : Transaction) (amount : Int) (checks : Nat) (script : Bytes)
    (nonce : UInt32) : Block :=
  blockOn chain (waiting tx amount checks).transactions script nonce

namespace Takeable

variable {payee : Nat → Bytes} {count place checks : Nat} {chain : Chain} {tx : Transaction}
variable {amount : Int} {script : Bytes}
variable (takeable : Takeable size payee count place tx amount checks script)
variable (solitary : Solitary size payee count chain)

include takeable solitary

theorem view_source : chain.coins.view (source (payee place) place) =
    some (coin (payee place) place) := by
  have mature := takeable.mature
  exact solitary.view_source takeable.positive (by omega)

theorem accept : Mempool.empty.accept tx chain = .ok (waiting tx amount checks) := by
  have early := takeable.early
  have mature := takeable.mature
  have there := takeable.view_source solitary
  refine accept_of_mature takeable.withdraws solitary.rules_eq there (by omega) ?_ rfl rfl ?_
  · rw [solitary.height]
    exact mature
  · rw [solitary.rules_eq, solitary.height]
    exact takeable.scripts

theorem selection_eq : chain.selection (waiting tx amount checks).transactions
    = [(tx, 5000000000 - amount)] := by
  have early := takeable.early
  have mature := takeable.mature
  have there := takeable.view_source solitary
  have paid := nextFee_of_mature takeable.withdraws solitary.rules_eq there (by omega)
    (by rw [solitary.height]; exact mature)
  have fits : ¬ chain.rules.config.maxBlockSize - Assembly.reservedSize < 0 + tx.size := by
    have room := takeable.room
    have small := takeable.withdraws.small
    rw [solitary.rules_eq]
    change ¬ size - 1000 < 0 + tx.size
    omega
  have chosen : Assembly.select chain (chain.rules.config.maxBlockSize - Assembly.reservedSize) 0
      [tx] = [(tx, 5000000000 - amount)] := by
    rw [Assembly.select, takeable.withdraws.ordinary, Bool.false_or, if_neg (by simpa using fits),
      paid]
    rfl
  -- A single transaction is in order; sorting more than one does not compute.
  rw [transactions_waiting, Chain.selection, chosen, Assembly.sort, List.map_singleton,
    List.mergeSort_singleton]
  rfl

theorem fees_eq :
    Money.sum ((chain.selection (waiting tx amount checks).transactions).map Prod.snd)
      = 5000000000 - amount := by
  have least := takeable.withdraws.fee_nonneg
  have most := takeable.withdraws.fee_le
  have total : Money.total ([(tx, 5000000000 - amount)].map Prod.snd) = 5000000000 - amount :=
    Int.add_zero _
  rw [takeable.selection_eq solitary, Money.sum_eq_wrap, total]
  exact Money.wrap_eq_self_iff.mpr (by omega)

theorem canMine :
    chain.CanMine (waiting tx amount checks) script (genesisTime + (count + 1) : Nat) := by
  have accepted := takeable.accept solitary
  have ranged := solitary.ranged_newReward takeable.early (takeable.fees_eq solitary)
    takeable.withdraws.fee_nonneg takeable.withdraws.fee_le
  exact solitary.canMine takeable.room takeable.early takeable.short (.accept .empty accepted)
    ((Mempool.admittedOn_empty chain).accept accepted) ranged

theorem sharesFairly : chain.SharesFairly (waiting tx amount checks).transactions := by
  exact solitary.sharesFairly takeable.early (takeable.fees_eq solitary)
    takeable.withdraws.fee_nonneg takeable.withdraws.fee_le

section Block

variable (nonce : UInt32)

theorem transactions_eq : (takingBlock chain tx amount checks script nonce).transactions
    = [newest (count + 1) script amount, tx] := by
  have same := solitary.newCoinbase_eq takeable.early (takeable.fees_eq solitary)
    takeable.withdraws.fee_nonneg takeable.withdraws.fee_le script
  have reward : 5000000000 + (5000000000 - amount) = 10000000000 - amount := by omega
  rw [takingBlock, blockOn, Chain.blockWith, same, takeable.selection_eq solitary, reward]
  rfl

theorem ordinary_eq : (takingBlock chain tx amount checks script nonce).ordinary = [tx] := by
  rw [takingBlock, blockOn, Chain.ordinary_blockWith, takeable.selection_eq solitary]
  rfl

theorem spent_eq :
    (takingBlock chain tx amount checks script nonce).spent = [source (payee place) place] := by
  rw [Block.spent_eq_named, takeable.ordinary_eq solitary]
  change tx.inputs.map TxInput.outpoint ++ [] = _
  rw [takeable.withdraws.inputs, List.append_nil]

theorem tellsApart : chain.TellsApart (takingBlock chain tx amount checks script nonce) := by
  have payable := takeable.payable
  have tells := takeable.tells
  have shape := takeable.transactions_eq solitary nonce
  constructor
  · have kinds : ∀ other ∈ chain.transactions
          ++ (takingBlock chain tx amount checks script nonce).transactions,
        (∃ height, 0 < height ∧ height ≤ count ∧ other = coinbase (payee height) height) ∨
        other = newest (count + 1) script amount ∨ other = tx := by
      intro other held
      rw [shape] at held
      rcases List.mem_append.mp held with old | new
      · exact Or.inl (solitary.transactions other old)
      · exact Or.inr (by simpa using new)
    intro first held second held' same
    rcases kinds first held with ⟨a, started, below, rfl⟩ | rfl | rfl <;>
      rcases kinds second held' with ⟨b, started', below', rfl⟩ | rfl | rfl
    · rw [payable.distinct a b started below started' below' same]
    · exact absurd same (tells.latest a started below)
    · exact absurd same (tells.taken a started below)
    · exact absurd same.symm (tells.latest b started' below')
    · rfl
    · exact absurd same tells.both
    · exact absurd same.symm (tells.taken b started' below')
    · exact absurd same.symm tells.both
    · rfl
  · rw [Block.txids, shape]
    exact Merkle.isInjectiveOn_pair _ _

theorem not_spendsCoinbase :
    ¬ (takingBlock chain tx amount checks script nonce).SpendsCoinbase := by
  have mature := takeable.mature
  rintro ⟨first, listed, -, outpoint, spent, own⟩
  rw [takeable.spent_eq solitary, List.mem_singleton] at spent
  rw [takeable.transactions_eq solitary] at listed
  subst spent
  -- The spent output is that of a coinbase below, which is none of the two transactions.
  rcases List.mem_cons.mp listed with rfl | other
  · exact takeable.tells.latest place takeable.positive (by omega) own
  · obtain rfl := List.mem_singleton.mp other
    exact takeable.tells.taken place takeable.positive (by omega) own

theorem fitsBudget_iff : (waiting tx amount checks).FitsBudget chain
    (takingBlock chain tx amount checks script nonce) ↔ checks ≤ size / 141 := by
  have enforced : ((rules size).blockFlags (count + 1)).enforceSigChecks = true := rfl
  have recorded : (waiting tx amount checks).sigChecksOf [tx] = checks := by
    rw [Mempool.sigChecksOf, List.map_singleton, waiting, Mempool.get?_insert, if_pos rfl]
    exact Nat.add_zero checks
  rw [Mempool.FitsBudget, takeable.ordinary_eq solitary, recorded, solitary.rules_eq,
    solitary.height]
  exact ⟨fun fits => fits enforced, fun fits _ => fits⟩

/-- The block that takes a withdrawal connects exactly where blocks may have as many signature
checks. -/
theorem connect_isOk_iff :
    (chain.connect (takingBlock chain tx amount checks script nonce)).isOk = true ↔
      checks ≤ size / 141 := by
  have foreign := takeable.not_spendsCoinbase solitary nonce
  have fair := takeable.sharesFairly solitary
  refine (solitary.connect_isOk_iff (takeable.canMine solitary) takeable.early
    (takeable.tellsApart solitary nonce)).trans ?_
  refine Iff.trans ?_ (takeable.fitsBudget_iff solitary nonce)
  exact ⟨fun ⟨fits, _⟩ => fits, fun fits => ⟨fits, foreign, fair⟩⟩

theorem exists_extends (fits : checks ≤ size / 141) :
    ∃ connected, chain.Extends (takingBlock chain tx amount checks script nonce) connected := by
  obtain ⟨update, done⟩ :=
    Outcome.eq_ok_of_isOk ((takeable.connect_isOk_iff solitary nonce).mpr fits)
  obtain ⟨connected, extended, -⟩ := Chain.connect_eq_ok_iff.mp done
  exact ⟨connected, extended⟩

/-- The block overwrites no coin. -/
theorem spares : (takingBlock chain tx amount checks script nonce).Spares chain.coins := by
  intro outpoint lost
  have own := lost.hash_mem_txids
  rw [Block.txids, takeable.transactions_eq solitary] at own
  refine Option.eq_none_iff_forall_ne_some.mpr fun held there => ?_
  obtain ⟨height, started, below, rfl, -⟩ := (solitary.coins outpoint held).mp there
  rcases List.mem_cons.mp own with latest | taken
  · exact takeable.tells.latest height started below latest
  · exact takeable.tells.taken height started below (List.mem_singleton.mp taken)

/-- It leaves all coins but the one that is withdrawn. -/
theorem view_taken {connected : Connected}
    (fits : chain.Extends (takingBlock chain tx amount checks script nonce) connected)
    {height : Nat} (started : 0 < height) (below : height ≤ count)
    (other : source (payee height) height ≠ source (payee place) place) :
    connected.coins.view (source (payee height) height) = some (coin (payee height) height) := by
  have there := solitary.view_source started below
  have foreign : source (payee height) height ∉
      (takingBlock chain tx amount checks script nonce).outpoints := by
    intro own
    have gone := takeable.spares solitary nonce _ (Or.inl own)
    rw [there] at gone
    cases gone
  rw [Block.coins_of_connect fits.accepted, Block.view_apply, takeable.spent_eq solitary,
    if_neg (by simpa using other), Block.output?_eq_none_iff.mpr foreign, Option.none_or, there]

end Block

end Takeable

end PrivateNetwork

end ScryptLedger
