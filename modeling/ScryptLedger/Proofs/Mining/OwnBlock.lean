import Mathlib.Data.List.Flatten
import ScryptLedger.Proofs.Block.Spend
import ScryptLedger.Proofs.Chain.Provenance
import ScryptLedger.Proofs.Mempool.Pool
import ScryptLedger.Proofs.Mining.NewBlock
import ScryptLedger.Proofs.Pow.Retarget

/-!
# When a new block connects

A node makes a block out of its pool by looking at coins and sizes. The block
connects to the coins exactly when three more things hold that nobody looked at:
the signature checks of what was taken fit in the budget of a block, nothing that
was taken spends an older output under the identity of the new coinbase, and no
share that the coinbase owes is negative. Hashes are taken to tell apart what they
have to: the transactions of the chain and of the new block, and the nodes of its
tree.
-/

namespace ScryptLedger

/-- The block with another nonce. -/
def Block.withNonce (block : Block) (nonce : UInt32) : Block :=
  { block with header := { block.header with nonce := nonce } }

/-- The transactions of the blocks above the genesis block. -/
def Chain.transactions (chain : Chain) : List Transaction :=
  chain.above.flatMap (·.block.transactions)

section General

variable [Primitives]

/-- The signature checks that a pool has recorded for some transactions. -/
def Mempool.sigChecksOf (pool : Mempool) (txs : List Transaction) : Nat :=
  (txs.map fun tx => ((pool.get? tx.txid).map MempoolEntry.sigChecks).getD 0).sum

/-- Whether the signature checks that a pool has recorded for a block on top of a chain fit in the
budget, if there is one. -/
def Mempool.FitsBudget (pool : Mempool) (chain : Chain) (block : Block) : Prop :=
  (chain.rules.blockFlags (chain.height + 1)).enforceSigChecks = true →
    pool.sigChecksOf block.ordinary ≤ maxBlockSigChecks chain.rules.config.maxBlockSize

/-- Whether a block spends an output under the identity of its own coinbase. -/
def Block.SpendsCoinbase (block : Block) : Prop :=
  ∃ coinbase ∈ block.transactions, coinbase.isCoinbase = true ∧
    ∃ outpoint ∈ block.spent, outpoint.hash = coinbase.txid

namespace Mempool

variable {pool : Mempool} {chain : Chain}

/-- The entries of what a block takes from a pool. -/
theorem entries_of_taken (consistent : pool.Consistent) (admitted : pool.AdmittedOn chain)
    (taken : List (Transaction × Int))
    (each : ∀ spend ∈ taken, spend.1 ∈ pool.transactions ∧
      spend.1.fee chain.coins.view chain.rules.params (chain.height + 1) = .ok spend.2) :
    ∃ entries : List MempoolEntry, entries.map MempoolEntry.tx = taken.map Prod.fst ∧
      entries.map MempoolEntry.fee = taken.map Prod.snd ∧
      ∀ entry ∈ entries, pool.get? entry.tx.txid = some entry := by
  induction taken with
  | nil => exact ⟨[], rfl, rfl, fun _ held => nomatch held⟩
  | cons spend rest ih =>
    obtain ⟨⟨waits, left⟩, each⟩ := List.forall_mem_cons.mp each
    obtain ⟨entries, txs, fees, stored⟩ := ih each
    obtain ⟨entry, found, same⟩ := mem_transactions consistent waits
    obtain ⟨paid, -⟩ := checkSpends_eq_ok_iff.mp (admitted.found consistent found).2.2
    rw [same, left] at paid
    refine ⟨entry :: entries, ?_, ?_, List.forall_mem_cons.mpr ⟨by rwa [same], stored⟩⟩
    · rw [List.map_cons, List.map_cons, same, txs]
    · rw [List.map_cons, List.map_cons, fees, Except.ok.inj paid]

theorem sigChecksOf_entries {entries : List MempoolEntry}
    (stored : ∀ entry ∈ entries, pool.get? entry.tx.txid = some entry) :
    pool.sigChecksOf (entries.map MempoolEntry.tx) = (entries.map MempoolEntry.sigChecks).sum := by
  rw [sigChecksOf, List.map_map]
  refine congrArg List.sum (List.map_congr_left fun entry held => ?_)
  rw [Function.comp_apply, stored entry held]
  rfl

end Mempool

namespace Chain

/-- Whether hashes tell the transactions of a chain and of a block apart, and the nodes of the
block's tree. -/
structure TellsApart (chain : Chain) (block : Block) : Prop where
  txids : ∀ first ∈ chain.transactions ++ block.transactions,
    ∀ second ∈ chain.transactions ++ block.transactions, first.txid = second.txid → first = second
  nodes : Merkle.IsInjectiveOn block.txids

section Coins

variable {chain : Chain} {block : Block} (known : AllLeftBy chain.above chain.coins)
variable (apart : chain.TellsApart block) {outpoint : OutPoint} {coin : Coin}

include known apart

/-- The output that a coin of the chain stands for is that of any transaction of the block with the
same identity. -/
theorem output_of_own (held : chain.coins.view outpoint = some coin) {tx : Transaction}
    (listed : tx ∈ block.transactions) (own : tx.txid = outpoint.hash) :
    tx.outputs[outpoint.index.toNat]? = some ⟨coin.value, coin.scriptPubKey⟩ ∧
      coin.isCoinbase = tx.isCoinbase := by
  obtain ⟨later, entry, earlier, split, -, ⟨origin, made, named, output, kind⟩, -⟩ :=
    known outpoint coin held
  have among : origin ∈ chain.transactions := by
    refine List.mem_flatMap.mpr ⟨entry, ?_, made⟩
    rw [split]
    exact List.mem_append_right _ List.mem_cons_self
  obtain rfl := apart.txids origin (List.mem_append_left _ among) tx
    (List.mem_append_right _ listed) (named.trans own.symm)
  exact ⟨output, kind⟩

/-- The block shows a coin of the chain as it is, unless it creates it anew as a coinbase's. -/
theorem shows_of_foreign (passes : ∀ tx ∈ block.transactions, tx.check = .ok ())
    (held : chain.coins.view outpoint = some coin)
    (foreign : ∀ tx ∈ block.transactions, tx.isCoinbase = true → tx.txid ≠ outpoint.hash)
    (height : Nat) :
    (BlockView.start chain.coins block height).coin.Shows chain.coins.view chain.rules.params height
      outpoint := by
  have there := Block.view_create_created block chain.coins height outpoint
  rw [← BlockView.coin_start] at there
  cases made : block.output? height outpoint with
  | none =>
    rw [made, Option.none_or, held] at there
    exact ⟨coin, coin, there, held, rfl, id⟩
  | some seen =>
    rw [made, Option.some_or] at there
    obtain ⟨⟨tx, listed, own, output, kind⟩, -⟩ := Block.makes_of_output? passes made
    obtain ⟨original, -⟩ := output_of_own known apart held listed own
    have same : seen.face = coin.face := by
      rw [original] at output
      obtain ⟨value, script⟩ := TxOutput.mk.inj (Option.some.inj output)
      exact Prod.ext value.symm script.symm
    have ordinary : seen.isCoinbase = false := by
      rw [kind, Bool.eq_false_iff]
      exact fun coinbase => foreign tx listed coinbase own
    refine ⟨seen, coin, there, held, same, fun _ => ?_⟩
    rw [Coin.isSpendableAt, ordinary, Bool.not_false, Bool.true_or]

/-- A block that connects spends nothing under the identity of its coinbase: it would see the coin
that it has just created. -/
theorem not_spendsCoinbase_of_connect {winner : Option Bytes} {connected : Connected}
    (deep : ∀ height, 0 < chain.rules.params.maturityDepth height)
    (spends : ∀ outpoint ∈ block.spent, ∃ coin, chain.coins.view outpoint = some coin)
    (accepted : block.connect chain.rules (chain.height + 1) winner chain.coins = .ok connected) :
    ¬ block.SpendsCoinbase := by
  rintro ⟨coinbase, listed, kind, outpoint, spent, own⟩
  obtain ⟨coin, held⟩ := spends outpoint spent
  obtain ⟨output, -⟩ := output_of_own known apart held listed own.symm
  obtain ⟨seen, there, mature, -⟩ := Block.canSpend_of_connect accepted outpoint spent
  rw [Block.view_create_created] at there
  cases made : block.output? (chain.height + 1) outpoint with
  | none =>
    have inside : outpoint.index.toNat < coinbase.outputs.length :=
      (List.getElem?_eq_some_iff.mp output).1
    have named : outpoint = ⟨coinbase.txid, UInt32.ofNat outpoint.index.toNat⟩ := by
      rw [← own, UInt32.ofNat_toNat]
    exact Block.output?_eq_none_iff.mp made (List.mem_flatMap.mpr
      ⟨coinbase, listed, Transaction.mem_outpoints.mpr ⟨_, inside, named⟩⟩)
  | some new =>
    rw [made, Option.some_or] at there
    obtain rfl := Option.some.inj there
    obtain ⟨⟨tx, listed', own', -, kind'⟩, place⟩ :=
      Block.makes_of_output? (Block.passes_of_connect accepted) made
    obtain rfl := apart.txids tx (List.mem_append_right _ listed') coinbase
      (List.mem_append_right _ listed) (own'.trans own)
    have depth := Coin.isSpendableAt_iff.mp mature (kind'.trans kind)
    have positive := deep new.height
    rw [place] at depth positive
    omega

end Coins

section Own

variable {chain : Chain} {pool : Mempool} {script : Bytes} {time bits nonce : UInt32}

/-- What no two transactions of a pool share, no two that a block takes from it share. -/
theorem nodup_flatMap_selection {Item : Type} {items : Transaction → List Item}
    (distinct : (pool.transactions.flatMap items).Nodup) :
    (((chain.selection pool.transactions).map Prod.fst).flatMap items).Nodup := by
  obtain ⟨kept, reordered, fewer⟩ : List.Subperm
      ((chain.selection pool.transactions).map Prod.fst) pool.transactions := subperm_selection
  have sparser : (kept.flatMap items).Nodup := distinct.sublist (fewer.flatMap items)
  exact (reordered.flatMap_right items).nodup_iff.mp sparser

variable {block : Block} (made : block = chain.blockWith pool.transactions script time bits nonce)

include made

theorem ordinary_of_made :
    block.ordinary = (chain.selection pool.transactions).map Prod.fst := by
  rw [made]
  exact ordinary_blockWith

theorem nodup_txids_of_made (consistent : pool.Consistent) (apart : chain.TellsApart block) :
    block.txids.Nodup := by
  subst made
  have distinct :
      (((chain.selection pool.transactions).map Prod.fst).map Transaction.txid).Nodup := by
    rw [List.map_eq_flatMap]
    refine nodup_flatMap_selection ?_
    rw [← List.map_eq_flatMap]
    exact Mempool.nodup_txids consistent
  refine List.nodup_cons.mpr ⟨fun again => ?_, distinct⟩
  obtain ⟨tx, taken, same⟩ := List.mem_map.mp again
  obtain ⟨spend, chosen, rfl⟩ := List.mem_map.mp taken
  -- A coinbase is none of the ordinary transactions, and hashes tell the two apart.
  have own := apart.txids spend.1 (List.mem_append_right _ (List.mem_cons_of_mem _ taken))
    (chain.newCoinbase pool.transactions script) (List.mem_append_right _ List.mem_cons_self) same
  have kind := (mem_of_mem_selection chosen).2.1
  rw [own, newCoinbase, Coinbase.isCoinbase_build] at kind
  cases kind

/-- What a new block spends are coins of the chain. -/
theorem exists_coin_of_spent {outpoint : OutPoint} (spent : outpoint ∈ block.spent) :
    ∃ coin, chain.coins.view outpoint = some coin := by
  rw [Block.spent_eq_named, ordinary_of_made made] at spent
  obtain ⟨tx, taken, named⟩ := List.mem_flatMap.mp spent
  obtain ⟨spend, chosen, rfl⟩ := List.mem_map.mp taken
  obtain ⟨coin, held, -⟩ :=
    (Transaction.fee_eq_ok_iff.mp (mem_of_mem_selection chosen).2.2).1 outpoint named
  exact ⟨coin, held⟩

variable (known : AllLeftBy chain.above chain.coins) (consistent : pool.Consistent)
variable (admitted : pool.AdmittedOn chain) (apart : chain.TellsApart block)

include known consistent admitted apart

/-- What a new block takes passes through its view as it passed when it was admitted, unless it
spends under the identity of the coinbase. -/
theorem spendAll_of_made (passes : ∀ tx ∈ block.transactions, tx.check = .ok ())
    (foreign : ¬ block.SpendsCoinbase) : ∃ spends,
    Block.spendAll chain.rules.params (chain.height + 1)
      (BlockView.start chain.coins block (chain.height + 1)) block.ordinary = .ok spends ∧
    Money.sum (spends.map fun (_, fee, _) => fee) =
      Money.sum ((chain.selection pool.transactions).map Prod.snd) ∧
    Block.verifyScripts (chain.rules.blockFlags (chain.height + 1)) spends =
      .ok (pool.sigChecksOf block.ordinary) := by
  obtain ⟨entries, txs, fees, stored⟩ := Mempool.entries_of_taken consistent admitted
    (chain.selection pool.transactions) fun spend chosen =>
      ⟨(mem_of_mem_selection chosen).1, (mem_of_mem_selection chosen).2.2⟩
  have taken : entries.map MempoolEntry.tx = block.ordinary := by
    rw [txs, ordinary_of_made made]
  have passed : ∀ entry ∈ entries, Mempool.checkSpends entry.tx chain
      = .ok (entry.fee, entry.sigChecks) := fun entry held =>
    (admitted.found consistent (stored entry held)).2.2
  rw [← taken, ← fees, Mempool.sigChecksOf_entries stored]
  have shows : ∀ outpoint ∈ Transaction.named (entries.map MempoolEntry.tx),
      (BlockView.start chain.coins block (chain.height + 1)).coin.Shows chain.coins.view
        chain.rules.params (chain.height + 1) outpoint := by
    intro outpoint named
    rw [taken, ← Block.spent_eq_named] at named
    obtain ⟨coin, held⟩ := exists_coin_of_spent made named
    refine shows_of_foreign known apart passes held ?_ (chain.height + 1)
    intro tx listed coinbase own
    exact foreign ⟨tx, listed, coinbase, outpoint, named, own.symm⟩
  have distinct : (Transaction.named (entries.map MempoolEntry.tx)).Nodup := by
    rw [txs]
    exact nodup_flatMap_selection (Mempool.nodup_named consistent)
  obtain ⟨spends, done, paid, checks⟩ := Block.spendAll_of_shows
    (fun entry held => (Mempool.checkSpends_eq_ok_iff.mp (passed entry held)).1)
    (fun entry held => Mempool.verifyScripts_later
      (Mempool.checkSpends_eq_ok_iff.mp (passed entry held)).2 (chain.height + 1))
    shows distinct
  exact ⟨spends, done, congrArg Money.sum paid, checks⟩

variable (small : chain.SmallCoinbase pool.transactions script)

include small

/-- The new block connects to the coins of its chain exactly when its signature checks fit, it
spends nothing under the identity of its coinbase, and it shares its reward fairly. -/
theorem connect_made_iff (room : 2000 ≤ chain.rules.config.maxBlockSize)
    (solved : block.header.isSolved chain.rules.params = true) :
    (∃ connected, block.connect chain.rules (chain.height + 1)
        (chain.stakingWinner? chain.tip.hash) chain.coins = .ok connected) ↔
      pool.FitsBudget chain block ∧ ¬ block.SpendsCoinbase ∧
        chain.SharesFairly pool.transactions := by
  have shape : block.transactions =
      chain.newCoinbase pool.transactions script :: block.ordinary := by
    rw [ordinary_of_made made, made]
    rfl
  constructor
  · rintro ⟨connected, accepted⟩
    have passes := Block.passes_of_connect accepted
    have foreign := not_spendsCoinbase_of_connect known apart small.mineable.matures
      (fun outpoint spent => exists_coin_of_spent made spent) accepted
    refine ⟨fun enforced => ?_, foreign, small.check_iff.mp (passes _ ?_)⟩
    · -- Validation has one outcome, so that what it counted is what the pool had recorded.
      obtain ⟨spends, done, -, checks⟩ :=
        spendAll_of_made made known consistent admitted apart passes foreign
      obtain ⟨-, coinbase, others, spends', shape', done', checks', bounded, -⟩ :=
        Block.connect_eq_ok_iff.mp accepted
      obtain rfl : block.ordinary = others := (List.cons.inj (shape.symm.trans shape')).2
      obtain rfl := Except.ok.inj (done.symm.trans done')
      rw [Except.ok.inj (checks.symm.trans checks')]
      exact bounded enforced
    · rw [shape]
      exact List.mem_cons_self
  · rintro ⟨bounded, foreign, fair⟩
    have others : ∀ tx ∈ pool.transactions, tx.check = .ok () :=
      fun _ waits => admitted.check consistent waits
    have previous : block.header.previous = chain.tip.hash := by
      rw [made]
      rfl
    have checked : block.check chain.rules.params chain.rules.config = .ok () := by
      have distinct := nodup_txids_of_made made consistent apart
      have injective := apart.nodes
      subst made
      exact small.check_blockWith room fair others distinct injective solved
    have passes := (Block.check_eq_ok_iff.mp checked).2.2.2.2.1
    obtain ⟨spends, done, paid, checks⟩ :=
      spendAll_of_made made known consistent admitted apart passes foreign
    refine ⟨⟨_, _, Money.sum ((chain.selection pool.transactions).map Prod.snd), _⟩,
      Block.connect_eq_ok_iff.mpr
        ⟨checked, _, _, spends, shape, done, checks, bounded, ?_, paid.symm, rfl⟩⟩
    rw [previous]
    exact small.checkReward_eq

end Own

/-- What a node needs to make a block out of a pool: room, short scripts, a time that is late enough
and can be encoded, a pool that was filled on top of the chain, and a reward within all money. -/
structure CanMine (chain : Chain) (pool : Mempool) (script : Bytes) (time : Int) : Prop where
  room : 2000 ≤ chain.rules.config.maxBlockSize
  payout : script.length ≤ 100
  winner : ∀ winner, chain.stakingWinner? chain.tip.hash = some winner → winner.length ≤ 100
  late : chain.medianTimePast < time
  timed : time < UInt32.size
  reached : pool.Reached
  admitted : pool.AdmittedOn chain
  reward : ∀ assembly, Assembly.of chain pool.transactions chain.rules.config time = .ok assembly →
    inMoneyRange assembly.reward = true

section Mine

variable {config : NodeConfig} {requests : List ChainRequest} {chain : Chain} {pool : Mempool}
variable {script : Bytes} {time : Int}
variable (grown : (Chain.new (Rules.ofConfig config)).run requests = chain)
variable (can : chain.CanMine pool script time)

include grown can

theorem smallCoinbase_of_canMine : chain.SmallCoinbase pool.transactions script where
  mineable := grown ▸ mineable_run config requests
  height := grown ▸ height_succ_lt_run _ requests
  payout := can.payout
  winner := can.winner
  reward := by
    obtain ⟨bits, work⟩ := chain.nextWork_succeeds time
    exact can.reward _ (assembly_of_nextWork work)

theorem newBlock_of_canMine : ∃ bits, chain.nextWork time = .ok bits ∧
    chain.newBlock pool.transactions script time =
      .ok (chain.blockWith pool.transactions script (UInt32.ofNat time.toNat) bits 0) := by
  obtain ⟨bits, work⟩ := chain.nextWork_succeeds time
  have small := smallCoinbase_of_canMine grown can
  have early : 0 ≤ time := Int.le_trans (Int.natCast_nonneg _) (Int.le_of_lt can.late)
  exact ⟨bits, work, newBlock_of_nextWork small.mineable work early can.timed⟩

theorem connect_isOk_iff {bits nonce : UInt32} {block : Block}
    (made : block = chain.blockWith pool.transactions script (UInt32.ofNat time.toNat) bits nonce)
    (work : chain.nextWork time = .ok bits)
    (solved : block.header.isSolved chain.rules.params = true)
    (fresh : chain.contains block.hash = false)
    (allowed : chain.invalid.contains block.hash = false) (apart : chain.TellsApart block) :
    (chain.connect block).isOk = true ↔
      pool.FitsBudget chain block ∧ ¬ block.SpendsCoinbase ∧
        chain.SharesFairly pool.transactions := by
  subst made
  have known : AllLeftBy chain.above chain.coins := by
    rw [← grown]
    exact (levels_allLeftBy _ requests).top
  have number : ((UInt32.ofNat time.toNat).toNat : Int) = time := by
    have early : 0 ≤ time := Int.le_trans (Int.natCast_nonneg _) (Int.le_of_lt can.late)
    have inside := can.timed
    rw [UInt32.toNat_ofNat_of_lt' (by omega), Int.toNat_of_nonneg early]
  have placed : chain.checkPosition (chain.blockWith pool.transactions script
      (UInt32.ofNat time.toNat) bits nonce) = .ok () := by
    refine checkPosition_eq_ok_iff.mpr ⟨fresh, allowed, rfl, ?_, ?_⟩
    · have late := can.late
      rw [← number] at late
      exact Int.ofNat_lt.mp late
    · change chain.nextWork (UInt32.ofNat time.toNat).toNat = _
      rw [number]
      exact work
  refine Iff.trans ?_ (connect_made_iff rfl known can.reached.consistent can.admitted apart
    (smallCoinbase_of_canMine grown can) can.room solved)
  constructor
  · intro done
    obtain ⟨update, done⟩ := Outcome.eq_ok_of_isOk done
    obtain ⟨connected, fits, -⟩ := connect_eq_ok_iff.mp done
    exact ⟨connected, fits.accepted⟩
  · rintro ⟨connected, accepted⟩
    rw [connect_eq_ok_iff.mpr ⟨connected, ⟨placed, accepted⟩, rfl⟩]
    rfl

end Mine

end Chain

end General

end ScryptLedger
