import ScryptLedger.Proofs.Mining.Withdrawal

/-!
# Whether a node accepts the block it makes

What a node needs to make a block out of its pool does not suffice to accept
that block. It does as long as the pool stays within the budget of signature
checks, no coinbase comes twice and no share of the reward is negative; a
single admitted transaction can exceed the budget of small blocks, and then no
block is made that is accepted.
-/

namespace ScryptLedger

section General

variable [Primitives]

namespace Chain

/-- A node makes a block whenever it can. When its work is done, and it is neither on the chain nor
ruled out, the node accepts it exactly when the signature checks of what was taken fit in the
budget, nothing that was taken spends an older output under the identity of the new coinbase, and
no share that the new coinbase owes is negative. -/
theorem accepts_newBlock_iff {config : NodeConfig} {requests : List ChainRequest} {chain : Chain}
    {pool : Mempool} {script : Bytes} {time : Int}
    (grown : (Chain.new (Rules.ofConfig config)).run requests = chain)
    (can : chain.CanMine pool script time) :
    ∃ block, chain.newBlock pool.transactions script time = .ok block ∧
      ∀ nonce, (block.withNonce nonce).header.isSolved chain.rules.params = true →
        chain.contains (block.withNonce nonce).hash = false →
        chain.invalid.contains (block.withNonce nonce).hash = false →
        chain.TellsApart (block.withNonce nonce) →
          ((chain.connect (block.withNonce nonce)).isOk = true ↔
            pool.FitsBudget chain (block.withNonce nonce) ∧
              ¬ (block.withNonce nonce).SpendsCoinbase ∧
                chain.SharesFairly pool.transactions) := by
  obtain ⟨bits, work, made⟩ := newBlock_of_canMine grown can
  refine ⟨_, made, fun nonce solved fresh allowed apart => ?_⟩
  exact connect_isOk_iff grown can rfl work solved fresh allowed apart

end Chain

end General

/-! ## A pool that a node cannot get past

The first block of a chain pays to a script that asks for fifteen signature
checks, and a hundred blocks above it let its coin mature. The one transaction
that spends this coin is small, so that a new block takes it in any case.
-/

namespace Chain.Overloaded

local instance : Primitives := Primitives.transparent

open PrivateNetwork

/-- Asks for fifteen signature checks, each of the same signature of the same message. -/
def guard : Bytes := (List.replicate 14 [0x6f, 0xbb]).flatten ++ [0xba]

/-- The first block pays to the guard, and each later one to anyone. -/
def payee (height : Nat) : Bytes := if height = 1 then guard else [0x51]

/-- Spends the guarded coin, with a signature that all the checks share. -/
def payment : Transaction where
  version := 1
  inputs := [⟨source guard 1, Script.push (List.replicate 64 1) ++ Script.push [5]
    ++ Script.push (2 :: List.replicate 32 7), 0xffffffff⟩]
  outputs := [⟨4900000000, [0x51]⟩]
  lockTime := 0

/-- The pool with the payment. -/
def pool : Mempool := waiting payment 4900000000 15

theorem shownHeight_reward {height : Nat} (low : height < 128) :
    shownHeight (coinbase (payee height) height).txid = if height = 1 then 0 else height := by
  unfold payee
  split
  · rename_i first
    subst first
    decide +kernel
  · exact shownHeight_coinbase height low

theorem payable : Payable payee 101 where
  early := by decide
  short height := by
    unfold payee
    split
    · decide
    · decide
  distinct a b _ low _ low' same := by
    have shown := congrArg shownHeight same
    rw [shownHeight_reward (by omega), shownHeight_reward (by omega)] at shown
    split at shown <;> split at shown <;> omega

theorem withdraws : Withdraws payment (source (payee 1) 1) 4900000000 where
  check := Outcome.toOption_eq_some_iff.mp (by decide +kernel)
  ordinary := rfl
  inputs := rfl
  outputs := rfl
  positive := by decide
  covered := by decide
  small := by decide +kernel

theorem tells : Tells payee 101 payment (newest 102 [0x51] 4900000000) where
  taken height positive low same := by
    have shown := congrArg shownHeight same
    have none : shownHeight payment.txid = 0 := by decide +kernel
    rw [shownHeight_reward (by omega), none] at shown
    split at shown
    · rename_i first
      subst first
      exact absurd same (by decide +kernel)
    · omega
  latest height positive low same := by
    have shown := congrArg shownHeight same
    have last : shownHeight (newest 102 [0x51] 4900000000).txid = 102 := by decide +kernel
    rw [shownHeight_reward (by omega), last] at shown
    split at shown <;> omega
  both := by decide +kernel

theorem verifyScripts_payment (size : Nat) : payment.verifyScripts [coin (payee 1) 1]
    ((PrivateNetwork.rules size).relayFlags 102) = .ok 15 := by
  -- Scripts do not depend on the size of blocks.
  change payment.verifyScripts _ ((PrivateNetwork.rules 2000).relayFlags 102) = _
  exact Outcome.toOption_eq_some_iff.mp (by decide +kernel)

theorem takeable {size : Nat} (room : 2000 ≤ size) :
    Takeable size payee 101 1 payment 4900000000 15 [0x51] where
  room := room
  early := by decide
  payable := payable
  positive := by decide
  mature := by decide
  withdraws := withdraws
  scripts := verifyScripts_payment size
  short := by decide
  tells := tells

/-- Where blocks may have fifteen signature checks, the node accepts the block with any nonce. -/
theorem accepts_within_budget : ∃ requests chain,
    (Chain.new (Rules.ofConfig (config 2115))).run requests = chain ∧
      chain.CanMine pool [0x51] (genesisTime + 102 : Nat) ∧
      ∃ block, chain.newBlock pool.transactions [0x51] (genesisTime + 102 : Nat) = .ok block ∧
        ∀ nonce, (chain.connect (block.withNonce nonce)).isOk = true := by
  have takeable : Takeable 2115 payee 101 1 payment 4900000000 15 [0x51] := takeable (by decide)
  obtain ⟨chain, solitary⟩ := exists_solitary payable takeable.room (Nat.le_refl 101)
  obtain ⟨requests, reached⟩ := solitary.reached
  have can := takeable.canMine solitary
  obtain ⟨block, made, accepted⟩ := accepts_newBlock_iff reached can
  refine ⟨requests, chain, reached, can, block, made, fun nonce => ?_⟩
  obtain rfl := Except.ok.inj ((solitary.newBlock_eq (by decide) _ _).symm.trans made)
  obtain ⟨solved, fresh, allowed⟩ :=
    solitary.solved_and_fresh (by decide) pool.transactions [0x51] nonce
  have apart := takeable.tellsApart solitary nonce
  refine (accepted nonce solved fresh allowed apart).mpr ⟨?_, ?_, ?_⟩
  · exact (takeable.fitsBudget_iff solitary nonce).mpr (by decide)
  · exact takeable.not_spendsCoinbase solitary nonce
  · exact takeable.sharesFairly solitary

/-- Where they may have fourteen, the node refuses the block that it has made, whatever its nonce,
although it could be made and its work is done. -/
theorem refuses_over_budget : ∃ requests chain,
    (Chain.new (Rules.ofConfig (config 2000))).run requests = chain ∧
      (config 2000).validate = .ok () ∧ chain.CanMine pool [0x51] (genesisTime + 102 : Nat) ∧
      ∃ block, chain.newBlock pool.transactions [0x51] (genesisTime + 102 : Nat) = .ok block ∧
        ∀ nonce, (block.withNonce nonce).header.isSolved chain.rules.params = true ∧
          chain.contains (block.withNonce nonce).hash = false ∧
          chain.invalid.contains (block.withNonce nonce).hash = false ∧
          (chain.connect (block.withNonce nonce)).isOk = false := by
  have takeable : Takeable 2000 payee 101 1 payment 4900000000 15 [0x51] := takeable (by decide)
  obtain ⟨chain, solitary⟩ := exists_solitary payable takeable.room (Nat.le_refl 101)
  obtain ⟨requests, reached⟩ := solitary.reached
  have can := takeable.canMine solitary
  have made := solitary.newBlock_eq (by decide) pool.transactions [0x51]
  refine ⟨requests, chain, reached, rfl, can, _, made, fun nonce => ?_⟩
  obtain ⟨solved, fresh, allowed⟩ :=
    solitary.solved_and_fresh (by decide) pool.transactions [0x51] nonce
  refine ⟨solved, fresh, allowed, Bool.eq_false_iff.mpr fun accepted => ?_⟩
  exact absurd ((takeable.connect_isOk_iff solitary nonce).mp accepted) (by decide)

end Chain.Overloaded

end ScryptLedger
