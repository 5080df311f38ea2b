import ScryptLedger.Block.Check
import ScryptLedger.Proofs.Transaction.Check

/-!
# Blocks that pass on their own

What it takes for a block to pass the checks that need no chain. A block that
passes consists of a coinbase and ordinary transactions, each of which passes
by itself.
-/

namespace ScryptLedger.Block

theorem checkTransactions_eq_ok_iff {txs : List Transaction} :
    checkTransactions txs = .ok () ↔ ∀ tx ∈ txs, tx.check = .ok () := by
  induction txs with
  | nil => simp [checkTransactions]
  | cons tx rest ih =>
    rw [checkTransactions, List.forall_mem_cons, ← ih]
    cases tx.check with
    | error fault => simp
    | ok done => cases done; simp

theorem checkSingleCoinbase_cons_eq_ok_iff {coinbase : Transaction} {others : List Transaction} :
    checkSingleCoinbase (coinbase :: others) = .ok () ↔
      coinbase.isCoinbase = true ∧ ∀ tx ∈ others, tx.isCoinbase = false := by
  simp [checkSingleCoinbase]

variable [Primitives]

theorem checkMerkleRoot_eq_ok_iff {block : Block} :
    block.checkMerkleRoot = .ok () ↔
      Merkle.rootAndMutation block.txids = (block.header.merkleRoot, false) := by
  rw [checkMerkleRoot]
  obtain ⟨root, mutated⟩ := Merkle.rootAndMutation block.txids
  simp only [Outcome.refuse_eq_ok_iff, ne_eq, Decidable.not_not, Bool.not_eq_true,
    Outcome.pure_eq_ok_iff, and_true, Prod.mk.injEq]

/-- What passes the checks of a block on its own. -/
theorem check_eq_ok_iff {block : Block} {params : ChainParams} {config : NodeConfig} :
    block.check params config = .ok () ↔
      MergeMining.checkHeader block.header block.auxpow params = .ok () ∧
        Merkle.rootAndMutation block.txids = (block.header.merkleRoot, false) ∧
        block.encode.length ≤ config.maxBlockSize ∧
        isStrictlyIncreasing block.txids.tail = true ∧
        (∀ tx ∈ block.transactions, tx.check = .ok ()) ∧
        ∃ coinbase others, block.transactions = coinbase :: others ∧
          coinbase.isCoinbase = true ∧ ∀ tx ∈ others, tx.isCoinbase = false := by
  rw [check]
  cases MergeMining.checkHeader block.header block.auxpow params with
  | error cause => simp
  | ok done =>
    cases done
    cases shape : block.transactions with
    | nil => simp
    | cons coinbase others =>
      simp only [List.isEmpty_cons, Bool.false_eq_true, if_false, Outcome.throw_bind,
        Outcome.bind_eq_ok_iff, Outcome.refuse_eq_ok_iff, gt_iff_lt, Nat.not_lt, Bool.not_eq_true',
        Bool.not_eq_false, true_and, List.cons.injEq]
      constructor
      · rintro ⟨⟨⟩, root, ⟨⟩, kinds, short, ordered, each⟩
        exact ⟨checkMerkleRoot_eq_ok_iff.mp root, short, ordered,
          checkTransactions_eq_ok_iff.mp each, coinbase, others, ⟨rfl, rfl⟩,
          checkSingleCoinbase_cons_eq_ok_iff.mp kinds⟩
      · rintro ⟨root, short, ordered, each, _, _, ⟨rfl, rfl⟩, kinds⟩
        exact ⟨(), checkMerkleRoot_eq_ok_iff.mpr root, (),
          checkSingleCoinbase_cons_eq_ok_iff.mpr kinds, short, ordered,
          checkTransactions_eq_ok_iff.mpr each⟩

end ScryptLedger.Block
