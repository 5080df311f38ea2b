import ScryptLedger.Proofs.Block.Connect
import ScryptLedger.Proofs.CoinSet.Supply
import ScryptLedger.Proofs.Subsidy.Share

/-!
# What a block adds to the supply

A block that connects takes what its inputs hold out of the supply and brings
in what its outputs pay. The fees make up the difference for its ordinary
transactions, and its coinbase may take them together with the subsidy. So the
supply grows by the subsidy at most: it grows by less when the coinbase leaves
something unclaimed, or when a coin is overwritten.
-/

namespace ScryptLedger

namespace Transaction

variable [Primitives]

theorem map_snd_created (tx : Transaction) (height : Nat) :
    (tx.created height).map Prod.snd =
      tx.outputs.map fun output =>
        ⟨output.value, output.scriptPubKey, height, tx.isCoinbase⟩ := by
  rw [created, List.map_snd_zip]
  simp [outpoints]

theorem sum_created (tx : Transaction) (height : Nat) :
    Money.total ((tx.created height).map fun entry => entry.2.value.toInt)
      = TxOutput.total tx.outputs := by
  have amounts : (tx.created height).map (fun entry => entry.2.value.toInt) =
      ((tx.created height).map Prod.snd).map fun coin => coin.value.toInt := by
    rw [List.map_map]
    rfl
  rw [amounts, map_snd_created, List.map_map, TxOutput.total]
  rfl

theorem ranged_created {tx : Transaction} (passes : tx.check = .ok ()) {height : Nat}
    {entry : OutPoint × Coin} (made : entry ∈ tx.created height) :
    inMoneyRange entry.2.value.toInt = true := by
  obtain ⟨index, output, there, _, same⟩ := mem_created.mp made
  have ranged := (check_eq_ok_iff.mp passes).2.2.2.2.1
  rw [same]
  exact ranged output (List.mem_of_getElem? there)

end Transaction

namespace Block

variable [Primitives]

/-- The coins that a block creates are worth what its transactions pay. -/
theorem sum_created (block : Block) (height : Nat) :
    Money.total ((block.created height).map fun entry => entry.2.value.toInt) =
      Transaction.paid block.transactions := by
  rw [created, Transaction.paid]
  induction block.transactions with
  | nil => rfl
  | cons tx rest ih =>
    rw [List.flatMap_cons, List.map_append, Money.total_append, ih, Transaction.sum_created,
      List.map_cons, Money.total_cons]

variable {rules : Rules} {height : Nat} {winner : Option Bytes} {coins : CoinSet} {block : Block}
variable {connected : Connected}

theorem ranged_created_of_connect
    (accepted : block.connect rules height winner coins = .ok connected) :
    ∀ entry ∈ block.created height, inMoneyRange entry.2.value.toInt = true := by
  intro entry made
  obtain ⟨tx, held, made⟩ := List.mem_flatMap.mp made
  exact Transaction.ranged_created (passes_of_connect accepted tx held) made

/-- A block leaves amounts of money where it finds them. -/
theorem ranged_of_connect (accepted : block.connect rules height winner coins = .ok connected)
    (ranged : coins.Ranged) : connected.coins.Ranged := by
  have bigger := ranged.create (ranged_created_of_connect accepted)
  intro outpoint coin held
  rw [coins_of_connect accepted, view_apply] at held
  split at held
  · cases held
  · rw [← view_create_created] at held
    exact bigger outpoint coin held

/-- A block adds its subsidy to the supply at most. -/
theorem supply_le_of_connect (accepted : block.connect rules height winner coins = .ok connected)
    (ranged : coins.Ranged) :
    connected.coins.supply ≤
      coins.supply + Subsidy.ofBlock height rules.params block.header.previous := by
  obtain ⟨coinbase, _, shape, _, _, _, reward⟩ := spendAll_of_connect accepted
  obtain ⟨positive, fees⟩ := fees_of_connect accepted
  have subsidy := Subsidy.ofBlock_nonneg height rules.params block.header.previous
  have passes := passes_of_connect accepted coinbase (shape ▸ List.mem_cons_self)
  -- A word never holds more than the subsidy and all fees.
  rw [(Transaction.totalOutput_of_check passes).2, fees, Money.wrap_add_wrap] at reward
  have most := reward.trans (Money.wrap_le_self (Int.add_nonneg subsidy positive))
  have brought := CoinSet.supply_create_le ranged (ranged_created_of_connect accepted)
  have paid : Transaction.paid block.transactions =
      TxOutput.total coinbase.outputs + Transaction.paid block.ordinary := by
    rw [shape, Transaction.paid_cons]
  have left : connected.coins = (coins.create (block.created height)).remove block.spent := by
    rw [coins_of_connect accepted, ← CoinSet.fst_takeOut]
    rfl
  rw [left, CoinSet.supply_remove _ (nodup_spent_of_connect accepted)]
  rw [sum_created] at brought
  omega

end Block

end ScryptLedger
