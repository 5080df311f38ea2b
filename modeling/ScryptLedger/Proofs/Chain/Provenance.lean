import ScryptLedger.Proofs.Chain.Levels

/-!
# Where coins come from

What a coin says about itself is true of the chain: a block at its height has
the output it stands for, and no block since has spent it. That much is decided
by the blocks alone, however often coins were spent and brought back. Each
block of the chain was connected at some point of the run to the blocks that
are still below it, and every coin that it spent had matured by then.
-/

namespace ScryptLedger

/-- Whether a coin lies deep enough to be spent at a height, if it comes from a coinbase. -/
def Coin.Matured (coin : Coin) (params : ChainParams) (height : Nat) : Prop :=
  coin.isCoinbase = true → (params.maturityDepth coin.height : Int) ≤ height - coin.height

namespace Block

variable [Primitives]

/-- Whether a coin at an outpoint is what an output of a block has become. -/
def Makes (block : Block) (outpoint : OutPoint) (coin : Coin) : Prop :=
  ∃ tx ∈ block.transactions, tx.txid = outpoint.hash ∧
    tx.outputs[outpoint.index.toNat]? = some ⟨coin.value, coin.scriptPubKey⟩ ∧
    coin.isCoinbase = tx.isCoinbase

/-- What a block creates is what its outputs become, as long as they can be numbered. -/
theorem makes_of_output? {block : Block} (passes : ∀ tx ∈ block.transactions, tx.check = .ok ())
    {height : Nat} {outpoint : OutPoint} {coin : Coin}
    (made : block.output? height outpoint = some coin) :
    block.Makes outpoint coin ∧ coin.height = height := by
  obtain ⟨tx, held, made⟩ := List.mem_flatMap.mp (CoinSet.mem_of_latest made)
  obtain ⟨index, output, there, rfl, rfl⟩ := Transaction.mem_created.mp made
  have inside : index < tx.outputs.length := (List.getElem?_eq_some_iff.mp there).1
  have few := Transaction.length_outputs_lt_of_check (passes tx held)
  refine ⟨⟨tx, held, rfl, ?_, rfl⟩, rfl⟩
  rw [UInt32.toNat_ofNat_of_lt' (Nat.lt_trans inside few)]
  exact there

end Block

namespace Chain

theorem entryAt?_succ (chain : Chain) (height : Nat) :
    chain.entryAt? (height + 1) = chain.above.reverse[height]? := by
  rw [entryAt?, entries, List.reverse_append]
  rfl

theorem split_of_entryAt? {chain : Chain} {height : Nat} {entry : ChainEntry}
    (there : chain.entryAt? (height + 1) = some entry) :
    ∃ later earlier, chain.above = later ++ entry :: earlier ∧ earlier.length = height := by
  rw [entryAt?_succ] at there
  obtain ⟨inside, same⟩ := List.getElem?_eq_some_iff.mp there
  refine ⟨(chain.above.reverse.drop (height + 1)).reverse,
    (chain.above.reverse.take height).reverse, ?_, ?_⟩
  · have upward : chain.above.reverse =
        chain.above.reverse.take height ++ entry :: chain.above.reverse.drop (height + 1) := by
      rw [← same, List.getElem_cons_drop, List.take_append_drop]
    rw [← List.reverse_inj, List.reverse_append, List.reverse_cons, List.reverse_reverse,
      List.reverse_reverse, List.append_assoc, List.singleton_append]
    exact upward
  · rw [List.length_reverse, List.length_take]
    omega

variable [Primitives]

/-- Whether a coin is an output that some blocks, latest first, have left unspent. -/
def LeftBy (above : List ChainEntry) (outpoint : OutPoint) (coin : Coin) : Prop :=
  ∃ later entry earlier, above = later ++ entry :: earlier ∧ coin.height = earlier.length + 1 ∧
    entry.block.Makes outpoint coin ∧
    ∀ other ∈ later ++ [entry], outpoint ∉ other.block.spent

/-- What a coin says about itself, as the blocks of a chain tell it. -/
structure Accounts (chain : Chain) (outpoint : OutPoint) (coin : Coin) : Prop where
  /-- The block at the height of the coin has the output. -/
  made : ∃ entry, chain.entryAt? coin.height = some entry ∧ entry.block.Makes outpoint coin
  /-- Neither this block nor a later one spends it. -/
  unspent : ∀ height entry, coin.height ≤ height → chain.entryAt? height = some entry →
    outpoint ∉ entry.block.spent

theorem accounts_of_leftBy {chain : Chain} {outpoint : OutPoint} {coin : Coin}
    (left : LeftBy chain.above outpoint coin) : chain.Accounts outpoint coin := by
  obtain ⟨later, entry, earlier, split, place, made, unspent⟩ := left
  have upward : chain.above.reverse = earlier.reverse ++ entry :: later.reverse := by
    rw [split, List.reverse_append, List.reverse_cons, List.append_assoc, List.singleton_append]
  refine ⟨⟨entry, ?_, made⟩, ?_⟩
  · rw [place, entryAt?_succ, upward, List.getElem?_append_right (by simp)]
    simp
  · intro height other high there
    obtain ⟨height, rfl⟩ :=
      Nat.exists_eq_add_of_lt (Nat.lt_of_lt_of_le (by omega) high : 0 < height)
    rw [Nat.zero_add, entryAt?_succ, upward, List.getElem?_append_right] at there
    · have among := List.mem_of_getElem? there
      refine unspent other ?_
      simpa [or_comm] using among
    · rw [List.length_reverse]
      omega

/-- Whether all coins are outputs that some blocks have left. -/
def AllLeftBy (above : List ChainEntry) (coins : CoinSet) : Prop :=
  ∀ outpoint coin, coins.view outpoint = some coin → LeftBy above outpoint coin

/-- The coins of a level are outputs that its blocks have left. -/
theorem levels_allLeftBy (rules : Rules) (requests : List ChainRequest) :
    Levels AllLeftBy ((Chain.new rules).run requests).above
      ((Chain.new rules).run requests).coins := by
  refine levels_run rules ?_ ?_ ?_ requests
  · intro outpoint coin held
    rw [CoinSet.view_empty] at held
    cases held
  · intro above smaller larger within known outpoint coin held
    exact known outpoint coin (within outpoint coin held)
  · intro chain block connected _ _ known fits outpoint coin held
    rw [Block.coins_of_connect fits.accepted, Block.view_apply] at held
    split at held
    · cases held
    · rename_i unspent
      rcases Option.or_eq_some_iff.mp held with new | ⟨_, old⟩
      · obtain ⟨made, place⟩ := Block.makes_of_output? (Block.passes_of_connect fits.accepted) new
        exact ⟨[], _, chain.above, rfl, place, made, List.forall_mem_singleton.mpr unspent⟩
      · obtain ⟨later, entry, earlier, split, place, made, others⟩ := known outpoint coin old
        refine ⟨⟨block.hash, block, connected.undo⟩ :: later, entry, earlier, ?_, place, made,
          List.forall_mem_cons.mpr ⟨unspent, others⟩⟩
        change _ :: chain.above = _
        rw [split, List.cons_append]

/-- Whether a block spends only coins that are there for it on top of a chain, and only such as
have matured by then. -/
def SpendsMatured (chain : Chain) (block : Block) : Prop :=
  ∀ outpoint ∈ block.spent, ∃ coin,
    (block.output? (chain.height + 1) outpoint).or (chain.coins.view outpoint) = some coin ∧
      coin.Matured chain.rules.params (chain.height + 1)

theorem Extends.spendsMatured {chain : Chain} {block : Block} {connected : Connected}
    (fits : chain.Extends block connected) : chain.SpendsMatured block := by
  intro outpoint spent
  obtain ⟨coin, there, deep, _⟩ := Block.canSpend_of_connect fits.accepted outpoint spent
  rw [Block.view_create_created] at there
  exact ⟨coin, there, Coin.isSpendableAt_iff.mp deep⟩

/-- What an undo record brings back had matured when it was spent. -/
theorem Extends.matured_of_mem_undo {chain : Chain} {block : Block} {connected : Connected}
    (fits : chain.Extends block connected) {outpoint : OutPoint} {coin : Coin}
    (recorded : (outpoint, coin) ∈ connected.undo) :
    coin.Matured chain.rules.params (chain.height + 1) := by
  rw [Block.undo_of_connect fits.accepted] at recorded
  obtain ⟨spent, foreign, held⟩ := Block.mem_undo_apply.mp recorded
  obtain ⟨other, there, deep⟩ := fits.spendsMatured outpoint spent
  rw [Block.output?_eq_none_of_foreign foreign, Option.none_or, held] at there
  cases there
  exact deep

/-- Every coin of a chain is what an output has become that no block has spent since. And every
block of a chain was connected when the blocks below it were the chain; each coin that it spent
then, and that its undo record keeps, had matured. -/
theorem accounts_and_spendsMatured (rules : Rules) (requests : List ChainRequest) :
    (∀ outpoint coin, ((Chain.new rules).run requests).coins.view outpoint = some coin →
      ((Chain.new rules).run requests).Accounts outpoint coin) ∧
    ∀ height entry, ((Chain.new rules).run requests).entryAt? (height + 1) = some entry →
      (∃ earlier, earlier ++ [.connect entry.block] <+: requests ∧
        ((Chain.new rules).run earlier).height = height ∧
        ((Chain.new rules).run earlier).above <:+ ((Chain.new rules).run requests).above ∧
        ((Chain.new rules).run earlier).SpendsMatured entry.block) ∧
      ∀ outpoint coin, (outpoint, coin) ∈ entry.undo → coin.Matured rules.params (height + 1) := by
  refine ⟨fun outpoint coin held => ?_, fun height entry there => ?_⟩
  · exact accounts_of_leftBy ((levels_allLeftBy rules requests).top outpoint coin held)
  · obtain ⟨later, below, split, rfl⟩ := split_of_entryAt? there
    obtain ⟨earlier, connected, started, rest, fits, same⟩ := origin_of_run rfl split
    have low : ((Chain.new rules).run earlier).height = below.length := by rw [Chain.height, rest]
    refine ⟨⟨earlier, started, low, ?_, fits.spendsMatured⟩, ?_⟩
    · rw [rest, split]
      exact (List.suffix_cons entry below).trans (List.suffix_append later _)
    · intro outpoint coin recorded
      rw [same] at recorded
      have deep := fits.matured_of_mem_undo recorded
      rwa [rules_run, low] at deep

end Chain

end ScryptLedger
