import ScryptLedger.Proofs.Chain.Levels
import ScryptLedger.Proofs.Chain.Position

/-!
# Coins and history

The coins that a chain ought to have are those that its blocks leave when they
are applied to nothing, one after the other. A chain never has more. It has
less when a block overwrote a coin: the undo record does not keep such a coin,
so that it is missing once the block is gone. As long as no block overwrites a
coin, no block that is gone leaves a trace, at any height; and this is exact.
-/

namespace ScryptLedger

/-- A block takes inclusion along. -/
theorem Block.apply_within [Primitives] (block : Block) (height : Nat) {smaller larger : CoinSet}
    (within : smaller.Within larger) :
    (block.apply smaller height).1.Within (block.apply larger height).1 := by
  change CoinSet.Within (CoinSet.takeOut _ block.spent).1 (CoinSet.takeOut _ block.spent).1
  rw [CoinSet.fst_takeOut, CoinSet.fst_takeOut]
  exact (within.create (block.created height)).remove block.spent

namespace Chain

variable [Primitives]

/-- The coins that are left of nothing when some blocks are applied, the first at height one. -/
def replay (blocks : List Block) : CoinSet :=
  (blocks.zipIdx 1).foldl (fun coins (block, height) => (block.apply coins height).1) ∅

theorem replay_concat (blocks : List Block) (block : Block) :
    replay (blocks ++ [block]) = (block.apply (replay blocks) (blocks.length + 1)).1 := by
  rw [replay, List.zipIdx_append, List.foldl_append, Nat.add_comm]
  rfl

omit [Primitives] in
/-- The blocks of some entries, lowest first. -/
def blocksOf (above : List ChainEntry) : List Block :=
  above.reverse.map ChainEntry.block

omit [Primitives] in
theorem length_blocksOf (above : List ChainEntry) : (blocksOf above).length = above.length := by
  rw [blocksOf, List.length_map, List.length_reverse]

omit [Primitives] in
theorem blocksOf_cons (entry : ChainEntry) (below : List ChainEntry) :
    blocksOf (entry :: below) = blocksOf below ++ [entry.block] := by
  rw [blocksOf, List.reverse_cons, List.map_append, List.map_singleton, blocksOf]

omit [Primitives] in
theorem take_blocksOf (above : List ChainEntry) (height : Nat) :
    (blocksOf above).take height = blocksOf (above.drop (above.length - height)) := by
  rw [blocksOf, blocksOf, ← List.map_take, List.take_reverse]

/-- The coins that a block leaves of those its predecessors leave. -/
theorem replay_blocksOf_cons (entry : ChainEntry) (below : List ChainEntry) :
    replay (blocksOf (entry :: below)) =
      (entry.block.apply (replay (blocksOf below)) (below.length + 1)).1 := by
  rw [blocksOf_cons, replay_concat, length_blocksOf]

omit [Primitives] in
/-- The blocks above the genesis block, lowest first. -/
def blocks (chain : Chain) : List Block :=
  blocksOf chain.above

theorem take_blocks_grow (chain : Chain) (block : Block) (connected : Connected) :
    (chain.grow block connected).blocks.take chain.height = chain.blocks := by
  change (blocksOf (⟨block.hash, block, connected.undo⟩ :: chain.above)).take _ = _
  rw [blocksOf_cons, height, ← length_blocksOf, List.take_left]
  rfl

theorem coinsAt?_grow (chain : Chain) (block : Block) (connected : Connected) :
    (chain.grow block connected).coinsAt? chain.height =
      some (block.unapply connected.coins connected.undo) := by
  have taller : (chain.grow block connected).height = chain.height + 1 := rfl
  rw [coinsAt?, taller, if_pos (Nat.le_succ _), Nat.add_sub_cancel_left]
  rfl

/-- Whether the coins of a chain, at the tip and at each height below, are those that the blocks
up to there leave. -/
structure Replays (chain : Chain) : Prop where
  tip : chain.coins = replay chain.blocks
  below : ∀ height ≤ chain.height,
    chain.coinsAt? height = some (replay (chain.blocks.take height))

/-- Whether coins are exactly those that some blocks, latest first, leave. -/
def IsReplay (above : List ChainEntry) (coins : CoinSet) : Prop :=
  coins = replay (blocksOf above)

theorem replays_of_levels {chain : Chain} (levels : Levels IsReplay chain.above chain.coins) :
    chain.Replays := by
  refine ⟨levels.top, fun height low => ?_⟩
  have exactly : rewind chain.coins (chain.above.take (chain.height - height)) = _ :=
    levels.rewind (chain.height - height)
  rw [coinsAt?, if_pos low, blocks, take_blocksOf, exactly, Chain.height]

theorem levels_within_replay (rules : Rules) (requests : List ChainRequest) :
    Levels (fun above coins => coins.Within (replay (blocksOf above)))
      ((Chain.new rules).run requests).above ((Chain.new rules).run requests).coins := by
  refine levels_run rules (CoinSet.Within.refl ∅) ?_ ?_ requests
  · intro above smaller larger within kept
    exact within.trans kept
  · intro chain block connected _ _ kept fits
    change connected.coins.Within (replay (blocksOf (⟨block.hash, block, connected.undo⟩ :: _)))
    rw [replay_blocksOf_cons, Block.coins_of_connect fits.accepted]
    exact block.apply_within (chain.height + 1) kept

/-- At no height is there a coin that the blocks up to there do not leave. -/
theorem within_replay_of_coinsAt? {rules : Rules} {requests : List ChainRequest} {height : Nat}
    {coins : CoinSet} (found : ((Chain.new rules).run requests).coinsAt? height = some coins) :
    coins.Within (replay (((Chain.new rules).run requests).blocks.take height)) := by
  rw [blocks, take_blocksOf]
  exact (levels_within_replay rules requests).coinsAt? found

/-- Whether no block that a run connects overwrites a coin. -/
def Sparing (chain : Chain) (requests : List ChainRequest) : Prop :=
  ∀ earlier block update, earlier ++ [.connect block] <+: requests →
    (chain.run earlier).connect block = .ok update → block.Spares (chain.run earlier).coins

theorem Sparing.of_prefix {chain : Chain} {earlier requests : List ChainRequest}
    (sparing : chain.Sparing requests) (started : earlier <+: requests) : chain.Sparing earlier :=
  fun past block update first => sparing past block update (first.trans started)

theorem levels_of_sparing {rules : Rules} {requests : List ChainRequest}
    (sparing : (Chain.new rules).Sparing requests) :
    Levels IsReplay ((Chain.new rules).run requests).above
      ((Chain.new rules).run requests).coins := by
  -- Smaller coin sets do not inherit exactness, so that `levels_run` is of no use: the induction
  -- is on the run, and undoing a block has to lead back to the very coins of before.
  induction requests using List.reverseRecOn with
  | nil => rfl
  | append_singleton past request ih =>
    have before := ih (sparing.of_prefix (List.prefix_append past [request]))
    rw [run_concat]
    rcases after_cases ((Chain.new rules).run past) request with
      ⟨block, connected, rfl, fits, same⟩ | moves
    · rw [same]
      have spared := sparing past block _ (List.prefix_refl _)
        (connect_eq_ok_iff.mpr ⟨connected, fits, rfl⟩)
      have left := Block.coins_of_connect fits.accepted
      refine ⟨?_, ?_⟩
      · change connected.coins = replay (blocksOf (⟨block.hash, block, connected.undo⟩ :: _))
        have below : ((Chain.new rules).run past).coins = replay (blocksOf _) := before.top
        rw [replay_blocksOf_cons, left, ← below, height]
      · change Levels _ _ (block.unapply connected.coins connected.undo)
        rw [left, Block.undo_of_connect fits.accepted,
          (block.unapply_apply_eq_iff _ _).mpr spared]
        exact before
    · exact before.retreats moves

/-- The coins of every chain along a run are those that its blocks leave, at every height, exactly
when no block that was connected overwrote a coin. -/
theorem replays_iff_sparing (rules : Rules) (requests : List ChainRequest) :
    (∀ earlier, earlier <+: requests → ((Chain.new rules).run earlier).Replays) ↔
      (Chain.new rules).Sparing requests := by
  constructor
  · intro replays earlier block update started done
    obtain ⟨connected, fits, _⟩ := connect_eq_ok_iff.mp done
    have before := replays earlier ((List.prefix_append earlier _).trans started)
    have grown : (Chain.new rules).run (earlier ++ [.connect block]) =
        ((Chain.new rules).run earlier).grow block connected := by
      rw [run_concat, after_connect fits]
    have undone := (replays _ started).below ((Chain.new rules).run earlier).height
    rw [grown, take_blocks_grow, coinsAt?_grow, Option.some.injEq, ← before.tip,
      Block.coins_of_connect fits.accepted, Block.undo_of_connect fits.accepted] at undone
    exact (block.unapply_apply_eq_iff _ _).mp (undone (Nat.le_succ _))
  · intro sparing earlier started
    exact replays_of_levels (levels_of_sparing (sparing.of_prefix started))

end Chain

namespace Chain.Twins

local instance : Primitives := Primitives.transparent

def rules : Rules :=
  Rules.ofConfig NodeConfig.default

/-- A coinbase that commits to no height, as may stand in any block this low. -/
def coinbase : Transaction where
  version := 1
  inputs := [⟨OutPoint.null, [1, 1], 0xffffffff⟩]
  outputs := [⟨5000000, [0x51]⟩]
  lockTime := 0

/-- A block with this coinbase. -/
def block (previous : Hash) (time : UInt32) : Block where
  header :=
    { BlockHeader.zero with
      version := 1
      previous := previous
      merkleRoot := Merkle.root [coinbase.txid]
      time := time
      bits := 0x207fffff }
  auxpow := none
  transactions := [coinbase]

def first : Block :=
  block rules.params.genesisHash 1296688603

def second : Block :=
  block first.hash 1296688604

/-- The chain with the first of two blocks that have the same coinbase. -/
def single : Chain :=
  (Chain.new rules).run [.connect first]

theorem second_fits : ∃ connected, single.Extends second connected := by
  have placed : single.checkPosition second = .ok () := by
    refine checkPosition_eq_ok_iff.mpr ⟨?_, ?_, ?_, medianTimePast_lt ?_, ?_⟩
    · decide +kernel
    · decide +kernel
    · decide +kernel
    · decide +kernel
    · decide +kernel
  have succeeds : (second.connect single.rules (single.height + 1)
      (single.stakingWinner? single.tip.hash) single.coins).isOk = true := by decide +kernel
  obtain ⟨connected, accepted⟩ := Outcome.eq_ok_of_isOk succeeds
  exact ⟨connected, placed, accepted⟩

/-- Once the second block is taken off again, the coin of the first one is gone. -/
theorem not_replays :
    ¬ ((Chain.new rules).run [.connect first, .connect second, .disconnectTip]).Replays := by
  obtain ⟨connected, fits⟩ := second_fits
  have unfinalized : single.finalized = none := by decide +kernel
  have removable : (single.grow second connected).checkRemovable (single.height + 1) = .ok () :=
    checkRemovable_eq_ok_iff.mpr ⟨Nat.succ_ne_zero _, fun _ noted => by
      rw [grow, unfinalized] at noted
      cases noted⟩
  have reached : (Chain.new rules).run [.connect first, .connect second, .disconnectTip] =
      (single.grow second connected).shrink ⟨second.hash, second, connected.undo⟩ single.above := by
    change (single.after (.connect second)).after .disconnectTip = _
    rw [after_connect fits, after_disconnectTip rfl removable]
  have owed : ((replay single.blocks).view ⟨coinbase.txid, 0⟩).isSome = true := by decide +kernel
  have overwritten : second.Overwrites ⟨coinbase.txid, 0⟩ := Or.inl (by decide +kernel)
  intro replays
  have same : (second.unapply connected.coins connected.undo).view ⟨coinbase.txid, 0⟩ =
      (replay single.blocks).view ⟨coinbase.txid, 0⟩ := by
    rw [reached] at replays
    exact congrArg (CoinSet.view · _) replays.tip
  rw [Block.coins_of_connect fits.accepted, Block.undo_of_connect fits.accepted,
    (second.view_unapply_apply _ _ _).1 overwritten] at same
  rw [← same] at owed
  cases owed

end Chain.Twins

end ScryptLedger
