import ScryptLedger.Proofs.Chain.Run

/-!
# Every level of a chain

The levels of a chain are its blocks and coins, and the blocks and coins that
are left as its blocks are taken off one by one. What the coins of a level are
is decided by the undo records alone. A property of levels that smaller coin
sets inherit is kept by undoing, so that it holds at every level of every
chain once it holds of the empty chain and each connected block keeps it.
-/

namespace ScryptLedger.Chain

variable [Primitives] {P : List ChainEntry → CoinSet → Prop}

/-- Whether something is true at every level: of some blocks, latest first, with the coins they
leave, and of what is left as they are taken off. -/
def Levels (P : List ChainEntry → CoinSet → Prop) : List ChainEntry → CoinSet → Prop
  | [], coins => P [] coins
  | entry :: below, coins =>
    P (entry :: below) coins ∧ Levels P below (entry.block.unapply coins entry.undo)

theorem Levels.top {above : List ChainEntry} {coins : CoinSet} (levels : Levels P above coins) :
    P above coins := by
  cases above with
  | nil => exact levels
  | cons entry below => exact levels.1

theorem Levels.rewind {above : List ChainEntry} {coins : CoinSet}
    (levels : Levels P above coins) (count : Nat) :
    P (above.drop count) (rewind coins (above.take count)) := by
  induction count generalizing above coins with
  | zero => exact levels.top
  | succ count ih =>
    cases above with
    | nil => exact levels
    | cons entry below => exact ih levels.2

/-- What is true at every level is true of the coins at every height. -/
theorem Levels.coinsAt? {chain : Chain} (levels : Levels P chain.above chain.coins) {height : Nat}
    {coins : CoinSet} (found : chain.coinsAt? height = some coins) :
    P (chain.above.drop (chain.height - height)) coins := by
  rw [Chain.coinsAt?] at found
  split at found
  · rw [← Option.some.inj found]
    exact levels.rewind (chain.height - height)
  · cases found

/-- Smaller coin sets inherit what is true at every level. -/
theorem Levels.within (inherited : ∀ above a b, CoinSet.Within a b → P above b → P above a)
    {above : List ChainEntry} {smaller larger : CoinSet} (within : smaller.Within larger)
    (levels : Levels P above larger) : Levels P above smaller := by
  induction above generalizing smaller larger with
  | nil => exact inherited [] smaller larger within levels
  | cons entry below ih =>
    exact ⟨inherited _ smaller larger within levels.1,
      ih (Block.unapply_within entry.block entry.undo within) levels.2⟩

/-- A move down leaves levels that were there before. -/
theorem Levels.retreat {longer shorter : Chain} (levels : Levels P longer.above longer.coins)
    (move : Retreat longer shorter) : Levels P shorter.above shorter.coins := by
  rcases move.blocks_cases with ⟨entry, top, left⟩ | ⟨sameBlocks, sameCoins⟩
  · rw [top] at levels
    rw [left]
    exact levels.2
  · rwa [sameBlocks, sameCoins]

theorem Levels.retreats {longer shorter : Chain} (levels : Levels P longer.above longer.coins)
    (moves : Relation.ReflTransGen Retreat longer shorter) :
    Levels P shorter.above shorter.coins :=
  keep_of_retreats (P := fun chain => Levels P chain.above chain.coins)
    (fun _ _ kept move => kept.retreat move) moves levels

/-- Undoing the block that was just connected leaves no coin that was not there before it. -/
theorem Extends.undone_within {chain : Chain} {block : Block} {connected : Connected}
    (fits : chain.Extends block connected) :
    (block.unapply connected.coins connected.undo).Within chain.coins := by
  rw [Block.coins_of_connect fits.accepted, Block.undo_of_connect fits.accepted]
  exact block.unapply_apply_within chain.coins (chain.height + 1)

/-- What holds of no blocks and no coins, is inherited by smaller coin sets and is kept by each
block that is connected, holds at every level of every chain that a run leads to. -/
theorem levels_run (rules : Rules) (start : P [] ∅)
    (inherited : ∀ above a b, CoinSet.Within a b → P above b → P above a)
    (grow : ∀ chain block connected, Chain.rules chain = rules →
      chain.genesis = (Chain.new rules).genesis → P chain.above chain.coins →
      chain.Extends block connected → P (chain.grow block connected).above connected.coins)
    (requests : List ChainRequest) :
    Levels P ((Chain.new rules).run requests).above ((Chain.new rules).run requests).coins := by
  have kept := run_induction (Chain.new rules)
    (P := fun chain => chain.rules = rules ∧ chain.genesis = (Chain.new rules).genesis ∧
      Levels P chain.above chain.coins) ⟨rfl, rfl, start⟩ ?_ ?_ requests
  · exact kept.2.2
  -- Below the new block stand the levels of before, but with fewer coins where it overwrote some.
  · rintro chain block connected ⟨sameRules, sameGenesis, levels⟩ fits
    exact ⟨sameRules, sameGenesis,
      grow chain block connected sameRules sameGenesis levels.top fits,
      levels.within inherited fits.undone_within⟩
  · rintro longer shorter ⟨sameRules, sameGenesis, levels⟩ move
    exact ⟨move.fixed.1.trans sameRules, move.fixed.2.trans sameGenesis, levels.retreat move⟩

end ScryptLedger.Chain
