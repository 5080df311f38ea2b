import ScryptLedger.Proofs.Block.Supply
import ScryptLedger.Proofs.Chain.Levels
import ScryptLedger.Proofs.Chain.Position

/-!
# What a chain is worth

A chain has issued the subsidies of its blocks, each of which depends on the
height and on the parent. Its coins are never worth more, whatever was
connected and taken off before. Undoing can lose coins but not bring any in, so
that this is true at every level of a chain if it is true of the level below
and the block on top of it adds its subsidy at most.
-/

namespace ScryptLedger.Chain

/-- The subsidies of the blocks on some entries, the lowest of which is at height zero: each
follows from the height of a block and the identity of its parent. -/
def subsidiesOn (params : ChainParams) (parents : List ChainEntry) : Int :=
  Money.total ((parents.zipIdx 1).map fun (parent, height) =>
    Subsidy.ofBlock height params parent.hash)

theorem subsidiesOn_concat (params : ChainParams) (parents : List ChainEntry)
    (parent : ChainEntry) :
    subsidiesOn params (parents ++ [parent]) =
      subsidiesOn params parents + Subsidy.ofBlock (parents.length + 1) params parent.hash := by
  rw [subsidiesOn, List.zipIdx_append, List.map_append, Money.total_append, subsidiesOn,
    Nat.add_comm]
  simp

/-- What a chain has issued: the subsidies of its blocks. Every block but the tip is a parent. -/
def issued (chain : Chain) : Int :=
  subsidiesOn chain.rules.params chain.entries.tail.reverse

theorem reverse_entries (chain : Chain) :
    chain.entries.reverse = chain.entries.tail.reverse ++ [chain.tipEntry] := by
  rw [entries, tipEntry]
  cases chain.above with
  | nil => rfl
  | cons entry below => exact List.reverse_cons

theorem length_tail_entries (chain : Chain) : chain.entries.tail.length = chain.height := by
  rw [List.length_tail, entries, List.length_append, height, List.length_singleton,
    Nat.add_sub_cancel]

variable [Primitives]

/-- A block that is connected was issued the subsidy that its place asks for. -/
theorem issued_grow {chain : Chain} {block : Block} {connected : Connected}
    (fits : chain.Extends block connected) :
    (chain.grow block connected).issued = chain.issued +
      Subsidy.ofBlock (chain.height + 1) chain.rules.params block.header.previous := by
  have parent : block.header.previous = chain.tipEntry.hash :=
    (checkPosition_eq_ok_iff.mp fits.placed).2.2.1
  change subsidiesOn chain.rules.params chain.entries.reverse = _
  rw [reverse_entries, subsidiesOn_concat, List.length_reverse, length_tail_entries, parent, issued]

/-- Whether coins are amounts of money and are worth no more than the subsidies of some blocks,
latest first, above a genesis block. -/
def Covered (params : ChainParams) (genesis : ChainEntry) (above : List ChainEntry)
    (coins : CoinSet) : Prop :=
  coins.Ranged ∧ coins.supply ≤ subsidiesOn params (above ++ [genesis]).tail.reverse

theorem covered_grow {chain : Chain} {block : Block} {connected : Connected}
    (covered : Covered chain.rules.params chain.genesis chain.above chain.coins)
    (fits : chain.Extends block connected) :
    Covered chain.rules.params chain.genesis (chain.grow block connected).above
      connected.coins := by
  obtain ⟨ranged, least⟩ := covered
  have added := Block.supply_le_of_connect fits.accepted ranged
  have issued := issued_grow fits
  refine ⟨Block.ranged_of_connect fits.accepted ranged, ?_⟩
  change connected.coins.supply ≤ (chain.grow block connected).issued
  change chain.coins.supply ≤ chain.issued at least
  omega

theorem levels_covered (rules : Rules) (requests : List ChainRequest) :
    Levels (Covered rules.params (Chain.new rules).genesis)
      ((Chain.new rules).run requests).above ((Chain.new rules).run requests).coins := by
  refine levels_run rules ?_ ?_ ?_ requests
  · refine ⟨fun outpoint coin held => ?_, Int.le_refl 0⟩
    rw [CoinSet.view_empty] at held
    cases held
  · rintro above smaller larger within ⟨ranged, least⟩
    exact ⟨ranged.within within, (CoinSet.supply_le_of_within within ranged).trans least⟩
  · rintro chain block connected rfl sameGenesis covered fits
    rw [← sameGenesis] at covered ⊢
    exact covered_grow covered fits

/-- Every coin is an amount of money, and together they are worth what was issued at most. -/
theorem supply_le_issued (rules : Rules) (requests : List ChainRequest) :
    ((Chain.new rules).run requests).coins.Ranged ∧
      ((Chain.new rules).run requests).coins.supply ≤
        ((Chain.new rules).run requests).issued := by
  rw [issued, rules_run, entries, genesis_run]
  exact (levels_covered rules requests).top

end ScryptLedger.Chain
