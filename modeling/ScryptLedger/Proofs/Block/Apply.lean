import ScryptLedger.Primitives.Transparent
import ScryptLedger.Proofs.CoinSet.Lookup

/-!
# Applying and undoing a block

What a block leaves of a coin set, and what undoing it brings back, as exact
lookups. Undoing loses the coins that stood where the block has its own outputs:
applying overwrote them, and the undo record does not keep them. The other coins
come back, so that undoing restores a coin set exactly when no coin is lost.
No validity is assumed here.
-/

namespace ScryptLedger

namespace Transaction

variable [Primitives]

theorem map_fst_created (tx : Transaction) (height : Nat) :
    (tx.created height).map Prod.fst = tx.outpoints := by
  rw [created, List.map_fst_zip]
  simp [outpoints]

theorem mem_outpoints {tx : Transaction} {outpoint : OutPoint} :
    outpoint ∈ tx.outpoints ↔
      ∃ index < tx.outputs.length, outpoint = ⟨tx.txid, UInt32.ofNat index⟩ := by
  simp only [outpoints, List.mem_map, List.mem_range, eq_comm]

/-- A created coin is one of the outputs, under its number. -/
theorem mem_created {tx : Transaction} {height : Nat} {outpoint : OutPoint} {coin : Coin} :
    (outpoint, coin) ∈ tx.created height ↔
      ∃ index output, tx.outputs[index]? = some output ∧
        outpoint = ⟨tx.txid, UInt32.ofNat index⟩ ∧
        coin = ⟨output.value, output.scriptPubKey, height, tx.isCoinbase⟩ := by
  simp only [List.mem_iff_getElem?, created, outpoints, List.getElem?_zip_eq_some,
    List.getElem?_map, Option.map_eq_some_iff]
  constructor
  · rintro ⟨index, ⟨counted, number, rfl⟩, output, there, rfl⟩
    obtain ⟨inside, rfl⟩ := List.getElem?_eq_some_iff.mp number
    rw [List.getElem_range]
    exact ⟨index, output, there, rfl, rfl⟩
  · rintro ⟨index, output, there, rfl, rfl⟩
    have inside : index < tx.outputs.length := (List.getElem?_eq_some_iff.mp there).1
    exact ⟨index, ⟨index, List.getElem?_range inside, rfl⟩, output, there, rfl⟩

end Transaction

namespace Block

variable [Primitives]

theorem map_fst_created (block : Block) (height : Nat) :
    (block.created height).map Prod.fst = block.outpoints := by
  simp only [created, outpoints, List.map_flatMap, Transaction.map_fst_created]

theorem hash_mem_txids {block : Block} {outpoint : OutPoint} (own : outpoint ∈ block.outpoints) :
    outpoint.hash ∈ block.txids := by
  obtain ⟨tx, held, made⟩ := List.mem_flatMap.mp own
  obtain ⟨index, _, rfl⟩ := Transaction.mem_outpoints.mp made
  exact List.mem_map.mpr ⟨tx, held, rfl⟩

/-- The coin that a block creates at an outpoint. -/
def output? (block : Block) (height : Nat) (outpoint : OutPoint) : Option Coin :=
  CoinSet.latest (block.created height) outpoint

theorem output?_eq_none_iff {block : Block} {height : Nat} {outpoint : OutPoint} :
    block.output? height outpoint = none ↔ outpoint ∉ block.outpoints := by
  rw [output?, CoinSet.latest_eq_none_iff, map_fst_created]

/-- A block creates nothing under a name that none of its transactions has. -/
theorem output?_eq_none_of_foreign {block : Block} {height : Nat} {outpoint : OutPoint}
    (foreign : outpoint.hash ∉ block.txids) : block.output? height outpoint = none :=
  output?_eq_none_iff.mpr (mt hash_mem_txids foreign)

/-- The coins that can be spent in a block: its own outputs, and below them the coin set. -/
theorem view_create_created (block : Block) (coins : CoinSet) (height : Nat)
    (outpoint : OutPoint) :
    (coins.create (block.created height)).view outpoint =
      (block.output? height outpoint).or (coins.view outpoint) :=
  CoinSet.view_create coins _ outpoint

theorem view_apply (block : Block) (coins : CoinSet) (height : Nat) (outpoint : OutPoint) :
    (block.apply coins height).1.view outpoint =
      if outpoint ∈ block.spent then none
      else (block.output? height outpoint).or (coins.view outpoint) := by
  change CoinSet.view (CoinSet.takeOut _ block.spent).1 outpoint = _
  rw [CoinSet.fst_takeOut, CoinSet.view_remove, view_create_created]

/-- The undo record holds the coins that were there before and that the block spends. -/
theorem mem_undo_apply {block : Block} {coins : CoinSet} {height : Nat} {outpoint : OutPoint}
    {coin : Coin} :
    (outpoint, coin) ∈ (block.apply coins height).2 ↔
      outpoint ∈ block.spent ∧ outpoint.hash ∉ block.txids ∧
        coins.view outpoint = some coin := by
  have filtered : (outpoint, coin) ∈ (block.apply coins height).2 ↔
      (outpoint, coin) ∈ ((coins.create (block.created height)).takeOut block.spent).2 ∧
        outpoint.hash ∉ block.txids := by
    simp [apply, List.mem_filter]
  rw [filtered, CoinSet.mem_takeOut, view_create_created]
  constructor
  · rintro ⟨⟨named, there⟩, foreign⟩
    rw [output?_eq_none_of_foreign foreign, Option.none_or] at there
    exact ⟨named, foreign, there⟩
  · rintro ⟨named, foreign, there⟩
    exact ⟨⟨named, by rw [output?_eq_none_of_foreign foreign, Option.none_or, there]⟩, foreign⟩

theorem nodup_undo_apply (block : Block) (coins : CoinSet) (height : Nat) :
    ((block.apply coins height).2.map Prod.fst).Nodup :=
  (CoinSet.nodup_takeOut _ block.spent).sublist (List.filter_sublist.map Prod.fst)

theorem view_unapply (block : Block) (coins : CoinSet) (undo : Undo) (outpoint : OutPoint) :
    (block.unapply coins undo).view outpoint =
      (CoinSet.latest undo outpoint).or
        (if outpoint ∈ block.outpoints then none else coins.view outpoint) := by
  rw [unapply, CoinSet.view_create, CoinSet.view_remove]

/-- The outpoints at which undoing a block leaves nothing, whatever stood there before the
block: its own outputs, and whatever else it spends under the name of one of its transactions. -/
def Overwrites (block : Block) (outpoint : OutPoint) : Prop :=
  outpoint ∈ block.outpoints ∨ outpoint ∈ block.spent ∧ outpoint.hash ∈ block.txids

theorem Overwrites.hash_mem_txids {block : Block} {outpoint : OutPoint}
    (lost : block.Overwrites outpoint) : outpoint.hash ∈ block.txids :=
  lost.elim Block.hash_mem_txids And.right

/-- Undoing a block that was just applied brings back what the block did not overwrite. -/
theorem view_unapply_apply (block : Block) (coins : CoinSet) (height : Nat)
    (outpoint : OutPoint) :
    (block.Overwrites outpoint →
      (block.unapply (block.apply coins height).1 (block.apply coins height).2).view outpoint
        = none) ∧
    (¬ block.Overwrites outpoint →
      (block.unapply (block.apply coins height).1 (block.apply coins height).2).view outpoint
        = coins.view outpoint) := by
  have recorded : ∀ coin, CoinSet.latest (block.apply coins height).2 outpoint = some coin ↔
      outpoint ∈ block.spent ∧ outpoint.hash ∉ block.txids ∧ coins.view outpoint = some coin :=
    fun coin => (CoinSet.latest_eq_some_iff (nodup_undo_apply block coins height)).trans
      mem_undo_apply
  rw [view_unapply]
  constructor
  · intro lost
    have unrecorded : CoinSet.latest (block.apply coins height).2 outpoint = none :=
      Option.eq_none_iff_forall_ne_some.mpr fun coin found =>
        ((recorded coin).mp found).2.1 lost.hash_mem_txids
    rw [unrecorded, Option.none_or, view_apply]
    rcases lost with own | ⟨named, _⟩
    · rw [if_pos own]
    · rw [if_pos named, ite_self]
  · intro kept
    have foreign : outpoint ∉ block.outpoints := fun own => kept (Or.inl own)
    rw [if_neg foreign, view_apply, output?_eq_none_iff.mpr foreign, Option.none_or]
    by_cases named : outpoint ∈ block.spent
    · have other : outpoint.hash ∉ block.txids := fun own => kept (Or.inr ⟨named, own⟩)
      rw [if_pos named, Option.or_none]
      refine Option.ext fun coin => ?_
      rw [recorded]
      exact ⟨fun found => found.2.2, fun there => ⟨named, other, there⟩⟩
    · have unrecorded : CoinSet.latest (block.apply coins height).2 outpoint = none :=
        Option.eq_none_iff_forall_ne_some.mpr fun coin found => named ((recorded coin).mp found).1
      rw [if_neg named, unrecorded, Option.none_or]

/-- A block spares a coin set when it overwrites no coin of it. -/
def Spares (block : Block) (coins : CoinSet) : Prop :=
  ∀ outpoint, block.Overwrites outpoint → coins.view outpoint = none

/-- Undoing restores a coin set exactly when no coin of it was overwritten. -/
theorem unapply_apply_eq_iff (block : Block) (coins : CoinSet) (height : Nat) :
    block.unapply (block.apply coins height).1 (block.apply coins height).2 = coins ↔
      block.Spares coins := by
  constructor
  · intro restored outpoint lost
    have empty := (view_unapply_apply block coins height outpoint).1 lost
    rwa [restored] at empty
  · intro spared
    refine CoinSet.ext_view fun outpoint => ?_
    by_cases lost : block.Overwrites outpoint
    · rw [(view_unapply_apply block coins height outpoint).1 lost, spared outpoint lost]
    · exact (view_unapply_apply block coins height outpoint).2 lost

/-- Undoing never brings in a coin that was not there. -/
theorem unapply_apply_within (block : Block) (coins : CoinSet) (height : Nat) :
    (block.unapply (block.apply coins height).1 (block.apply coins height).2).Within coins := by
  intro outpoint coin there
  by_cases lost : block.Overwrites outpoint
  · rw [(view_unapply_apply block coins height outpoint).1 lost] at there
    cases there
  · rwa [(view_unapply_apply block coins height outpoint).2 lost] at there

theorem unapply_within (block : Block) (undo : Undo) {smaller larger : CoinSet}
    (within : smaller.Within larger) :
    (block.unapply smaller undo).Within (block.unapply larger undo) :=
  (within.remove block.outpoints).create undo

end Block

namespace Block

section General

variable [Primitives]

/-- Undoing cancels applying wherever no coin stands under the name of one of the block's own
transactions, whatever the block spends. -/
theorem unapply_apply (block : Block) (coins : CoinSet) (height : Nat)
    (unnamed : ∀ outpoint, outpoint.hash ∈ block.txids → coins.view outpoint = none) :
    block.unapply (block.apply coins height).1 (block.apply coins height).2 = coins := by
  have spared : block.Spares coins := fun outpoint lost => unnamed outpoint lost.hash_mem_txids
  exact (unapply_apply_eq_iff block coins height).mpr spared

end General

namespace Unruly

local instance : Primitives := Primitives.transparent

/-- The outpoint of the only coin. -/
def old : OutPoint := ⟨Digest.zero, 0⟩

def coins : CoinSet :=
  CoinSet.create ∅ [(old, ⟨1000, [], 0, false⟩)]

/-- Spends the same coin twice. -/
def parent : Transaction := ⟨1, [⟨old, [], 0⟩, ⟨old, [1], 0⟩], [⟨900, []⟩], 2⟩

/-- Spends an output of its parent, and two outpoints at which there is nothing. -/
def child : Transaction where
  version := 1
  inputs := [⟨⟨parent.txid, 0⟩, [], 0⟩, ⟨⟨parent.txid, 7⟩, [], 0⟩, ⟨⟨Digest.zero, 9⟩, [], 0⟩]
  outputs := [⟨5000, []⟩]
  lockTime := 1

/-- No valid block. -/
def block : Block := ⟨BlockHeader.zero, none, [child, parent]⟩

theorem unapply_apply_unruly :
    (∀ outpoint, outpoint.hash ∈ block.txids → coins.view outpoint = none) ∧
      block.unapply (block.apply coins 3).1 (block.apply coins 3).2 = coins := by
  have foreign : old.hash ∉ block.txids := by decide +kernel
  have unnamed : ∀ outpoint, outpoint.hash ∈ block.txids → coins.view outpoint = none := by
    intro outpoint named
    have other : outpoint ≠ old := by
      rintro rfl
      exact foreign named
    rw [coins, CoinSet.create_cons, CoinSet.create, List.foldl_nil, CoinSet.view_insert,
      if_neg other, CoinSet.view_empty]
  exact ⟨unnamed, unapply_apply block coins 3 unnamed⟩

end Unruly

end Block

end ScryptLedger
