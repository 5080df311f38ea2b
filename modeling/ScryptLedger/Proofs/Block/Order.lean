import ScryptLedger.Primitives.Transparent
import ScryptLedger.Proofs.Block.Apply

/-!
# The order of the transactions of a block

Applying a block does not look at the order of its transactions: all outputs
come first, and where no two transactions share a name, no output hides one of
another transaction. The same coins are left when the transactions are applied
one after the other, each spending before it creates, in any order in which
every output comes before its spends. Nothing is assumed of the inputs beyond
that; they may name coins of the set, outputs of the block, or nothing.
-/

namespace ScryptLedger

namespace CoinSet

theorem latest_append (before after : List (OutPoint × Coin)) (outpoint : OutPoint) :
    latest (before ++ after) outpoint = (latest after outpoint).or (latest before outpoint) := by
  rw [latest, List.reverse_append, List.lookup_append]
  rfl

end CoinSet

namespace Transaction

variable [Primitives]

theorem view_apply (tx : Transaction) (coins : CoinSet) (height : Nat) (outpoint : OutPoint) :
    (tx.apply coins height).1.view outpoint =
      (CoinSet.latest (tx.created height) outpoint).or
        (if outpoint ∈ tx.spent then none else coins.view outpoint) := by
  change CoinSet.view (CoinSet.create (CoinSet.takeOut coins tx.spent).1 _) outpoint = _
  rw [CoinSet.view_create, CoinSet.fst_takeOut, CoinSet.view_remove]

theorem latest_created_eq_none_iff {tx : Transaction} {height : Nat} {outpoint : OutPoint} :
    CoinSet.latest (tx.created height) outpoint = none ↔ outpoint ∉ tx.outpoints := by
  rw [CoinSet.latest_eq_none_iff, map_fst_created]

theorem hash_of_mem_outpoints {tx : Transaction} {outpoint : OutPoint}
    (own : outpoint ∈ tx.outpoints) : outpoint.hash = tx.txid := by
  obtain ⟨index, _, rfl⟩ := mem_outpoints.mp own
  rfl

/-! ## Permutations -/

/-- Transactions of other names create nothing at an outpoint. -/
theorem latest_created_of_foreign {txs : List Transaction} {height : Nat} {outpoint : OutPoint}
    (foreign : outpoint.hash ∉ txs.map txid) :
    CoinSet.latest (txs.flatMap (·.created height)) outpoint = none := by
  rw [CoinSet.latest_eq_none_iff]
  intro made
  simp only [List.map_flatMap, map_fst_created, List.mem_flatMap] at made
  obtain ⟨tx, held, own⟩ := made
  exact foreign (List.mem_map.mpr ⟨tx, held, (hash_of_mem_outpoints own).symm⟩)

/-- Where no two transactions share a name, what is created at an outpoint is what the
transaction of that name creates there. -/
theorem latest_created_of_mem {txs : List Transaction} {height : Nat} {tx : Transaction}
    {outpoint : OutPoint} (distinct : (txs.map txid).Nodup) (held : tx ∈ txs)
    (named : outpoint.hash = tx.txid) :
    CoinSet.latest (txs.flatMap (·.created height)) outpoint =
      CoinSet.latest (tx.created height) outpoint := by
  induction txs with
  | nil => cases held
  | cons first rest ih =>
    rw [List.map_cons, List.nodup_cons] at distinct
    rw [List.flatMap_cons, CoinSet.latest_append]
    rcases List.mem_cons.mp held with rfl | later
    · have foreign : outpoint.hash ∉ rest.map txid := named ▸ distinct.1
      rw [latest_created_of_foreign foreign, Option.none_or]
    · have other : outpoint ∉ first.outpoints := by
        intro own
        apply distinct.1
        rw [← hash_of_mem_outpoints own, named]
        exact List.mem_map_of_mem later
      rw [ih distinct.2 later, latest_created_eq_none_iff.mpr other, Option.or_none]

theorem latest_created_of_perm {txs order : List Transaction} {height : Nat}
    (distinct : (txs.map txid).Nodup) (same : order.Perm txs) (outpoint : OutPoint) :
    CoinSet.latest (order.flatMap (·.created height)) outpoint =
      CoinSet.latest (txs.flatMap (·.created height)) outpoint := by
  have names : (order.map txid).Perm (txs.map txid) := same.map txid
  by_cases named : outpoint.hash ∈ txs.map txid
  · obtain ⟨tx, held, named⟩ := List.mem_map.mp named
    rw [latest_created_of_mem distinct held named.symm,
      latest_created_of_mem (names.nodup_iff.mpr distinct) (same.mem_iff.mpr held) named.symm]
  · have foreign : outpoint.hash ∉ order.map txid := mt names.mem_iff.mp named
    rw [latest_created_of_foreign named, latest_created_of_foreign foreign]

/-! ## One after the other -/

/-- Applies transactions one after the other. -/
def applyAll (txs : List Transaction) (coins : CoinSet) (height : Nat) : CoinSet :=
  txs.foldl (fun coins tx => (tx.apply coins height).1) coins

theorem applyAll_cons (tx : Transaction) (later : List Transaction) (coins : CoinSet)
    (height : Nat) :
    applyAll (tx :: later) coins height = applyAll later (tx.apply coins height).1 height := rfl

/-- Whether no transaction spends an output of its own or of a later one. -/
def ParentsFirst : List Transaction → Prop
  | [] => True
  | tx :: later =>
    (∀ outpoint ∈ tx.spent, ∀ other ∈ tx :: later, outpoint ∉ other.outpoints) ∧
      ParentsFirst later

instance ParentsFirst.decidable : (txs : List Transaction) → Decidable (ParentsFirst txs)
  | [] => instDecidableTrue
  | _ :: later => @instDecidableAnd _ _ _ (decidable later)

/-- What is left at an outpoint once transactions are applied in such an order: nothing if any
of them spends it, else their output, else what was there. -/
theorem view_applyAll {txs : List Transaction} (ordered : ParentsFirst txs) (coins : CoinSet)
    (height : Nat) (outpoint : OutPoint) :
    (applyAll txs coins height).view outpoint =
      if outpoint ∈ txs.flatMap spent then none
      else (CoinSet.latest (txs.flatMap (·.created height)) outpoint).or (coins.view outpoint) := by
  induction txs generalizing coins with
  | nil => rfl
  | cons tx later ih =>
    rw [applyAll_cons, ih ordered.2, view_apply, List.flatMap_cons, List.flatMap_cons,
      CoinSet.latest_append]
    by_cases spentLater : outpoint ∈ later.flatMap spent
    · rw [if_pos spentLater, if_pos (List.mem_append_right _ spentLater)]
    rw [if_neg spentLater]
    by_cases spentHere : outpoint ∈ tx.spent
    · -- What is spent here was there before: neither this one nor a later one creates it.
      have foreign := ordered.1 outpoint spentHere
      have unmade : CoinSet.latest (later.flatMap (·.created height)) outpoint = none := by
        rw [CoinSet.latest_eq_none_iff]
        intro made
        simp only [List.map_flatMap, map_fst_created, List.mem_flatMap] at made
        obtain ⟨other, held, own⟩ := made
        exact foreign other (List.mem_cons_of_mem tx held) own
      rw [if_pos spentHere, if_pos (List.mem_append_left _ spentHere), unmade,
        latest_created_eq_none_iff.mpr (foreign tx List.mem_cons_self)]
      rfl
    · have unspent : outpoint ∉ tx.spent ++ later.flatMap spent := by
        intro named
        exact (List.mem_append.mp named).elim spentHere spentLater
      rw [if_neg spentHere, if_neg unspent, Option.or_assoc]

end Transaction

namespace Block

open Transaction

section General

variable [Primitives]

/-- The same transactions in any other order leave the same coins, and so do they one after the
other, where every output comes before its spends. -/
theorem apply_eq_of_perm (block : Block) (coins : CoinSet) (height : Nat)
    (distinct : block.txids.Nodup) {order : List Transaction}
    (same : order.Perm block.transactions) :
    (apply { block with transactions := order } coins height).1 = (block.apply coins height).1 ∧
      (ParentsFirst order → (block.apply coins height).1 = applyAll order coins height) := by
  have spends : ∀ outpoint, outpoint ∈ order.flatMap Transaction.spent ↔ outpoint ∈ block.spent :=
    fun outpoint => (same.flatMap_right Transaction.spent).mem_iff
  have made : ∀ outpoint, CoinSet.latest (order.flatMap (·.created height)) outpoint =
      block.output? height outpoint :=
    latest_created_of_perm distinct same
  constructor
  · refine CoinSet.ext_view fun outpoint => ?_
    have created : output? { block with transactions := order } height outpoint
        = block.output? height outpoint := made outpoint
    rw [Block.view_apply, Block.view_apply, created]
    exact ite_congr (propext (spends outpoint)) (fun _ => rfl) fun _ => rfl
  · intro ordered
    refine CoinSet.ext_view fun outpoint => ?_
    rw [Block.view_apply, view_applyAll ordered, made]
    exact ite_congr (propext (spends outpoint).symm) (fun _ => rfl) fun _ => rfl

end General

namespace Shuffled

local instance : Primitives := Primitives.transparent

/-- The outpoint of a coin that was there before. -/
def old : OutPoint := ⟨Digest.zero, 0⟩

def parent : Transaction := ⟨1, [⟨old, [], 0⟩], [⟨900, []⟩, ⟨50, []⟩], 2⟩

/-- Spends the first output of its parent, and an outpoint at which there is nothing. -/
def child : Transaction :=
  ⟨1, [⟨⟨parent.txid, 0⟩, [], 0⟩, ⟨⟨parent.txid, 7⟩, [], 0⟩], [⟨800, []⟩], 1⟩

/-- A block that lists a transaction before the one whose output it spends. -/
def block : Block := ⟨BlockHeader.zero, none, [child, parent]⟩

/-- A coin set that holds a coin where the parent creates its second output. -/
def coins : CoinSet :=
  CoinSet.create ∅ [(old, ⟨1000, [], 0, false⟩), (⟨parent.txid, 1⟩, ⟨7, [], 0, false⟩)]

theorem apply_eq_parent_first :
    block.txids.Nodup ∧ [parent, child].Perm block.transactions ∧ ParentsFirst [parent, child] ∧
      ¬ ParentsFirst block.transactions ∧
      (apply { block with transactions := [parent, child] } coins 3).1
        = (block.apply coins 3).1 ∧
      (block.apply coins 3).1 = applyAll [parent, child] coins 3 := by
  have distinct : block.txids.Nodup := by decide +kernel
  have same : [parent, child].Perm block.transactions := List.Perm.swap child parent []
  have ordered : ParentsFirst [parent, child] := by decide +kernel
  have unordered : ¬ ParentsFirst block.transactions := by decide +kernel
  obtain ⟨permuted, sequential⟩ := apply_eq_of_perm block coins 3 distinct same
  exact ⟨distinct, same, ordered, unordered, permuted, sequential ordered⟩

end Shuffled

end Block

end ScryptLedger
