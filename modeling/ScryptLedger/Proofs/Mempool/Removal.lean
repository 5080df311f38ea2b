import Mathlib.Logic.Relation
import ScryptLedger.Proofs.Mempool.Eviction

/-!
# What leaves a pool

A block takes out of a pool whatever spends what the block spends, and a
shorter chain takes out what it cannot fund. Both come to removals, one after
the other; what is still there is as it was.
-/

namespace ScryptLedger.Mempool

variable [Primitives] {pool : Mempool}

/-- Whether some removals lead from one pool to another. -/
def Removals : Mempool → Mempool → Prop :=
  Relation.ReflTransGen fun pool smaller => ∃ txid, smaller = pool.remove txid

omit [Primitives] in
theorem Removals.remove (pool : Mempool) (txid : Hash) : Removals pool (pool.remove txid) :=
  .single ⟨txid, rfl⟩

variable {smaller : Mempool}

theorem Removals.reached (removals : Removals pool smaller) (reached : pool.Reached) :
    smaller.Reached := by
  induction removals with
  | refl => exact reached
  | tail _ last ih =>
    obtain ⟨txid, rfl⟩ := last
    exact .remove txid ih

omit [Primitives] in
/-- Removals leave what is still there as it was. -/
theorem Removals.get?_eq (removals : Removals pool smaller) {txid : Hash} {entry : MempoolEntry}
    (held : smaller.get? txid = some entry) : pool.get? txid = some entry := by
  induction removals with
  | refl => exact held
  | tail _ last ih =>
    obtain ⟨gone, rfl⟩ := last
    exact ih (get?_remove_eq_some_iff.mp held).2

omit [Primitives] in
theorem Removals.eq_empty (removals : Removals Mempool.empty smaller) :
    smaller = Mempool.empty := by
  induction removals with
  | refl => rfl
  | tail _ last ih =>
    obtain ⟨txid, rfl⟩ := last
    have absent : Mempool.empty.get? txid = none := Std.ExtTreeMap.getElem?_empty
    rw [ih, Mempool.remove, absent]

section Steps

variable {State Item : Type} (poolOf : State → Mempool) {step : State → Item → State}

omit [Primitives] in
/-- Steps that only remove come to removals, one after the other. -/
theorem removals_foldl (each : ∀ state item, Removals (poolOf state) (poolOf (step state item)))
    (items : List Item) (state : State) :
    Removals (poolOf state) (poolOf (items.foldl step state)) := by
  induction items generalizing state with
  | nil => exact .refl
  | cons item rest ih => exact (each state item).trans (ih (step state item))

end Steps

omit [Primitives] in
theorem evict_removals (state : Mempool × Nat) (txid : Hash) :
    Removals state.1 (evict state txid).1 := by
  rw [evict]
  split
  · exact .remove state.1 txid
  · exact .refl

omit [Primitives] in
theorem evictSpender_removals (state : Mempool × Nat) (outpoint : OutPoint) :
    Removals state.1 (evictSpender state outpoint).1 := by
  rw [evictSpender]
  cases state.1.spender? outpoint with
  | none => exact .refl
  | some txid => exact evict_removals state txid

theorem evictFor_removals (state : Mempool × Nat) (tx : Transaction) :
    Removals state.1 (evictFor state tx).1 :=
  (evict_removals state tx.txid).trans
    (removals_foldl Prod.fst evictSpender_removals tx.spent (evict state tx.txid))

theorem removeForBlock_removals (pool : Mempool) (block : Block) :
    Removals pool (pool.removeForBlock block).1 :=
  removals_foldl Prod.fst evictFor_removals block.transactions (pool, 0)

/-- Nothing in the pool spends what a block has spent. -/
theorem spender?_removeForBlock (reached : pool.Reached) {block : Block} {outpoint : OutPoint}
    (spent : outpoint ∈ block.spent) : (pool.removeForBlock block).1.spender? outpoint = none := by
  have evicts := removeForBlock_evicts reached.exact.indexed block
  refine Option.eq_none_iff_forall_ne_some.mpr fun txid known => ?_
  obtain ⟨entry, left, spends⟩ := (evicts.indexed outpoint txid).mp known
  obtain ⟨-, stays⟩ := (evicts.get?_iff txid entry).mp left
  obtain ⟨tx, held, named⟩ := List.mem_flatMap.mp spent
  exact stays ⟨tx, held, Transaction.displaces_iff.mpr (Or.inr ⟨outpoint, named, spends⟩)⟩

omit [Primitives]

theorem removeInvalid_removals (pool : Mempool) (chain : Chain) :
    Removals pool (pool.removeInvalid chain).1 :=
  removals_foldl id Removals.remove _ pool

theorem get?_foldl_remove {txids : List Hash} {txid : Hash} {entry : MempoolEntry}
    (held : (txids.foldl remove pool).get? txid = some entry) :
    txid ∉ txids ∧ pool.get? txid = some entry := by
  induction txids generalizing pool with
  | nil => exact ⟨List.not_mem_nil, held⟩
  | cons first rest ih =>
    obtain ⟨later, held⟩ := ih held
    obtain ⟨different, held⟩ := get?_remove_eq_some_iff.mp held
    exact ⟨List.not_mem_cons_of_ne_of_not_mem different later, held⟩

/-- What is left in a pool can be funded by the chain that it was checked against. -/
theorem isFundedBy_of_removeInvalid {chain : Chain} {txid : Hash} {entry : MempoolEntry}
    (held : (pool.removeInvalid chain).1.get? txid = some entry) :
    isFundedBy entry.tx chain = true := by
  obtain ⟨fresh, held⟩ := get?_foldl_remove held
  by_contra stale
  refine fresh (List.mem_map.mpr ⟨(txid, entry), List.mem_filter.mpr ⟨?_, ?_⟩, rfl⟩)
  · exact Std.ExtTreeMap.mem_toList_iff_getElem?_eq_some.mpr held
  · simpa using stale

end ScryptLedger.Mempool
