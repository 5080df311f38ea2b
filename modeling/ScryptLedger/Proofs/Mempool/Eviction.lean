import Mathlib.Data.List.Sort
import ScryptLedger.Proofs.Mempool.Pool

/-!
# What a block takes out of a pool

A block takes a transaction's place in a pool if it contains the transaction, or one
that spends an outpoint which the transaction spends; its coinbase spends nothing. A
pool that knows its spenders finds exactly these transactions, one after the other: each
is taken out once, however many transactions of the block stand against it, and whatever
is left is found as before.
-/

namespace ScryptLedger

namespace Mempool

/-! ## Steps that take out -/

section Taken

variable {pool : Mempool} {txid : Hash}

theorem size_remove (there : pool.contains txid = true) :
    (pool.remove txid).size + 1 = pool.size := by
  have inside : txid ∈ pool.entries := there
  have nonempty : pool.size ≠ 0 :=
    mt Std.ExtTreeMap.eq_empty_iff_size_eq_zero.mpr (Std.ExtTreeMap.ne_empty_of_mem inside)
  have fewer : (pool.remove txid).size = pool.size - 1 := by
    rw [contains_eq_isSome] at there
    obtain ⟨entry, held⟩ := Option.isSome_iff_exists.mp there
    rw [remove, held]
    exact Std.ExtTreeMap.size_erase.trans (if_pos inside)
  omega

end Taken

/-- Whether a step takes exactly some transactions out of a pool, and counts them. -/
structure Evicts (state later : Mempool × Nat) (gone : Hash → MempoolEntry → Prop) : Prop where
  /-- The spenders of what is left are known. -/
  indexed : later.1.Indexed
  /-- Whatever is left is as it was. -/
  get?_iff : ∀ txid entry, later.1.get? txid = some entry ↔
    state.1.get? txid = some entry ∧ ¬ gone txid entry
  /-- Each transaction that is taken out is counted once. -/
  counted : later.1.size + later.2 = state.1.size + state.2
  /-- Transactions that come later are numbered as they would have been. -/
  next : later.1.nextSequence = state.1.nextSequence

namespace Evicts

variable {state middle later : Mempool × Nat} {gone goneToo : Hash → MempoolEntry → Prop}

theorem refl (indexed : state.1.Indexed) : Evicts state state fun _ _ => False where
  indexed := indexed
  get?_iff txid entry := by simp
  counted := rfl
  next := rfl

/-- What counts is which of the transactions of the pool are taken out. -/
theorem congr (evicts : Evicts state later gone)
    (same : ∀ txid entry, state.1.get? txid = some entry →
      (gone txid entry ↔ goneToo txid entry)) : Evicts state later goneToo where
  indexed := evicts.indexed
  get?_iff txid entry := by
    rw [evicts.get?_iff]
    exact and_congr_right fun held => not_congr (same txid entry held)
  counted := evicts.counted
  next := evicts.next

theorem trans (first : Evicts state middle gone) (second : Evicts middle later goneToo) :
    Evicts state later fun txid entry => gone txid entry ∨ goneToo txid entry where
  indexed := second.indexed
  get?_iff txid entry := by
    rw [second.get?_iff, first.get?_iff, not_or, and_assoc]
  counted := second.counted.trans first.counted
  next := second.next.trans first.next

/-- Several steps take out what one of them takes out. -/
theorem foldl {Item : Type} {step : Mempool × Nat → Item → Mempool × Nat}
    {goneFor : Item → Hash → MempoolEntry → Prop}
    (each : ∀ state item, state.1.Indexed → Evicts state (step state item) (goneFor item))
    (items : List Item) (indexed : state.1.Indexed) :
    Evicts state (items.foldl step state) fun txid entry =>
      ∃ item ∈ items, goneFor item txid entry := by
  induction items generalizing state with
  | nil => exact (refl indexed).congr fun txid entry _ => by simp
  | cons item rest ih =>
    have first := each state item indexed
    refine (first.trans (ih first.indexed)).congr fun txid entry _ => ?_
    rw [List.exists_mem_cons_iff]

end Evicts

/-! ## What single steps take out -/

section Steps

variable {state : Mempool × Nat} (indexed : state.1.Indexed)

include indexed

theorem evict_evicts (txid : Hash) :
    Evicts state (evict state txid) fun other _ => other = txid := by
  rw [evict]
  cases held : state.1.contains txid with
  | true =>
    exact {
      indexed := indexed.remove txid
      get?_iff := fun other entry => get?_remove_eq_some_iff.trans and_comm
      counted := by
        have fewer := size_remove held
        change (state.1.remove txid).size + (state.2 + 1) = state.1.size + state.2
        omega
      next := nextSequence_remove state.1 txid }
  | false =>
    refine (Evicts.refl indexed).congr fun other entry found => ?_
    -- What is not there cannot be meant.
    refine iff_of_false not_false ?_
    rintro rfl
    rw [contains_eq_isSome, found] at held
    cases held

/-- Of the transactions of a pool, its spender is the only one that spends an outpoint. -/
theorem evictSpender_evicts (outpoint : OutPoint) :
    Evicts state (evictSpender state outpoint) fun _ entry =>
      outpoint ∈ entry.tx.inputs.map TxInput.outpoint := by
  rw [evictSpender]
  cases known : state.1.spender? outpoint with
  | none =>
    refine (Evicts.refl indexed).congr fun txid entry held => ?_
    refine iff_of_false not_false fun spends => ?_
    have spender := (indexed outpoint txid).mpr ⟨entry, held, spends⟩
    exact Option.some_ne_none txid (spender.symm.trans known)
  | some spender =>
    refine (evict_evicts indexed spender).congr fun txid entry held => ?_
    constructor
    · rintro rfl
      obtain ⟨found, there, spends⟩ := (indexed outpoint txid).mp known
      cases there.symm.trans held
      exact spends
    · intro spends
      have also := (indexed outpoint txid).mpr ⟨entry, held, spends⟩
      exact Option.some.inj (also.symm.trans known)

end Steps

/-! ## What is left, as a list -/

section Order

variable {Item : Type} {le : Item → Item → Bool}

/-- Around an item in a sorted list, smaller items stand before it and the others after it. -/
theorem filter_of_sorted {item : Item} {before after : List Item}
    (sorted : (before ++ item :: after).Pairwise fun a b => le a b = true)
    (smaller : ∀ other ∈ before, (!le item other) = true) :
    (before ++ after).filter (fun other => !le item other) = before ∧
      (before ++ after).filter (le item) = after := by
  have later : ∀ other ∈ after, le item other = true :=
    (List.pairwise_cons.mp (List.pairwise_append.mp sorted).2.1).1
  rw [List.filter_append, List.filter_append]
  constructor
  · have all : before.filter (fun other => !le item other) = before :=
      List.filter_eq_self.mpr smaller
    have none : after.filter (fun other => !le item other) = [] :=
      List.filter_eq_nil_iff.mpr fun other held => by simp [later other held]
    rw [all, none, List.append_nil]
  · have none : before.filter (le item) = [] :=
      List.filter_eq_nil_iff.mpr fun other held => by simpa using smaller other held
    have all : after.filter (le item) = after := List.filter_eq_self.mpr later
    rw [none, all, List.nil_append]

/-- Fewer items are sorted into the order that they have among all. -/
theorem mergeSort_sublist (trans : ∀ a b c, le a b = true → le b c = true → le a c = true)
    (total : ∀ a b, (le a b || le b a) = true) {items others : List Item}
    (fewer : items.Sublist others) : (items.mergeSort le).Sublist (others.mergeSort le) := by
  induction fewer with
  | slnil => exact List.Sublist.refl _
  | @cons items others item fewer ih =>
    obtain ⟨before, after, sorted, rest, -⟩ := List.mergeSort_cons trans total item others
    rw [rest] at ih
    rw [sorted]
    exact ih.trans (List.Sublist.append_left (List.sublist_cons_self item after) before)
  | @cons_cons items others item fewer ih =>
    obtain ⟨before, after, sorted, rest, smaller⟩ := List.mergeSort_cons trans total item items
    obtain ⟨before', after', sorted', rest', smaller'⟩ :=
      List.mergeSort_cons trans total item others
    have ordered := List.pairwise_mergeSort trans total (item :: items)
    have ordered' := List.pairwise_mergeSort trans total (item :: others)
    rw [sorted] at ordered
    rw [sorted'] at ordered'
    rw [rest, rest'] at ih
    have first : before.Sublist before' := by
      rw [← (filter_of_sorted ordered smaller).1, ← (filter_of_sorted ordered' smaller').1]
      exact ih.filter _
    have second : after.Sublist after' := by
      rw [← (filter_of_sorted ordered smaller).2, ← (filter_of_sorted ordered' smaller').2]
      exact ih.filter _
    rw [sorted, sorted']
    exact first.append (second.cons_cons item)

end Order

/-- Whether a pool lists one transaction before another, by identity. -/
def ListedBefore (a b : Hash × MempoolEntry) : Prop := compare a.1 b.1 = .lt

instance : Std.Irrefl ListedBefore where
  irrefl held before := by
    rw [ListedBefore, Std.compare_self] at before
    cases before

instance : Std.Antisymm ListedBefore where
  antisymm _ _ before after := absurd after (Std.OrientedCmp.not_lt_of_lt before)

theorem pairwise_toList (entries : Std.ExtTreeMap Hash MempoolEntry compare) :
    entries.toList.Pairwise ListedBefore :=
  Std.ExtTreeMap.ordered_keys_toList

namespace Evicts

variable {state later : Mempool × Nat} {gone : Hash → MempoolEntry → Prop}
  [∀ txid entry, Decidable (gone txid entry)]

/-- What is left is listed as before. -/
theorem toList_eq (evicts : Evicts state later gone) :
    later.1.entries.toList =
      state.1.entries.toList.filter fun held => ¬ gone held.1 held.2 := by
  have listed := (pairwise_toList state.1.entries).filter fun held => ¬ gone held.1 held.2
  refine (pairwise_toList later.1.entries).eq_of_mem_iff listed fun held => ?_
  obtain ⟨txid, entry⟩ := held
  rw [List.mem_filter, Std.ExtTreeMap.mem_toList_iff_getElem?_eq_some,
    Std.ExtTreeMap.mem_toList_iff_getElem?_eq_some, decide_eq_true_iff]
  exact evicts.get?_iff txid entry

theorem length_filter (evicts : Evicts state later gone) :
    (state.1.entries.toList.filter fun held => gone held.1 held.2).length + state.2 = later.2 := by
  have all := List.length_eq_length_filter_add (l := state.1.entries.toList)
    fun held => decide (gone held.1 held.2)
  have left := congrArg List.length evicts.toList_eq
  have counted := evicts.counted
  simp only [decide_not] at left
  rw [Std.ExtTreeMap.length_toList] at all left
  simp only [size] at counted
  omega

omit [∀ txid entry, Decidable (gone txid entry)] in
theorem transactions_sublist (evicts : Evicts state later gone) :
    later.1.transactions.Sublist state.1.transactions := by
  classical
  have fewer : later.1.entries.values.Sublist state.1.entries.values := by
    rw [values_eq_map_snd, values_eq_map_snd, evicts.toList_eq]
    exact List.Sublist.map Prod.snd List.filter_sublist
  refine List.Sublist.map MempoolEntry.tx (mergeSort_sublist ?_ ?_ fewer)
  · intro a b c earlier later
    simp only [decide_eq_true_iff] at earlier later ⊢
    exact Nat.le_trans earlier later
  · intro a b
    simp only [Bool.or_eq_true, decide_eq_true_iff]
    exact Nat.le_total a.sequence b.sequence

end Evicts

end Mempool

/-! ## What a block takes out -/

section Blocks

variable [Primitives]

/-- Whether a transaction of a block takes the place of one in a pool. -/
def Transaction.Displaces (tx : Transaction) (txid : Hash) (entry : MempoolEntry) : Prop :=
  txid = tx.txid ∨
    tx.isCoinbase = false ∧
      ∃ input ∈ tx.inputs, input.outpoint ∈ entry.tx.inputs.map TxInput.outpoint

instance (tx : Transaction) (txid : Hash) (entry : MempoolEntry) :
    Decidable (tx.Displaces txid entry) :=
  inferInstanceAs (Decidable (_ ∨ _ ∧ _))

/-- Whether a block takes the place of a transaction in a pool. -/
def Block.Displaces (block : Block) (txid : Hash) (entry : MempoolEntry) : Prop :=
  ∃ tx ∈ block.transactions, tx.Displaces txid entry

instance (block : Block) (txid : Hash) (entry : MempoolEntry) :
    Decidable (block.Displaces txid entry) :=
  inferInstanceAs (Decidable (∃ tx ∈ block.transactions, _))

theorem Transaction.displaces_iff {tx : Transaction} {txid : Hash} {entry : MempoolEntry} :
    tx.Displaces txid entry ↔
      txid = tx.txid ∨ ∃ outpoint ∈ tx.spent, outpoint ∈ entry.tx.inputs.map TxInput.outpoint := by
  rw [Displaces, spent]
  cases tx.isCoinbase <;> simp

namespace Mempool

theorem evictFor_evicts {state : Mempool × Nat} (indexed : state.1.Indexed) (tx : Transaction) :
    Evicts state (evictFor state tx) tx.Displaces := by
  have own := evict_evicts indexed tx.txid
  have others := Evicts.foldl (fun _ outpoint indexed => evictSpender_evicts indexed outpoint)
    tx.spent own.indexed
  exact (own.trans others).congr fun txid entry _ => Transaction.displaces_iff.symm

theorem removeForBlock_evicts {pool : Mempool} (indexed : pool.Indexed) (block : Block) :
    Evicts (pool, 0) (pool.removeForBlock block) block.Displaces :=
  Evicts.foldl (fun _ tx indexed => evictFor_evicts indexed tx) block.transactions indexed

/-! ## The result -/

/-- A pool that knows its spenders loses to a block exactly the transactions that the block contains
or spends an outpoint of. What is left is as it was, in the order of admission, and its spenders are
known; the number that is told is the number of transactions that are gone. -/
theorem removeForBlock_exact {pool : Mempool} (indexed : pool.Indexed) (block : Block) :
    (∀ txid entry, (pool.removeForBlock block).1.get? txid = some entry ↔
      pool.get? txid = some entry ∧ ¬ block.Displaces txid entry) ∧
      (pool.removeForBlock block).1.Indexed ∧
      (pool.removeForBlock block).1.transactions.Sublist pool.transactions ∧
      (pool.removeForBlock block).1.nextSequence = pool.nextSequence ∧
      (pool.removeForBlock block).2 =
        (pool.entries.toList.filter fun held => block.Displaces held.1 held.2).length ∧
      (pool.removeForBlock block).1.size + (pool.removeForBlock block).2 = pool.size := by
  have evicts := removeForBlock_evicts indexed block
  exact ⟨evicts.get?_iff, evicts.indexed, evicts.transactions_sublist, evicts.next,
    evicts.length_filter.symm, evicts.counted⟩

end Mempool

end Blocks

namespace Mempool.Rivals

local instance : Primitives := Primitives.transparent

/-- Spends some outputs of one transaction. -/
def spending (indices : List UInt32) (lockTime : UInt32) : Transaction where
  version := 1
  inputs := indices.map fun index => ⟨⟨Digest.zero, index⟩, [], 0⟩
  outputs := [⟨1000, List.replicate 40 0⟩]
  lockTime := lockTime

/-- Three transactions, of which the first spends two outputs. -/
def pool : Mempool :=
  ((Mempool.empty.insert (spending [0, 1] 1).txid (spending [0, 1] 1) 10 1).insert
    (spending [2] 2).txid (spending [2] 2) 20 1).insert (spending [3] 3).txid (spending [3] 3) 30 1

/-- Spends the outputs of the first one twice, and contains the second one beside a rival. The
coinbase names nothing. -/
def block : Block where
  header := BlockHeader.zero
  auxpow := none
  transactions := [Coinbase.build 1 [], spending [0] 4, spending [1, 2] 5, spending [2] 2]

theorem indexed_pool : pool.Indexed := by
  have first := Exact.empty.insert (spending [0, 1] 1) 10 1 (by decide +kernel)
    (by decide +kernel) (by decide)
  have second := first.insert (spending [2] 2) 20 1 (by decide +kernel) (by decide +kernel)
    (by decide)
  exact (second.insert (spending [3] 3) 30 1 (by decide +kernel) (by decide +kernel)
    (by decide)).indexed

theorem removeForBlock_exact_of_rivals :
    pool.Indexed ∧ (pool.removeForBlock block).2 = 2 ∧
      (pool.removeForBlock block).1.get? (spending [3] 3).txid =
        some ⟨spending [3] 3, 30, (spending [3] 3).size, 1, 2⟩ := by
  obtain ⟨left, -, -, -, counted, -⟩ := removeForBlock_exact indexed_pool block
  exact ⟨indexed_pool, counted.trans (by decide +kernel),
    (left _ _).mpr ⟨by decide +kernel, by decide +kernel⟩⟩

end Mempool.Rivals

end ScryptLedger
