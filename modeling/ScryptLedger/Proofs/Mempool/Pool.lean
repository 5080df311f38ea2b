import Mathlib.Data.List.Nodup
import ScryptLedger.Proofs.Block.Connect
import ScryptLedger.Proofs.Mempool.Admission

/-!
# What a pool holds

Every pool comes about by admissions and removals, on whatever chains. In each,
a transaction stands under its own identity and is known as the spender of all
that it spends, and of nothing else; no two of them spend the same outpoint.
-/

namespace ScryptLedger.Mempool

/-- The values of a map are those of its entries, in the same order. -/
theorem values_eq_map_snd {Value : Type} (entries : Std.ExtTreeMap Hash Value compare) :
    entries.values = entries.toList.map Prod.snd := by
  have folded : entries.values = entries.foldr (fun _ value values => value :: values) [] := by
    obtain ⟨⟨entries⟩⟩ := entries
    rfl
  rw [folded, Std.ExtTreeMap.foldr_eq_foldr_toList, List.foldr_cons_eq_append, List.append_nil]

section Operations

variable (pool : Mempool) (txid : Hash)

theorem contains_eq_isSome : pool.contains txid = (pool.get? txid).isSome :=
  Std.ExtTreeMap.contains_eq_isSome_getElem?

theorem get?_insert (tx : Transaction) (fee : Int) (checks : Nat) (other : Hash) :
    (pool.insert txid tx fee checks).get? other =
      if other = txid then some ⟨tx, fee, tx.size, checks, pool.nextSequence⟩
      else pool.get? other := by
  simp only [get?, insert, Std.ExtTreeMap.getElem?_insert, Std.compare_eq_iff_eq,
    @eq_comm _ other]

theorem getElem?_spenders_foldl (spenders : Std.ExtTreeMap OutPoint Hash compare)
    (inputs : List TxInput) (outpoint : OutPoint) :
    (inputs.foldl (fun spenders input => spenders.insert input.outpoint txid) spenders)[outpoint]?
      = if outpoint ∈ inputs.map TxInput.outpoint then some txid else spenders[outpoint]? := by
  induction inputs generalizing spenders with
  | nil => rfl
  | cons input rest ih =>
    rw [List.foldl_cons, ih, Std.ExtTreeMap.getElem?_insert, List.map_cons]
    simp only [Std.compare_eq_iff_eq, List.mem_cons, @eq_comm _ outpoint]
    by_cases later : outpoint ∈ rest.map TxInput.outpoint
    · rw [if_pos later, if_pos (Or.inr later)]
    · rw [if_neg later]
      by_cases here : input.outpoint = outpoint
      · rw [if_pos here, if_pos (Or.inl here)]
      · rw [if_neg here, if_neg (not_or.mpr ⟨here, later⟩)]

theorem spender?_insert (tx : Transaction) (fee : Int) (checks : Nat) (outpoint : OutPoint) :
    (pool.insert txid tx fee checks).spender? outpoint =
      if outpoint ∈ tx.inputs.map TxInput.outpoint then some txid else pool.spender? outpoint :=
  getElem?_spenders_foldl txid pool.spenders tx.inputs outpoint

theorem get?_remove (other : Hash) :
    (pool.remove txid).get? other = if other = txid then none else pool.get? other := by
  rw [remove]
  cases held : pool.get? txid with
  | none =>
    by_cases same : other = txid
    · rw [if_pos same, same]
      exact held
    · rw [if_neg same]
  | some entry =>
    simp only [get?, Std.ExtTreeMap.getElem?_erase, Std.compare_eq_iff_eq, @eq_comm _ other]

variable {pool txid}

theorem get?_insert_eq_some_iff {tx : Transaction} {fee : Int} {checks : Nat} {other : Hash}
    {entry : MempoolEntry} :
    (pool.insert txid tx fee checks).get? other = some entry ↔
      (other = txid ∧ entry = ⟨tx, fee, tx.size, checks, pool.nextSequence⟩) ∨
        (other ≠ txid ∧ pool.get? other = some entry) := by
  rw [get?_insert]
  by_cases new : other = txid
  · simp [new, eq_comm]
  · simp [new]

theorem get?_remove_eq_some_iff {other : Hash} {entry : MempoolEntry} :
    (pool.remove txid).get? other = some entry ↔ other ≠ txid ∧ pool.get? other = some entry := by
  rw [get?_remove]
  by_cases gone : other = txid
  · simp [gone]
  · simp [gone]

/-- Forgetting some inputs of a transaction forgets exactly what it is the spender of. -/
theorem getElem?_forget_foldl (spenders : Std.ExtTreeMap OutPoint Hash compare)
    (inputs : List TxInput) (outpoint : OutPoint) :
    (inputs.foldl (forgetSpend txid) spenders)[outpoint]? =
      if outpoint ∈ inputs.map TxInput.outpoint ∧ spenders[outpoint]? = some txid then none
      else spenders[outpoint]? := by
  induction inputs generalizing spenders with
  | nil => simp
  | cons input rest ih =>
    have first : (forgetSpend txid spenders input)[outpoint]? =
        if input.outpoint = outpoint ∧ spenders[outpoint]? = some txid then none
        else spenders[outpoint]? := by
      rw [forgetSpend]
      by_cases here : input.outpoint = outpoint
      · subst here
        by_cases own : spenders[input.outpoint]? = some txid
        · rw [if_pos own, if_pos ⟨rfl, own⟩, Std.ExtTreeMap.getElem?_erase_self]
        · rw [if_neg own, if_neg fun both => own both.2]
      · rw [if_neg (c := input.outpoint = outpoint ∧ _) fun both => here both.1]
        by_cases own : spenders[input.outpoint]? = some txid
        · rw [if_pos own, Std.ExtTreeMap.getElem?_erase,
            if_neg (mt Std.compare_eq_iff_eq.mp here)]
        · rw [if_neg own]
    rw [List.foldl_cons, ih, first, List.map_cons]
    by_cases own : spenders[outpoint]? = some txid
    · by_cases here : input.outpoint = outpoint
      · simp [own, here]
      · simp [own, here, Ne.symm here]
    · simp [own]

/-- Forgetting what one transaction spends leaves what another one spends. -/
theorem spender?_remove {other : Hash} {outpoint : OutPoint} (different : other ≠ txid)
    (spent : pool.spender? outpoint = some other) :
    (pool.remove txid).spender? outpoint = some other := by
  rw [remove]
  cases pool.get? txid with
  | none => exact spent
  | some entry =>
    rw [spender?] at spent
    rw [spender?, getElem?_forget_foldl, spent, if_neg]
    exact fun both => different (Option.some.inj both.2)

theorem nextSequence_remove (pool : Mempool) (txid : Hash) :
    (pool.remove txid).nextSequence = pool.nextSequence := by
  rw [remove]
  cases pool.get? txid <;> rfl

end Operations

/-- Whether a pool knows as spent exactly what its transactions spend, each outpoint by the
transaction that spends it. -/
def Indexed (pool : Mempool) : Prop :=
  ∀ outpoint txid, pool.spender? outpoint = some txid ↔
    ∃ entry, pool.get? txid = some entry ∧ outpoint ∈ entry.tx.inputs.map TxInput.outpoint

namespace Indexed

variable {pool : Mempool}

/-- A removed transaction is forgotten as a spender, and no other one is. -/
theorem spender?_remove_iff (indexed : pool.Indexed) {txid other : Hash} {outpoint : OutPoint} :
    (pool.remove txid).spender? outpoint = some other ↔
      other ≠ txid ∧ pool.spender? outpoint = some other := by
  constructor
  · intro known
    cases held : pool.get? txid with
    | none =>
      rw [Mempool.remove, held] at known
      refine ⟨?_, known⟩
      rintro rfl
      obtain ⟨entry, held', -⟩ := (indexed outpoint other).mp known
      rw [held] at held'
      cases held'
    | some entry =>
      rw [Mempool.remove, held, spender?, getElem?_forget_foldl] at known
      split at known
      · cases known
      · rename_i own
        refine ⟨?_, known⟩
        rintro rfl
        obtain ⟨twin, held', spends⟩ := (indexed outpoint other).mp known
        cases held.symm.trans held'
        exact own ⟨spends, known⟩
  · rintro ⟨different, known⟩
    exact spender?_remove different known

theorem remove (indexed : pool.Indexed) (txid : Hash) : (pool.remove txid).Indexed := by
  intro outpoint other
  rw [indexed.spender?_remove_iff, indexed outpoint other]
  simp only [get?_remove_eq_some_iff, and_assoc, exists_and_left]

end Indexed

variable [Primitives]

omit [Primitives] in
theorem get?_empty_ne_some (txid : Hash) (entry : MempoolEntry) :
    Mempool.empty.get? txid ≠ some entry := by
  have none : Mempool.empty.get? txid = none := Std.ExtTreeMap.getElem?_empty
  rw [none]
  exact (Option.some_ne_none entry).symm

omit [Primitives] in
/-- A pool that has admitted one transaction lists that one. -/
theorem transactions_insert_empty (txid : Hash) (tx : Transaction) (fee : Int) (checks : Nat) :
    (Mempool.empty.insert txid tx fee checks).transactions = [tx] := by
  have one : (Mempool.empty.insert txid tx fee checks).entries.toList.length = 1 := by
    rw [Std.ExtTreeMap.length_toList, insert, Std.ExtTreeMap.size_insert]
    simp [empty]
  obtain ⟨entry, only⟩ := List.length_eq_one_iff.mp one
  have stored : (txid, ⟨tx, fee, tx.size, checks, 0⟩) ∈
      (Mempool.empty.insert txid tx fee checks).entries.toList :=
    Std.ExtTreeMap.mem_toList_iff_getElem?_eq_some.mpr Std.ExtTreeMap.getElem?_insert_self
  rw [only] at stored
  rw [transactions, values_eq_map_snd, only, ← List.mem_singleton.mp stored, List.map_singleton,
    List.mergeSort_singleton]
  rfl

/-- The pools that admissions and removals lead to. -/
inductive Reached : Mempool → Prop
  | empty : Reached Mempool.empty
  | accept {pool larger : Mempool} {tx : Transaction} {chain : Chain} (before : Reached pool)
      (admitted : pool.accept tx chain = .ok larger) : Reached larger
  | remove {pool : Mempool} (txid : Hash) (before : Reached pool) : Reached (pool.remove txid)

/-- Whether each transaction of a pool was admitted on top of a chain. -/
def AdmittedOn (pool : Mempool) (chain : Chain) : Prop :=
  ∀ txid entry, pool.get? txid = some entry →
    ∃ earlier later : Mempool, earlier.accept entry.tx chain = .ok later ∧
      later.get? txid = some entry

theorem admittedOn_empty (chain : Chain) : Mempool.empty.AdmittedOn chain :=
  fun txid entry held => absurd held (get?_empty_ne_some txid entry)

theorem AdmittedOn.accept {pool larger : Mempool} {tx : Transaction} {chain : Chain}
    (before : pool.AdmittedOn chain) (admitted : pool.accept tx chain = .ok larger) :
    larger.AdmittedOn chain := by
  obtain ⟨-, -, -, -, fee, checks, -, rfl⟩ := accept_eq_ok_iff.mp admitted
  intro txid entry held
  have stored := held
  rw [get?_insert] at held
  split at held
  · obtain rfl := Option.some.inj held
    exact ⟨pool, _, admitted, stored⟩
  · exact before txid entry held

/-- Whether the two maps of a pool are exact inverses, and its transactions are numbered. -/
structure Exact (pool : Mempool) : Prop where
  /-- Every transaction is stored under its identity. -/
  keyed : ∀ txid entry, pool.get? txid = some entry → entry.tx.txid = txid
  /-- The spender of an outpoint is the transaction of the pool that spends it. -/
  spender : ∀ outpoint txid, pool.spender? outpoint = some txid ↔
    ∃ entry, pool.get? txid = some entry ∧ outpoint ∈ entry.tx.inputs.map TxInput.outpoint
  /-- No transaction spends an outpoint twice. -/
  distinct : ∀ txid entry, pool.get? txid = some entry →
    (entry.tx.inputs.map TxInput.outpoint).Nodup
  /-- Every transaction was admitted before the next one will be. -/
  numbered : ∀ txid entry, pool.get? txid = some entry → entry.sequence < pool.nextSequence
  /-- No two transactions have the same number. -/
  ordered : ∀ txid other entry twin, pool.get? txid = some entry → pool.get? other = some twin →
    entry.sequence = twin.sequence → txid = other

namespace Exact

variable {pool : Mempool}

theorem indexed (exact : pool.Exact) : pool.Indexed := exact.spender

theorem empty : Mempool.empty.Exact where
  keyed txid entry held := absurd held (get?_empty_ne_some txid entry)
  spender outpoint txid := by
    have free : Mempool.empty.spender? outpoint = none := Std.ExtTreeMap.getElem?_empty
    rw [free]
    constructor
    · rintro ⟨⟩
    · rintro ⟨entry, held, _⟩
      exact absurd held (get?_empty_ne_some txid entry)
  distinct txid entry held := absurd held (get?_empty_ne_some txid entry)
  numbered txid entry held := absurd held (get?_empty_ne_some txid entry)
  ordered txid other entry twin held := absurd held (get?_empty_ne_some txid entry)

/-- No two transactions of a pool spend the same outpoint. -/
theorem disjoint (exact : pool.Exact) {txid other : Hash} {entry twin : MempoolEntry}
    (held : pool.get? txid = some entry) (held' : pool.get? other = some twin)
    (different : txid ≠ other) {outpoint : OutPoint}
    (spends : outpoint ∈ entry.tx.inputs.map TxInput.outpoint) :
    outpoint ∉ twin.tx.inputs.map TxInput.outpoint := by
  intro spends'
  have known := (exact.spender outpoint txid).mpr ⟨entry, held, spends⟩
  have known' := (exact.spender outpoint other).mpr ⟨twin, held', spends'⟩
  exact different (Option.some.inj (known.symm.trans known'))

/-- A transaction that is new and spends what no other one spends can be added. -/
theorem insert (exact : pool.Exact) (tx : Transaction) (fee : Int) (checks : Nat)
    (absent : pool.get? tx.txid = none)
    (free : ∀ outpoint ∈ tx.inputs.map TxInput.outpoint, pool.spender? outpoint = none)
    (distinct : (tx.inputs.map TxInput.outpoint).Nodup) :
    (pool.insert tx.txid tx fee checks).Exact where
  keyed txid entry held := by
    rcases get?_insert_eq_some_iff.mp held with ⟨rfl, rfl⟩ | ⟨_, held⟩
    · rfl
    · exact exact.keyed txid entry held
  spender outpoint txid := by
    simp only [get?_insert_eq_some_iff, spender?_insert]
    by_cases spends : outpoint ∈ tx.inputs.map TxInput.outpoint
    · rw [if_pos spends]
      constructor
      · intro same
        cases same
        exact ⟨_, Or.inl ⟨rfl, rfl⟩, spends⟩
      · rintro ⟨entry, ⟨rfl, _⟩ | ⟨_, held⟩, spends'⟩
        · rfl
        · have known := (exact.spender outpoint txid).mpr ⟨entry, held, spends'⟩
          rw [free outpoint spends] at known
          cases known
    · rw [if_neg spends, exact.spender outpoint txid]
      constructor
      · rintro ⟨entry, held, spends'⟩
        refine ⟨entry, Or.inr ⟨?_, held⟩, spends'⟩
        rintro rfl
        rw [absent] at held
        cases held
      · rintro ⟨entry, ⟨_, rfl⟩ | ⟨_, held⟩, spends'⟩
        · exact absurd spends' spends
        · exact ⟨entry, held, spends'⟩
  distinct txid entry held := by
    rcases get?_insert_eq_some_iff.mp held with ⟨_, rfl⟩ | ⟨_, held⟩
    · exact distinct
    · exact exact.distinct txid entry held
  numbered txid entry held := by
    change _ < pool.nextSequence + 1
    rcases get?_insert_eq_some_iff.mp held with ⟨_, rfl⟩ | ⟨_, held⟩
    · exact Nat.lt_succ_self _
    · exact Nat.lt_succ_of_lt (exact.numbered txid entry held)
  ordered txid other entry twin held held' same := by
    rcases get?_insert_eq_some_iff.mp held with ⟨rfl, rfl⟩ | ⟨_, held⟩
    · rcases get?_insert_eq_some_iff.mp held' with ⟨rfl, _⟩ | ⟨_, held'⟩
      · rfl
      · exact absurd same.symm (Nat.ne_of_lt (exact.numbered other twin held'))
    · rcases get?_insert_eq_some_iff.mp held' with ⟨rfl, rfl⟩ | ⟨_, held'⟩
      · exact absurd same (Nat.ne_of_lt (exact.numbered txid entry held))
      · exact exact.ordered txid other entry twin held held' same

theorem accept (exact : pool.Exact) {larger : Mempool} {tx : Transaction} {chain : Chain}
    (admitted : pool.accept tx chain = .ok larger) : larger.Exact := by
  obtain ⟨absent, passes, -, free, fee, checks, -, rfl⟩ := accept_eq_ok_iff.mp admitted
  refine exact.insert tx fee checks ?_ (fun outpoint spends => ?_)
    (Transaction.check_eq_ok_iff.mp passes).2.2.2.2.2.2.1
  · rw [contains_eq_isSome] at absent
    exact Option.isNone_iff_eq_none.mp (Option.isSome_eq_false_iff.mp absent)
  · obtain ⟨input, given, rfl⟩ := List.mem_map.mp spends
    exact free input given

theorem remove (exact : pool.Exact) (txid : Hash) : (pool.remove txid).Exact where
  keyed other entry held := exact.keyed other entry (get?_remove_eq_some_iff.mp held).2
  spender := exact.indexed.remove txid
  distinct other entry held := exact.distinct other entry (get?_remove_eq_some_iff.mp held).2
  numbered other entry held := by
    rw [nextSequence_remove]
    exact exact.numbered other entry (get?_remove_eq_some_iff.mp held).2
  ordered other third entry twin held held' :=
    exact.ordered other third entry twin (get?_remove_eq_some_iff.mp held).2
      (get?_remove_eq_some_iff.mp held').2

end Exact

/-- Every pool that admissions and removals lead to has exact maps. -/
theorem Reached.exact {pool : Mempool} (reached : pool.Reached) : pool.Exact := by
  induction reached with
  | empty => exact .empty
  | accept _ admitted ih => exact ih.accept admitted
  | remove txid _ ih => exact ih.remove txid

/-- Whether a pool knows its transactions by their identities and by all that they spend. -/
structure Consistent (pool : Mempool) : Prop where
  keyed : ∀ txid entry, pool.get? txid = some entry → entry.tx.txid = txid
  spends : ∀ txid entry, pool.get? txid = some entry →
    ∀ input ∈ entry.tx.inputs, pool.spender? input.outpoint = some txid
  distinct : ∀ txid entry, pool.get? txid = some entry →
    (entry.tx.inputs.map TxInput.outpoint).Nodup

theorem Reached.consistent {pool : Mempool} (reached : pool.Reached) : pool.Consistent where
  keyed := reached.exact.keyed
  spends txid entry held _ given :=
    (reached.exact.spender _ txid).mpr ⟨entry, held, List.mem_map_of_mem given⟩
  distinct := reached.exact.distinct

section Consistent

variable {pool : Mempool} (consistent : pool.Consistent)

include consistent

theorem mem_transactions {tx : Transaction} (held : tx ∈ pool.transactions) :
    ∃ entry, pool.get? tx.txid = some entry ∧ entry.tx = tx := by
  obtain ⟨entry, listed, rfl⟩ := List.mem_map.mp held
  rw [List.mem_mergeSort, values_eq_map_snd] at listed
  obtain ⟨⟨txid, entry⟩, stored, rfl⟩ := List.mem_map.mp listed
  have found : pool.get? txid = some entry :=
    Std.ExtTreeMap.mem_toList_iff_getElem?_eq_some.mp stored
  have key := consistent.keyed txid entry found
  exact ⟨entry, by rwa [key], rfl⟩

/-- No two transactions of a pool have the same identity. -/
theorem nodup_txids : (pool.transactions.map Transaction.txid).Nodup := by
  have order : (pool.transactions.map Transaction.txid).Perm pool.entries.keys := by
    rw [transactions, List.map_map]
    refine ((List.mergeSort_perm _ _).map _).trans ?_
    rw [values_eq_map_snd, ← Std.ExtTreeMap.map_fst_toList_eq_keys, List.map_map]
    refine List.Perm.of_eq (List.map_congr_left fun stored listed => ?_)
    exact consistent.keyed stored.1 stored.2
      (Std.ExtTreeMap.mem_toList_iff_getElem?_eq_some.mp listed)
  exact order.nodup_iff.mpr Std.ExtTreeMap.nodup_keys

/-- No two transactions of a pool spend the same outpoint. -/
theorem nodup_named : (Transaction.named pool.transactions).Nodup := by
  refine List.nodup_flatMap.mpr ⟨fun tx held => ?_, ?_⟩
  · obtain ⟨entry, found, rfl⟩ := mem_transactions consistent held
    exact consistent.distinct _ entry found
  · have apart : pool.transactions.Pairwise fun a b => a.txid ≠ b.txid :=
      List.pairwise_map.mp (nodup_txids consistent)
    refine apart.imp_of_mem fun {first second} held held' different => ?_
    -- The pool knows one spender for each outpoint.
    intro outpoint named again
    obtain ⟨entry, found, rfl⟩ := mem_transactions consistent held
    obtain ⟨other, found', rfl⟩ := mem_transactions consistent held'
    obtain ⟨input, given, rfl⟩ := List.mem_map.mp named
    obtain ⟨input', given', same⟩ := List.mem_map.mp again
    have spent := consistent.spends _ entry found input given
    have spent' := consistent.spends _ other found' input' given'
    rw [same, spent] at spent'
    exact different (Option.some.inj spent')

/-- What was found out about a transaction when it was admitted. -/
theorem AdmittedOn.found {chain : Chain} (admitted : pool.AdmittedOn chain) {txid : Hash}
    {entry : MempoolEntry} (held : pool.get? txid = some entry) :
    entry.tx.check = .ok () ∧ entry.tx.isCoinbase = false ∧
      checkSpends entry.tx chain = .ok (entry.fee, entry.sigChecks) := by
  obtain ⟨earlier, later, accepted, stored⟩ := admitted txid entry held
  obtain ⟨-, passes, ordinary, -, fee, checks, spends, rfl⟩ := accept_eq_ok_iff.mp accepted
  rw [get?_insert, if_pos (consistent.keyed txid entry held).symm] at stored
  refine ⟨passes, ordinary, ?_⟩
  rw [spends, ← Option.some.inj stored]

theorem AdmittedOn.check {chain : Chain} (admitted : pool.AdmittedOn chain) {tx : Transaction}
    (waits : tx ∈ pool.transactions) : tx.check = .ok () := by
  obtain ⟨entry, found, rfl⟩ := mem_transactions consistent waits
  exact (admitted.found consistent found).1

end Consistent

end ScryptLedger.Mempool
