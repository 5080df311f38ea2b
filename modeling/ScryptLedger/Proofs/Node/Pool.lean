import ScryptLedger.Proofs.Block.Spend
import ScryptLedger.Proofs.Chain.Invalidation
import ScryptLedger.Proofs.Mempool.Removal
import ScryptLedger.Proofs.Mining.Withdrawal
import ScryptLedger.Proofs.Node.Run

/-!
# The pool of a node

A pool is told of blocks after they came or went. Still, after every request
each of its transactions can stand in the next block, for the fee that was
noted when it was admitted: a block takes the transactions out that spend what
it spends, and leaves the coins of the others alone; when blocks are ruled out,
what cannot be funded any more goes. Only a block that creates an outpoint
anew, which is still unspent, could put another coin in the place of one that
the pool relies on, so that no such block is connected is assumed.
-/

namespace ScryptLedger

section Chains

variable [Primitives]

/-- Whether a block creates an outpoint anew that is still unspent, and leaves it so. -/
def Block.Recreates (block : Block) (coins : CoinSet) : Prop :=
  ∃ outpoint ∈ block.outpoints, outpoint ∉ block.spent ∧ coins.view outpoint ≠ none

theorem Block.not_recreates_of_spares {block : Block} {coins : CoinSet}
    (spares : block.Spares coins) : ¬ block.Recreates coins := by
  rintro ⟨outpoint, own, -, there⟩
  exact there (spares outpoint (Or.inl own))

namespace Chain

omit [Primitives] in
/-- The fee that a transaction leaves in the next block. -/
def nextFee (chain : Chain) (tx : Transaction) : Except TxInputsError Int :=
  tx.fee chain.coins.view chain.rules.params (chain.height + 1)

variable {chain : Chain} {tx : Transaction} {fee : Int}

omit [Primitives] in
theorem exists_coin_of_nextFee (paid : chain.nextFee tx = .ok fee) {outpoint : OutPoint}
    (spends : outpoint ∈ tx.inputs.map TxInput.outpoint) :
    ∃ coin, chain.coins.view outpoint = some coin := by
  obtain ⟨coin, there, -⟩ := (Transaction.fee_eq_ok_iff.mp paid).1 outpoint spends
  exact ⟨coin, there⟩

/-- A block that spends nothing which a transaction spends leaves that one its fee. -/
theorem nextFee_grow {block : Block} {connected : Connected} (fits : chain.Extends block connected)
    (sparing : ¬ block.Recreates chain.coins)
    (apart : ∀ outpoint ∈ tx.inputs.map TxInput.outpoint, outpoint ∉ block.spent)
    (paid : chain.nextFee tx = .ok fee) : (chain.grow block connected).nextFee tx = .ok fee := by
  have kept : ∀ outpoint ∈ tx.inputs.map TxInput.outpoint,
      connected.coins.view outpoint = chain.coins.view outpoint := by
    intro outpoint spends
    obtain ⟨coin, there⟩ := exists_coin_of_nextFee paid spends
    have foreign : outpoint ∉ block.outpoints := by
      intro own
      refine sparing ⟨outpoint, own, apart outpoint spends, ?_⟩
      rw [there]
      exact Option.some_ne_none coin
    rw [Block.coins_of_connect fits.accepted, Block.view_apply, if_neg (apart outpoint spends),
      Block.output?_eq_none_iff.mpr foreign, Option.none_or]
  have higher : chain.height + 1 ≤ chain.height + 1 + 1 := Nat.le_succ _
  refine Transaction.fee_of_shows (fun outpoint spends => ?_) (Transaction.fee_mono paid higher)
  obtain ⟨coin, there⟩ := exists_coin_of_nextFee paid spends
  exact ⟨coin, coin, (kept outpoint spends).trans there, there, rfl, id⟩

end Chain

end Chains

namespace Mempool

variable [Primitives]

omit [Primitives] in
/-- Whether each transaction of a pool can stand in the next block, for the fee that the pool has
noted; where it spends an output under a shared identity, that fee may be another one. -/
def FundedOn (pool : Mempool) (chain : Chain) (shared : Hash → Prop) : Prop :=
  ∀ txid entry, pool.get? txid = some entry →
    ∃ fee, chain.nextFee entry.tx = .ok fee ∧
      (fee = entry.fee ∨ ∃ outpoint ∈ entry.tx.inputs.map TxInput.outpoint, shared outpoint.hash)

variable {pool : Mempool} {chain : Chain} {shared : Hash → Prop}

omit [Primitives] in
theorem fundedOn_empty (chain : Chain) (shared : Hash → Prop) :
    Mempool.empty.FundedOn chain shared :=
  fun txid entry held => absurd held (get?_empty_ne_some txid entry)

omit [Primitives] in
theorem FundedOn.mono (funded : pool.FundedOn chain shared) {wider : Hash → Prop}
    (implies : ∀ txid, shared txid → wider txid) : pool.FundedOn chain wider := by
  intro txid entry held
  obtain ⟨fee, paid, noted | ⟨outpoint, spends, both⟩⟩ := funded txid entry held
  · exact ⟨fee, paid, Or.inl noted⟩
  · exact ⟨fee, paid, Or.inr ⟨outpoint, spends, implies outpoint.hash both⟩⟩

theorem FundedOn.accept (funded : pool.FundedOn chain shared) {tx : Transaction}
    {larger : Mempool} (admitted : pool.accept tx chain = .ok larger) :
    larger.FundedOn chain shared := by
  obtain ⟨-, -, -, -, fee, checks, spends, rfl⟩ := accept_eq_ok_iff.mp admitted
  intro txid entry held
  rcases get?_insert_eq_some_iff.mp held with ⟨_, rfl⟩ | ⟨_, old⟩
  · exact ⟨fee, (checkSpends_eq_ok_iff.mp spends).1, Or.inl rfl⟩
  · exact funded txid entry old

/-- What a block leaves in a pool, it leaves funded. -/
theorem FundedOn.removeForBlock (funded : pool.FundedOn chain shared) (reached : pool.Reached)
    {block : Block} {connected : Connected} (fits : chain.Extends block connected)
    (sparing : ¬ block.Recreates chain.coins) :
    (pool.removeForBlock block).1.FundedOn (chain.grow block connected) shared := by
  intro txid entry held
  have removals := removeForBlock_removals pool block
  obtain ⟨fee, paid, noted⟩ := funded txid entry (removals.get?_eq held)
  refine ⟨fee, Chain.nextFee_grow fits sparing (fun outpoint spends spent => ?_) paid, noted⟩
  -- What spends an outpoint that the block spends is no longer there.
  have known := ((removals.reached reached).exact.spender outpoint txid).mpr ⟨entry, held, spends⟩
  rw [spender?_removeForBlock reached spent] at known
  cases known

omit [Primitives] in
/-- What is left in a pool when another chain takes over is funded by that chain, and for the same
fee where the coins of both are worth the same. -/
theorem FundedOn.removeInvalid (funded : pool.FundedOn chain shared) {other : Chain}
    (worth : ∀ outpoint coin twin, chain.coins.view outpoint = some coin →
      other.coins.view outpoint = some twin → twin.value = coin.value ∨ shared outpoint.hash) :
    (pool.removeInvalid other).1.FundedOn other shared := by
  intro txid entry held
  obtain ⟨fee, paid, noted⟩ := funded txid entry ((removeInvalid_removals pool other).get?_eq held)
  have still := isFundedBy_of_removeInvalid held
  rw [isFundedBy] at still
  split at still
  · rename_i fee' paid'
    refine ⟨fee', paid', ?_⟩
    by_cases doubtful : ∃ outpoint ∈ entry.tx.inputs.map TxInput.outpoint, shared outpoint.hash
    · exact Or.inr doubtful
    · have same : fee' = fee := by
        refine Transaction.fee_unique paid paid' fun outpoint spends => ?_
        obtain ⟨coin, before⟩ := Chain.exists_coin_of_nextFee paid spends
        obtain ⟨twin, after⟩ := Chain.exists_coin_of_nextFee paid' spends
        have equal := (worth outpoint coin twin before after).resolve_right
          fun both => doubtful ⟨outpoint, spends, both⟩
        rw [CoinView.value_of_some before, CoinView.value_of_some after, equal]
      exact Or.inl (same.trans (noted.resolve_right doubtful))
  · cases still

end Mempool

namespace Node

variable [Primitives]

/-- Whether no block that a run connects creates an outpoint anew that is still unspent. -/
def Sparing (node : Node) (requests : List NodeRequest) : Prop :=
  ∀ earlier request block, earlier ++ [request] <+: requests →
    (node.run earlier).Connects request block → ¬ block.Recreates (node.run earlier).chain.coins

/-- Whether two different transactions of the blocks that a run connects have a given identity. -/
def SharesTxid (node : Node) (requests : List NodeRequest) (txid : Hash) : Prop :=
  ∃ block other, node.HasConnected requests block ∧ node.HasConnected requests other ∧
    ∃ tx ∈ block.transactions, ∃ twin ∈ other.transactions,
      tx ≠ twin ∧ tx.txid = txid ∧ twin.txid = txid

variable {node : Node} {earlier requests : List NodeRequest}

theorem Sparing.of_prefix (sparing : node.Sparing requests) (started : earlier <+: requests) :
    node.Sparing earlier :=
  fun past request block first => sparing past request block (first.trans started)

theorem Sparing.nil : node.Sparing [] := by
  intro earlier request block started
  have none := List.prefix_nil.mp started
  simp at none

theorem Sparing.concat (sparing : node.Sparing requests) {request : NodeRequest}
    (spares : ∀ block, (node.run requests).Connects request block →
      ¬ block.Recreates (node.run requests).chain.coins) :
    node.Sparing (requests ++ [request]) := by
  intro earlier next block started connects
  rcases List.prefix_concat_iff.mp started with whole | inside
  · obtain ⟨rfl, last⟩ := List.append_inj' whole rfl
    obtain rfl := List.singleton_inj.mp last
    exact spares block connects
  · exact sparing earlier next block inside connects

/-- A request that offers no block changes nothing about that. -/
theorem Sparing.concat_idle (sparing : node.Sparing requests) {request : NodeRequest}
    (idle : ∀ node : Node, node.offered? request = none) :
    node.Sparing (requests ++ [request]) := by
  refine sparing.concat fun block connects => ?_
  have offered := connects.1
  rw [idle] at offered
  cases offered

theorem Sparing.append (before : node.Sparing earlier) {later : List NodeRequest}
    (after : (node.run earlier).Sparing later) : node.Sparing (earlier ++ later) := by
  induction later using List.reverseRecOn with
  | nil => rwa [List.append_nil]
  | append_singleton middle request ih =>
    rw [← List.append_assoc]
    refine (ih (after.of_prefix (List.prefix_append middle [request]))).concat fun block => ?_
    rw [run_append]
    exact after middle request block (List.prefix_refl _)

theorem SharesTxid.of_prefix {txid : Hash} (shares : node.SharesTxid earlier txid)
    (started : earlier <+: requests) : node.SharesTxid requests txid := by
  obtain ⟨block, other, first, second, different⟩ := shares
  exact ⟨block, other, first.of_prefix started, second.of_prefix started, different⟩

/-- Whatever is asked of a node, its pool comes about by admissions and removals. -/
theorem reached_run (empty : node.mempool = Mempool.empty) (requests : List NodeRequest) :
    (node.run requests).mempool.Reached := by
  induction requests using List.reverseRecOn with
  | nil => exact empty ▸ .empty
  | append_singleton earlier request ih =>
    rw [run_concat]
    have change := change_of_after (node.run earlier) request
    generalize (node.run earlier).after request = later at change
    cases change with
    | refused => exact ih
    | connected block connected connects fits chain mempool =>
      rw [mempool]
      exact (Mempool.removeForBlock_removals _ block).reached ih
    | admitted tx admitted chain => exact .accept ih admitted
    | invalidated hash update done chain mempool =>
      rw [mempool]
      exact (Mempool.removeInvalid_removals _ _).reached ih
    | finalized hash update done chain mempool => exact mempool ▸ ih

/-- The coins that lie at an outpoint at two points of a run are worth the same, unless two
different transactions could have created them. -/
theorem value_eq_of_view {rules : Rules} (fresh : node.chain = Chain.new rules)
    (started : earlier <+: requests) {outpoint : OutPoint} {coin twin : Coin}
    (before : (node.run earlier).chain.coins.view outpoint = some coin)
    (after : (node.run requests).chain.coins.view outpoint = some twin) :
    twin.value = coin.value ∨ node.SharesTxid requests outpoint.hash := by
  obtain ⟨block, connected, tx, held, named, output, -⟩ := makes_of_view fresh before
  obtain ⟨block', connected', other, held', named', output', -⟩ := makes_of_view fresh after
  by_cases same : tx = other
  · subst same
    have outputs := Option.some.inj (output'.symm.trans output)
    exact Or.inl (congrArg TxOutput.value outputs)
  · exact Or.inr ⟨block, block', connected.of_prefix started, connected', tx, held, other, held',
      same, named, named'⟩

/-- After every request, each transaction of the pool is funded. -/
theorem fundedOn_run {rules : Rules} (fresh : node.chain = Chain.new rules)
    (empty : node.mempool = Mempool.empty) (sparing : node.Sparing requests) :
    (node.run requests).mempool.FundedOn (node.run requests).chain (node.SharesTxid requests) := by
  induction requests using List.reverseRecOn with
  | nil =>
    change node.mempool.FundedOn _ _
    rw [empty]
    exact Mempool.fundedOn_empty _ _
  | append_singleton earlier request ih =>
    have started := List.prefix_append earlier [request]
    have before := (ih (sparing.of_prefix started)).mono fun _ shares => shares.of_prefix started
    have worth : ∀ outpoint coin twin,
        (node.run earlier).chain.coins.view outpoint = some coin →
        (node.run (earlier ++ [request])).chain.coins.view outpoint = some twin →
        twin.value = coin.value ∨ node.SharesTxid (earlier ++ [request]) outpoint.hash :=
      fun _ _ _ => value_eq_of_view fresh started
    have change := change_of_after (node.run earlier) request
    rw [run_concat] at worth ⊢
    generalize (node.run earlier).after request = later at change worth ⊢
    cases change with
    | refused => exact before
    | connected block connected connects fits chain mempool =>
      rw [mempool, chain]
      exact before.removeForBlock (reached_run empty earlier) fits
        (sparing earlier request block (List.prefix_refl _) connects)
    | admitted tx admitted chain =>
      rw [chain]
      exact before.accept admitted
    | invalidated hash update done chain mempool =>
      rw [chain] at worth
      rw [mempool, chain]
      exact before.removeInvalid worth
    | finalized hash update done chain mempool =>
      obtain ⟨info, -, rfl⟩ := Chain.finalize_eq_ok_iff.mp done
      rw [mempool, chain]
      exact before

theorem new_eq_ok {config : NodeConfig} (started : Node.new config = .ok node) :
    node.chain = Chain.new (Rules.ofConfig config) ∧ node.mempool = Mempool.empty := by
  rw [Node.new] at started
  split at started
  · cases started
  · cases started
    exact ⟨rfl, rfl⟩

/-- Whatever is asked of a new node, its pool knows each transaction by its identity and by the
outpoints that it spends, no two transactions of the pool spend the same outpoint, and each can
stand in the next block for the fee that was noted when it was admitted. Only where it spends an
output under an identity that two different transactions of the node's blocks share, that fee may
be another one. -/
theorem pool_run {config : NodeConfig} {node : Node} (started : Node.new config = .ok node)
    {requests : List NodeRequest} (sparing : node.Sparing requests) :
    (node.run requests).mempool.Exact ∧
      (∀ txid other entry twin, (node.run requests).mempool.get? txid = some entry →
        (node.run requests).mempool.get? other = some twin → txid ≠ other →
          ∀ outpoint ∈ entry.tx.inputs.map TxInput.outpoint,
            outpoint ∉ twin.tx.inputs.map TxInput.outpoint) ∧
      (node.run requests).mempool.FundedOn (node.run requests).chain
        (node.SharesTxid requests) := by
  obtain ⟨fresh, empty⟩ := new_eq_ok started
  have exact := (reached_run empty requests).exact
  refine ⟨exact, fun txid other entry twin held held' different outpoint spends => ?_, ?_⟩
  · exact exact.disjoint held held' different spends
  · exact fundedOn_run fresh empty sparing

end Node

namespace Node.Mining

local instance : Primitives := Primitives.transparent

open PrivateNetwork

/-- Every block pays to anyone. -/
def payee (_ : Nat) : Bytes := [0x51]

theorem payable : Payable payee 127 where
  early := by decide
  short _ := (by decide : [0x51].length ≤ 100)
  distinct a b _ low _ low' same := by
    have shown := congrArg shownHeight same
    rwa [payee, payee, shownHeight_coinbase a (by omega),
      shownHeight_coinbase b (by omega)] at shown

def node : Node :=
  ⟨Chain.new (Rules.ofConfig NodeConfig.default), Publisher.empty, Mempool.empty⟩

/-- Asks for one block after the other. -/
def mining (count : Nat) : List NodeRequest :=
  (List.range count).map fun below => .generate [0x51] (genesisTime + (below + 1) : Nat)

section Generate

variable {node : Node} {script : Bytes} {time : Int} {block : Block}
variable (made : node.chain.newBlock node.mempool.transactions script time = .ok block)
variable (solved : block.header.isSolved node.chain.rules.params = true)

include made solved

theorem mine_eq : node.mine script time = .ok block := by
  rw [mine, made]
  change (do return { block with header := ← block.header.solve node.chain.rules.params }) = _
  rw [BlockHeader.solve_of_isSolved solved]
  rfl

theorem eq_of_connects {other : Block} (connects : node.Connects (.generate script time) other) :
    other = block := by
  have offered : (node.mine script time).toOption = some other := connects.1
  rw [mine_eq made solved] at offered
  exact (Option.some.inj offered).symm

theorem after_generate {connected : Connected} (fits : node.chain.Extends block connected) :
    (node.after (.generate script time)).chain = node.chain.grow block connected ∧
      (node.after (.generate script time)).mempool = (node.mempool.removeForBlock block).1 := by
  have grown := Chain.connect_eq_ok_iff.mpr ⟨connected, fits, rfl⟩
  have connects : node.connect block = .ok _ :=
    Outcome.bind_eq_ok_iff.mpr ⟨_, grown, rfl⟩
  have generates := generate_eq_ok_iff.mpr ⟨block, mine_eq made solved, connects⟩
  have updates : node.update? (.generate script time) = some _ :=
    Outcome.toOption_eq_some_iff.mpr generates
  rw [after, updates]
  exact ⟨rfl, rfl⟩

end Generate

/-- A node with nothing in its pool puts one block after the other on its chain. -/
theorem solitary_run {count : Nat} (low : count ≤ 127) :
    Solitary 1000000 payee count (node.run (mining count)).chain ∧
      (node.run (mining count)).mempool = Mempool.empty ∧ node.Sparing (mining count) := by
  induction count with
  | zero => exact ⟨solitary_new 1000000 payee, rfl, .nil⟩
  | succ count ih =>
    obtain ⟨solitary, empty, sparing⟩ := ih (by omega)
    have low' : count < 127 := low
    obtain ⟨connected, fits⟩ := solitary.exists_extends payable low' (by decide)
    have made : (node.run (mining count)).chain.newBlock
        (node.run (mining count)).mempool.transactions [0x51] (genesisTime + (count + 1) : Nat)
        = .ok (nextBlock (node.run (mining count)).chain payee) := by
      rw [empty]
      exact solitary.newBlock_eq (by omega) _ _
    have solved : (nextBlock (node.run (mining count)).chain payee).header.isSolved
        (node.run (mining count)).chain.rules.params = true := by
      rw [solitary.rules_eq]
      exact isSolved_of_bits rfl
    have next : mining (count + 1) =
        mining count ++ [.generate [0x51] (genesisTime + (count + 1) : Nat)] := by
      rw [mining, List.range_succ, List.map_append]
      rfl
    obtain ⟨chain, mempool⟩ := after_generate made solved fits
    rw [next, run_concat, chain, mempool, empty]
    refine ⟨solitary.grow payable low' fits, (Mempool.removeForBlock_removals _ _).eq_empty,
      sparing.concat ?_⟩
    intro block connects
    obtain rfl := eq_of_connects made solved connects
    exact Block.not_recreates_of_spares (solitary.spares_next payable low')

/-- Spends the coin of the block at a height. -/
def spending (place : Nat) : Transaction where
  version := 1
  inputs := [⟨source (payee place) place, [], 0xffffffff⟩]
  outputs := [⟨4000000000, Script.push (List.replicate 60 0)⟩]
  lockTime := UInt32.ofNat place

/-- Spends the first coin as well. -/
def rival : Transaction := { spending 1 with lockTime := 0 }

theorem withdraws_spending {place : Nat} (listed : place ∈ [1, 2, 4]) :
    Withdraws (spending place) (source (payee place) place) 4000000000 := by
  have passes : ∀ place ∈ [1, 2, 4], (spending place).check = .ok () ∧
      (spending place).isCoinbase = false ∧ (spending place).size ≤ 1000 := by
    decide +kernel
  obtain ⟨check, ordinary, small⟩ := passes place listed
  exact ⟨check, ordinary, rfl, rfl, by decide, by decide, small⟩

theorem verifyScripts_spending : ∀ place ∈ [1, 2, 4], ∀ height ∈ [103, 104],
    (spending place).verifyScripts [coin (payee place) place]
      ((rules 1000000).relayFlags height) = .ok 0 := by
  decide +kernel

theorem tells_spending : Tells payee 102 (spending 1) (newest 103 [0x51] 4000000000) where
  taken height positive low same := by
    have shown := congrArg shownHeight same
    have none : shownHeight (spending 1).txid = 0 := by decide +kernel
    rw [payee, shownHeight_coinbase height (by omega), none] at shown
    omega
  latest height positive low same := by
    have shown := congrArg shownHeight same
    have last : shownHeight (newest 103 [0x51] 4000000000).txid = 103 := by decide +kernel
    rw [payee, shownHeight_coinbase height (by omega), last] at shown
    omega
  both := by decide +kernel

/-! ### Payments

On such a chain of a hundred and two blocks the coins of the first three can be spent. The first
of them is offered to the pool twice, and taken by a block. With this block the fourth coin matures,
and can be spent no more when the block is ruled out.
-/

/-- A payment, and another one that spends the same coin. -/
def offering : List NodeRequest := [.accept (spending 1), .accept rival]

/-- Then a block that takes the payment. -/
def taking : List NodeRequest := offering ++ [.generate [0x51] (genesisTime + (102 + 1) : Nat)]

/-- Then two payments, of which the second spends the coin that has matured with this block. -/
def admitting : List NodeRequest := taking ++ [.accept (spending 2), .accept (spending 4)]

/-- The block with the payment on top of a chain. -/
def block (chain : Chain) : Block :=
  takingBlock chain (spending 1) 4000000000 0 [0x51] 0

/-- The pool when the payment has been taken. -/
def settled : Mempool :=
  ([newest (102 + 1) [0x51] 4000000000, spending 1].foldl Mempool.evictFor
    (waiting (spending 1) 4000000000 0, 0)).1

/-- The pool with the two later payments. -/
def both : Mempool :=
  (settled.insert (spending 2).txid (spending 2) 1000000000 0).insert (spending 4).txid (spending 4)
    1000000000 0

theorem takeable : Takeable 1000000 payee 102 1 (spending 1) 4000000000 0 [0x51] where
  room := by decide
  early := by decide
  payable := payable.mono (by decide)
  positive := by decide
  mature := by decide
  withdraws := withdraws_spending (by decide)
  scripts := verifyScripts_spending 1 (by decide) 103 (by decide)
  short := by decide
  tells := tells_spending

theorem after_accept {node : Node} {tx : Transaction} {pool : Mempool}
    (admitted : node.mempool.accept tx node.chain = .ok pool) :
    node.after (.accept tx) = { node with mempool := pool } := by
  rw [after, update?, accept, admitted]
  rfl

theorem accept_rival (chain : Chain) :
    (waiting (spending 1) 4000000000 0).accept rival chain = .error .mempoolConflict := by
  have absent : (waiting (spending 1) 4000000000 0).contains rival.txid = false := by
    decide +kernel
  have passes : rival.check = .ok () := by decide +kernel
  have ordinary : rival.isCoinbase = false := by decide +kernel
  have taken : (rival.inputs.any fun input =>
      ((waiting (spending 1) 4000000000 0).spender? input.outpoint).isSome) = true := by
    decide +kernel
  rw [Mempool.accept]
  simp only [absent, passes, ordinary, taken, Bool.false_eq_true, if_false, if_true]
  rfl

theorem removeInvalid_both {chain : Chain}
    (funded : Mempool.isFundedBy (spending 2) chain = true)
    (stale : Mempool.isFundedBy (spending 4) chain = false) :
    (both.removeInvalid chain).1 = both.remove (spending 4).txid := by
  have listed : both.entries.toList =
      [((spending 2).txid, ⟨spending 2, 1000000000, (spending 2).size, 0, 1⟩),
        ((spending 4).txid, ⟨spending 4, 1000000000, (spending 4).size, 0, 2⟩)] := by
    decide +kernel
  rw [Mempool.removeInvalid, listed]
  simp only [List.filter_cons, funded, stale, Bool.not_true, Bool.not_false, Bool.false_eq_true,
    if_false, if_true, List.filter_nil, List.map_singleton, List.foldl_cons, List.foldl_nil]

section Payments

variable {miner : Node} (solitary : Solitary 1000000 payee 102 miner.chain)
variable (empty : miner.mempool = Mempool.empty)

include solitary

theorem exists_extends_block : ∃ connected, miner.chain.Extends (block miner.chain) connected :=
  takeable.exists_extends solitary 0 (by decide)

theorem spares_block : (block miner.chain).Spares miner.chain.coins :=
  takeable.spares solitary 0

theorem isSolved_block : (block miner.chain).header.isSolved miner.chain.rules.params = true := by
  rw [solitary.rules_eq]
  exact isSolved_of_bits rfl

include empty

theorem after_payment : miner.after (.accept (spending 1)) =
    { miner with mempool := waiting (spending 1) 4000000000 0 } := by
  refine after_accept ?_
  rw [empty]
  exact takeable.accept solitary

/-- The first payment is admitted, and its rival refused. -/
theorem run_offering :
    miner.run offering = { miner with mempool := waiting (spending 1) 4000000000 0 } := by
  change (miner.after (.accept (spending 1))).after (.accept rival) = _
  rw [after_payment solitary empty, after, update?, accept, accept_rival]
  rfl

theorem newBlock_offering : (miner.run offering).chain.newBlock
    (miner.run offering).mempool.transactions [0x51] (genesisTime + (102 + 1) : Nat)
      = .ok (block miner.chain) := by
  rw [run_offering solitary empty]
  exact solitary.newBlock_eq (by decide) _ _

theorem isSolved_offering :
    (block miner.chain).header.isSolved (miner.run offering).chain.rules.params = true := by
  rw [run_offering solitary empty]
  exact isSolved_block solitary

variable {connected : Connected} (fits : miner.chain.Extends (block miner.chain) connected)

include fits

/-- The block takes the payment out of the pool. -/
theorem run_taking : (miner.run taking).chain = miner.chain.grow (block miner.chain) connected ∧
    (miner.run taking).mempool = settled := by
  have fits' : (miner.run offering).chain.Extends (block miner.chain) connected := by
    rw [run_offering solitary empty]
    exact fits
  obtain ⟨grown, left⟩ := after_generate (newBlock_offering solitary empty)
    (isSolved_offering solitary empty) fits'
  rw [taking, run_concat, grown, left, run_offering solitary empty]
  refine ⟨rfl, ?_⟩
  rw [Mempool.removeForBlock, block, takeable.transactions_eq solitary]
  rfl

omit empty in
theorem view_block {place : Nat} (listed : place ∈ [2, 4]) :
    connected.coins.view (source (payee place) place) = some (coin (payee place) place) := by
  have cases : ∀ place ∈ [2, 4], 1 < place ∧ place ≤ 102 := by decide
  obtain ⟨later, inside⟩ := cases place listed
  refine takeable.view_taken solitary 0 fits (by omega) inside fun same => ?_
  have first := payable.source_injective (by omega) (by omega) (by decide) (by decide) same
  omega

omit empty in
/-- On top of the block, the later payments can be admitted. -/
theorem accept_spending {place : Nat} (listed : place ∈ [2, 4]) {pool : Mempool}
    (absent : pool.contains (spending place).txid = false)
    (free : pool.spender? (source (payee place) place) = none) :
    pool.accept (spending place) (miner.chain.grow (block miner.chain) connected) =
      .ok (pool.insert (spending place).txid (spending place) 1000000000 0) := by
  have fixed : (miner.chain.grow (block miner.chain) connected).rules = rules 1000000 :=
    solitary.rules_eq
  have height : (miner.chain.grow (block miner.chain) connected).height + 1 = 104 :=
    congrArg (· + 2) solitary.height
  have low : place ∈ [1, 2, 4] := List.mem_cons_of_mem 1 listed
  have cases : ∀ place ∈ [2, 4], place ≤ 4 := by decide
  have early := cases place listed
  refine accept_of_mature (withdraws_spending low) fixed (view_block solitary fits listed)
    (by omega) (by omega) absent free ?_
  rw [fixed, height]
  exact verifyScripts_spending place low 104 (by decide)

theorem run_admitting :
    (miner.run admitting).chain = miner.chain.grow (block miner.chain) connected ∧
      (miner.run admitting).mempool = both := by
  obtain ⟨grown, left⟩ := run_taking solitary empty fits
  have patient : (miner.run taking).after (.accept (spending 2)) = { miner.run taking with
      mempool := settled.insert (spending 2).txid (spending 2) 1000000000 0 } := by
    refine after_accept ?_
    rw [grown, left]
    exact accept_spending solitary fits (by decide) (by decide +kernel) (by decide +kernel)
  have hasty : miner.run admitting = { miner.run taking with mempool := both } := by
    rw [admitting, run, List.foldl_append]
    change ((miner.run taking).after (.accept (spending 2))).after (.accept (spending 4)) = _
    rw [patient]
    refine after_accept ?_
    change (settled.insert (spending 2).txid (spending 2) 1000000000 0).accept (spending 4)
      (miner.run taking).chain = _
    rw [grown]
    exact accept_spending solitary fits (by decide) (by decide +kernel) (by decide +kernel)
  rw [hasty]
  exact ⟨grown, rfl⟩

/-- When the block is ruled out, only the payment of the older coin stays. -/
theorem run_ruledOut :
    (miner.run (admitting ++ [.invalidate (block miner.chain).hash])).mempool
      = both.remove (spending 4).txid := by
  obtain ⟨grown, left⟩ := run_admitting solitary empty fits
  obtain ⟨events, ruledOut⟩ :=
    Chain.invalidate_tip fits (spares_block solitary) solitary.finalized
  have done : (miner.run admitting).invalidate (block miner.chain).hash = .ok _ :=
    invalidate_eq_ok_iff.mpr ⟨_, grown ▸ ruledOut, rfl⟩
  have funded {place : Nat} (listed : place ∈ [1, 2, 4]) :
      Mempool.isFundedBy (spending place) (miner.chain.ruleOut (block miner.chain).hash) = true ↔
        place + 100 ≤ 103 := by
    have cases : ∀ place ∈ [1, 2, 4], 0 < place ∧ place ≤ 102 := by decide
    obtain ⟨first, inside⟩ := cases place listed
    have height : miner.chain.height + 1 = 103 := congrArg (· + 1) solitary.height
    rw [← height]
    exact isFundedBy_iff_mature (withdraws_spending listed) solitary.rules_eq
      (solitary.view_source first inside) (by omega)
  rw [run_concat, after, update?, done]
  change ((miner.run admitting).mempool.removeInvalid _).1 = _
  rw [left]
  exact removeInvalid_both ((funded (by decide)).mpr (by decide))
    (Bool.eq_false_iff.mpr fun still => absurd ((funded (by decide)).mp still) (by decide))

omit fits in
/-- The block with the payment is the only one, and spares all coins. -/
theorem sparing_payments (hash : Hash) : miner.Sparing (admitting ++ [.invalidate hash]) := by
  have offered : miner.Sparing offering :=
    (Sparing.nil.concat_idle fun _ => rfl : miner.Sparing [.accept (spending 1)]).concat_idle
      fun _ => rfl
  have taken : miner.Sparing taking := by
    refine offered.concat fun other connects => ?_
    obtain rfl := eq_of_connects (newBlock_offering solitary empty)
      (isSolved_offering solitary empty) connects
    rw [run_offering solitary empty]
    exact Block.not_recreates_of_spares (spares_block solitary)
  have patient : miner.Sparing (taking ++ [.accept (spending 2)]) := taken.concat_idle fun _ => rfl
  have both : miner.Sparing admitting := patient.concat_idle fun _ => rfl
  exact both.concat_idle fun _ => rfl

end Payments

/-- The node mines, and then goes through all this. -/
def requests : List NodeRequest :=
  mining 102 ++ (admitting ++ [.invalidate (block (node.run (mining 102)).chain).hash])

/-- The pool admits a payment and refuses its rival, loses the payment to a block, admits two more,
and loses one of these when the block is ruled out. -/
theorem pool_of_mined :
    Node.new NodeConfig.default = .ok node ∧ node.Sparing requests ∧
      (node.run (mining 102 ++ offering)).mempool.transactions = [spending 1] ∧
      (node.run (mining 102 ++ offering)).accept rival = .error .mempoolConflict ∧
      (node.run (mining 102 ++ taking)).mempool.get? (spending 1).txid = none ∧
      (∀ place ∈ [2, 4],
        (node.run (mining 102 ++ admitting)).mempool.contains (spending place).txid = true) ∧
      (node.run requests).mempool.contains (spending 2).txid = true ∧
      (node.run requests).mempool.contains (spending 4).txid = false ∧
      (node.run requests).mempool.Exact ∧
      (node.run requests).mempool.FundedOn (node.run requests).chain
        (node.SharesTxid requests) := by
  obtain ⟨solitary, empty, mined⟩ := solitary_run (by decide : 102 ≤ 127)
  have started : Node.new NodeConfig.default = .ok node := rfl
  have sparing : node.Sparing requests := mined.append (sparing_payments solitary empty _)
  obtain ⟨connected, fits⟩ := exists_extends_block solitary
  obtain ⟨exact, -, funded⟩ := pool_run started sparing
  have offered := run_offering solitary empty
  have taken := (run_taking solitary empty fits).2
  have admitted := (run_admitting solitary empty fits).2
  have left := run_ruledOut solitary empty fits
  refine ⟨started, sparing, ?_, ?_, ?_, ?_, ?_, ?_, exact, funded⟩
  · rw [run_append, offered]
    exact transactions_waiting _ _ _
  · rw [run_append, offered, accept, accept_rival]
    rfl
  · rw [run_append, taken]
    decide +kernel
  · rw [run_append, admitted]
    decide +kernel
  · rw [requests, run_append, left]
    decide +kernel
  · rw [requests, run_append, left]
    decide +kernel

end Node.Mining

end ScryptLedger
