import ScryptLedger.Proofs.Block.Connect
import ScryptLedger.Proofs.Chain.Identity
import ScryptLedger.Proofs.Merkle.Tree
import ScryptLedger.Proofs.Mining.Assembly
import ScryptLedger.Proofs.Mining.Coinbase
import ScryptLedger.Proofs.Mining.Payouts
import ScryptLedger.Mining.Solve

/-!
# What a new block looks like

A new block is spelled out: its coinbase, what it takes from the candidates,
and its header. A block that looks like this, once its work is done, passes
every check that needs no coins, and its coinbase every check of coinbases.
-/

namespace ScryptLedger

namespace MergeMining

/-- A header of this chain that does its own work needs no proof. -/
theorem checkHeader_of_solved [Primitives] {header : BlockHeader} {params : ChainParams}
    (own : Version.chainId header.version = params.auxpowChainId)
    (plain : Version.hasAuxpow header.version = false)
    (solved : header.isSolved params = true) : checkHeader header none params = .ok () := by
  have work : Target.isMet header.proofHash header.bits params.powLimit = true := solved
  simp [checkHeader, own, plain, work, pure, Except.pure]

end MergeMining

/-- A header that does its own work is its own solution. -/
theorem BlockHeader.solve_of_isSolved [Primitives] {header : BlockHeader} {params : ChainParams}
    (solved : header.isSolved params = true) : header.solve params = .ok header := by
  have found (tries : Nat) : header.solveWithin params tries = some header := by
    cases tries with
    | zero => exact if_pos solved
    | succ tries => exact if_pos solved
  rw [solve, found]
  rfl

namespace Chain

/-- The version of new blocks. -/
def newVersion : Int32 :=
  (UInt32.ofNat (auxpowChainId * 0x10000 + Assembly.versionLow)).toInt32

variable [Primitives] (chain : Chain) (candidates : List Transaction) (script : Bytes)

/-- What a new block takes, in order, with the fees. -/
def selection : List (Transaction × Int) :=
  Assembly.sort (Assembly.select chain
    (chain.rules.config.maxBlockSize - Assembly.reservedSize) 0 candidates)

/-- The reward of a new block. -/
def newReward : Int :=
  Money.wrap (Subsidy.ofBlock (chain.height + 1) chain.rules.params chain.tip.hash
    + Money.sum ((chain.selection candidates).map Prod.snd))

/-- Whether nothing that a new block owes to others is negative. -/
def SharesFairly : Prop :=
  Assembly.IsFair chain.rules (chain.newReward candidates) (chain.stakingWinner? chain.tip.hash)

def newCoinbase : Transaction :=
  Coinbase.build (chain.height + 1)
    (Assembly.payouts chain.rules (chain.newReward candidates) script
      (chain.stakingWinner? chain.tip.hash))

/-- The new block with a given time, compact target and nonce. -/
def blockWith (time bits nonce : UInt32) : Block where
  header := {
    version := newVersion
    previous := chain.tip.hash
    merkleRoot := Merkle.root
      ((chain.newCoinbase candidates script :: (chain.selection candidates).map Prod.fst).map
        Transaction.txid)
    time := time
    bits := bits
    nonce := nonce }
  auxpow := none
  transactions := chain.newCoinbase candidates script :: (chain.selection candidates).map Prod.fst

variable {chain candidates script}

theorem assembly_of_nextWork {time : Int} {bits : UInt32}
    (work : chain.nextWork time = .ok bits) :
    Assembly.of chain candidates chain.rules.config time = .ok {
      height := chain.height + 1
      previous := chain.tip.hash
      bits := bits
      selected := chain.selection candidates
      reward := chain.newReward candidates
      stakingWinner := chain.stakingWinner? chain.tip.hash } := by
  rw [Assembly.of, work]
  rfl

theorem newBlock_of_nextWork {time : Int} {bits : UInt32}
    (mineable : chain.rules.params.Mineable) (work : chain.nextWork time = .ok bits)
    (early : 0 ≤ time) (late : time < UInt32.size) :
    chain.newBlock candidates script time =
      .ok (chain.blockWith candidates script (UInt32.ofNat time.toNat) bits 0) := by
  have version : Version.ofChainId chain.rules.params.auxpowChainId Assembly.versionLow
      = .ok newVersion := by
    rw [mineable.chainId]
    rfl
  have ranged : ¬ (time < 0 ∨ UInt32.size ≤ time) := by omega
  rw [newBlock, assembly_of_nextWork work]
  change Assembly.block _ chain.rules script time = _
  rw [Assembly.block, if_neg ranged, version]
  rfl

/-- What a new block takes comes from the candidates. -/
theorem mem_of_mem_selection {taken : Transaction × Int}
    (held : taken ∈ chain.selection candidates) :
    taken.1 ∈ candidates ∧ taken.1.isCoinbase = false ∧
      taken.1.fee chain.coins.view chain.rules.params (chain.height + 1) = .ok taken.2 := by
  have chosen := (Assembly.sort_perm _).mem_iff.mp held
  exact ⟨(Assembly.select_sublist chain _ 0 candidates).subset (List.mem_map_of_mem chosen),
    Assembly.fee_of_mem_select chain _ taken chosen⟩

theorem subperm_selection :
    List.Subperm ((chain.selection candidates).map Prod.fst) candidates :=
  ((Assembly.sort_perm _).map Prod.fst).subperm.trans
    (Assembly.select_sublist chain _ 0 candidates).subperm

theorem size_selection_le :
    ((chain.selection candidates).map fun taken => taken.1.size).sum
      ≤ chain.rules.config.maxBlockSize - Assembly.reservedSize := by
  have fits := Assembly.size_select_le chain
    (chain.rules.config.maxBlockSize - Assembly.reservedSize) (Nat.zero_le _) candidates
  rw [Nat.zero_add] at fits
  have same := ((Assembly.sort_perm (Assembly.select chain
    (chain.rules.config.maxBlockSize - Assembly.reservedSize) 0 candidates)).map
      fun taken => taken.1.size).sum_nat
  rw [selection, same]
  exact fits

/-- A new coinbase pays out the whole reward. -/
theorem totalOutput_newCoinbase :
    (chain.newCoinbase candidates script).totalOutput = chain.newReward candidates :=
  (Transaction.totalOutput_eq _).trans
    (Assembly.wrap_total_payouts.trans (Money.wrap_wrap _))

theorem txids_blockWith (time bits nonce : UInt32) :
    (chain.blockWith candidates script time bits nonce).txids =
      (chain.newCoinbase candidates script).txid ::
        (chain.selection candidates).map fun taken => taken.1.txid := by
  simp [Block.txids, blockWith]

theorem ordinary_blockWith {time bits nonce : UInt32} :
    (chain.blockWith candidates script time bits nonce).ordinary =
      (chain.selection candidates).map Prod.fst :=
  Block.ordinary_eq rfl (Coinbase.isCoinbase_build _ _)
    (List.forall_mem_map.mpr fun _ held => (mem_of_mem_selection held).2.1)

omit [Primitives] in
theorem hasAuxpow_newVersion : Version.hasAuxpow newVersion = false := by decide

omit [Primitives] in
theorem chainId_newVersion : Version.chainId newVersion = auxpowChainId := by decide

/-- The room that is kept is enough where header, count and coinbase fit into it. -/
theorem length_encode_blockWith_le {time bits nonce : UInt32}
    (room : Assembly.reservedSize ≤ chain.rules.config.maxBlockSize)
    (reserved : (chain.blockWith candidates script time bits nonce).header.encode.length
      + (Wire.compactSize
          (chain.blockWith candidates script time bits nonce).transactions.length).length
      + (chain.newCoinbase candidates script).size ≤ Assembly.reservedSize) :
    (chain.blockWith candidates script time bits nonce).encode.length
      ≤ chain.rules.config.maxBlockSize := by
  have others : ((chain.selection candidates).map fun taken => taken.1.size).sum
      ≤ chain.rules.config.maxBlockSize - Assembly.reservedSize := size_selection_le
  have plain : Version.hasAuxpow
      (chain.blockWith candidates script time bits nonce).header.version = false :=
    hasAuxpow_newVersion
  rw [BlockHeader.length_encode] at reserved
  rw [Block.length_encode_of_plain plain]
  simp only [blockWith, List.map_cons, List.map_map, List.sum_cons, Function.comp_def] at reserved ⊢
  omega

/-- Every chain that a node can have belongs to a network. -/
theorem mineable_run (config : NodeConfig) (requests : List ChainRequest) :
    ((Chain.new (Rules.ofConfig config)).run requests).rules.params.Mineable := by
  rw [rules_run]
  exact ChainParams.mineable_ofNetwork config.network

/-- The height of the next block leaves room in the script of its coinbase. -/
theorem height_succ_lt_run (rules : Rules) (requests : List ChainRequest) :
    ((Chain.new rules).run requests).height + 1 < 256 ^ 74 :=
  Nat.lt_of_le_of_lt (height_lt_run rules requests)
    (Nat.pow_lt_pow_right (by decide) (by decide : 32 < 74))

/-- What bounds the coinbase of a new block: its height, its scripts and its reward. -/
structure SmallCoinbase (chain : Chain) (candidates : List Transaction) (script : Bytes) :
    Prop where
  mineable : chain.rules.params.Mineable
  height : chain.height + 1 < 256 ^ 74
  payout : script.length ≤ 100
  winner : ∀ winner, chain.stakingWinner? chain.tip.hash = some winner → winner.length ≤ 100
  reward : inMoneyRange (chain.newReward candidates) = true

namespace SmallCoinbase

variable (small : chain.SmallCoinbase candidates script)

include small

theorem size_le : (chain.newCoinbase candidates script).size ≤ 500 :=
  Coinbase.size_build_le small.height Assembly.length_payouts_le
    (Assembly.short_payouts small.payout small.mineable.fundScript small.winner)

/-- The coinbase passes on its own exactly when it pays nothing negative to others. -/
theorem check_iff :
    (chain.newCoinbase candidates script).check = .ok () ↔ chain.SharesFairly candidates := by
  have coinbase : (chain.newCoinbase candidates script).isCoinbase = true :=
    Coinbase.isCoinbase_build _ _
  constructor
  · intro passes paid owed
    obtain ⟨-, -, -, -, ranged, -⟩ := Transaction.check_eq_ok_iff.mp passes
    have amounts := (Assembly.forall_mem_payouts fun amount => inMoneyRange amount = true).mp ranged
    exact (inMoneyRange_iff.mp (amounts paid (List.mem_cons_of_mem _ owed))).1
  · intro fair
    obtain ⟨positive, bounded⟩ := inMoneyRange_iff.mp small.reward
    have wide : maxMoney < 2 ^ 63 := by decide
    have size := small.size_le
    refine Transaction.check_eq_ok_iff.mpr ⟨by simp [newCoinbase, Coinbase.build], ?_, ?_, ?_, ?_,
      ?_, ?_, ?_⟩
    · simp [newCoinbase, Coinbase.build, Assembly.payouts_eq, Assembly.amounts]
    · rw [maxTxSize]
      omega
    · intro ordinary
      rw [coinbase] at ordinary
      cases ordinary
    · exact Assembly.ranged_payouts small.mineable small.reward fair
    · have earned : chain.newReward candidates < 2 ^ 63 := by omega
      obtain ⟨-, whole⟩ := Assembly.exact_of_isFair small.mineable positive earned fair
      exact (Assembly.total_payouts.trans whole).le.trans bounded
    · exact List.nodup_singleton _
    · have script : isCoinbaseScriptSize
          (Coinbase.script (chain.newCoinbase candidates script)).length = true :=
        Coinbase.isCoinbaseScriptSize_build small.height _
      simp only [Transaction.checkNullInputs, coinbase, if_true]
      rw [if_pos]
      · rfl
      · exact List.all_eq_true.mpr fun input held => by
          obtain rfl := List.mem_singleton.mp held
          exact script

/-- The coinbase passes for the fees that the assembly counted. -/
theorem checkReward_eq : Block.checkReward chain.rules (chain.newCoinbase candidates script)
    chain.tip.hash (Money.sum ((chain.selection candidates).map Prod.snd)) (chain.height + 1)
    (chain.stakingWinner? chain.tip.hash) = .ok () := by
  refine Block.checkReward_eq_ok_iff.mpr ⟨?_, ?_, ?_⟩
  · exact Coinbase.check_build small.height _ chain.rules.params
  · exact Int.le_of_eq totalOutput_newCoinbase
  · exact Assembly.checkPayouts_payouts rfl _

theorem length_encode_le (room : 2000 ≤ chain.rules.config.maxBlockSize)
    (time bits nonce : UInt32) :
    (chain.blockWith candidates script time bits nonce).encode.length
      ≤ chain.rules.config.maxBlockSize := by
  have count := Wire.length_compactSize_le
    (chain.blockWith candidates script time bits nonce).transactions.length
  have coinbase := small.size_le
  have reserved : Assembly.reservedSize = 1000 := rfl
  refine length_encode_blockWith_le (by omega) ?_
  rw [BlockHeader.length_encode]
  omega

/-- A new block passes the checks of a block on its own, once its work is done. -/
theorem check_blockWith (room : 2000 ≤ chain.rules.config.maxBlockSize) {time bits nonce : UInt32}
    (fair : chain.SharesFairly candidates) (passes : ∀ tx ∈ candidates, tx.check = .ok ())
    (distinct : (chain.blockWith candidates script time bits nonce).txids.Nodup)
    (injective : Merkle.IsInjectiveOn (chain.blockWith candidates script time bits nonce).txids)
    (solved : (chain.blockWith candidates script time bits nonce).header.isSolved
      chain.rules.params = true) :
    (chain.blockWith candidates script time bits nonce).check chain.rules.params
      chain.rules.config = .ok () := by
  have own : Version.chainId newVersion = chain.rules.params.auxpowChainId :=
    chainId_newVersion.trans small.mineable.chainId.symm
  refine Block.check_eq_ok_iff.mpr ⟨?_, ?_, small.length_encode_le room time bits nonce, ?_, ?_,
    _, _, rfl, Coinbase.isCoinbase_build _ _, ?_⟩
  · exact MergeMining.checkHeader_of_solved own hasAuxpow_newVersion solved
  · exact Prod.ext rfl (Merkle.not_mutated_of_nodup distinct injective)
  · rw [txids_blockWith] at distinct ⊢
    refine Assembly.isStrictlyIncreasing_sort ?_
    have others := (List.nodup_cons.mp distinct).2
    exact ((Assembly.sort_perm _).map _).nodup_iff.mp others
  · refine List.forall_mem_cons.mpr ⟨small.check_iff.mpr fair, ?_⟩
    refine List.forall_mem_map.mpr fun spend held => ?_
    exact passes spend.1 (mem_of_mem_selection held).1
  · exact List.forall_mem_map.mpr fun spend held => (mem_of_mem_selection held).2.1

end SmallCoinbase

end Chain

end ScryptLedger
