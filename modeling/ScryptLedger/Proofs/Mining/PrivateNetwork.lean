import ScryptLedger.Primitives.Transparent
import ScryptLedger.Proofs.Mining.OwnBlock

/-!
# Mining on the private network

On the private network the target never moves, and where hashes show the end of what
they hash any work meets it. A miner without transactions can put one block after
the other on such a chain, whoever is paid: each block creates a coin, and spends
none.
-/

namespace ScryptLedger

namespace PrivateNetwork

local instance : Primitives := Primitives.transparent

/-! ## What hashes show -/

theorem bytes_sha256d {bytes : Bytes} (long : 32 ≤ bytes.length) :
    (sha256d bytes).bytes = bytes.drop (bytes.length - 32) := by
  have last : (bytes.drop (bytes.length - 32)).length = 32 := by
    rw [List.length_drop]
    omega
  simp only [sha256d, Primitives.sha256, Digest.ofBytes, List.length_reverse, List.take_reverse,
    Nat.sub_eq_zero_of_le long, List.replicate_zero, List.append_nil, List.reverse_reverse, last,
    Nat.sub_self]
  exact List.take_of_length_le (Nat.le_of_eq last)

/-- The identity of a header shows its time. -/
theorem time_eq_of_hash_eq {a b : BlockHeader} (same : a.hash = b.hash) : a.time = b.time := by
  have stamp (header : BlockHeader) :
      (header.hash.bytes.drop 20).take 4 = bytesOfWord header.time := by
    have start : (bytesOfInt32 header.version ++ header.previous.bytes
        ++ header.merkleRoot.bytes).length = 48 + 20 := by
      simp [bytesOfInt32, bytesOfWord, Digest.length_bytes]
    have long : 32 ≤ header.encode.length := by
      rw [BlockHeader.length_encode]
      decide
    rw [BlockHeader.hash, bytes_sha256d long, BlockHeader.length_encode, List.drop_drop,
      BlockHeader.encode, List.append_assoc, List.append_assoc, List.drop_left' start]
    exact List.take_left' (length_littleEndian 4 _)
  have times : bytesOfWord a.time = bytesOfWord b.time := by
    rw [← stamp a, ← stamp b, same]
  have numbers := congrArg ofLittleEndian times
  have range (time : UInt32) : time.toNat % 1 <<< (8 * 4) = time.toNat :=
    Nat.mod_eq_of_lt time.toNat_lt
  rw [bytesOfWord, bytesOfWord, ofLittleEndian_littleEndian, ofLittleEndian_littleEndian, range,
    range] at numbers
  exact UInt32.toNat_inj.mp numbers

/-! ## The network -/

/-- A node whose blocks are at most of a given size. -/
def config (size : Nat) : NodeConfig := { NodeConfig.default with maxBlockSize := size }

def rules (size : Nat) : Rules := Rules.ofConfig (config size)

/-- The time of the genesis block. -/
def genesisTime : Nat := 1296688602

/-- The time of a block, one second after the block below it. -/
def time (height : Nat) : UInt32 := UInt32.ofNat (genesisTime + height)

/-- What a block without transactions starts with, before subsidies are halved. -/
def coinbase (script : Bytes) (height : Nat) : Transaction :=
  Coinbase.build height [⟨5000000000, script⟩]

def source (script : Bytes) (height : Nat) : OutPoint := ⟨(coinbase script height).txid, 0⟩

/-- The coin that such a block creates. -/
def coin (script : Bytes) (height : Nat) : Coin := ⟨5000000000, script, height, true⟩

/-- The height that the identity of a coinbase shows where a script of one byte is paid. Most other
transactions show no height, but zero. -/
def shownHeight (txid : Hash) : Nat :=
  match (txid.bytes.drop 10).take 3 with
  | [2, code, 0] => code.toNat - 0x50
  | [_, code, 0] => code.toNat
  | _ => 0

theorem shownHeight_coinbase :
    ∀ height < 128, shownHeight (coinbase [0x51] height).txid = height := by
  decide +kernel

variable {size height : Nat}

theorem toNat_time (early : height < 150) : (time height).toNat = genesisTime + height := by
  rw [time, genesisTime]
  exact UInt32.toNat_ofNat_of_lt' (by simp only [UInt32.size]; omega)

theorem mineable_rules : (rules size).params.Mineable :=
  ChainParams.mineable_ofNetwork .regtest

/-- Any work is enough. -/
theorem isSolved_of_bits {header : BlockHeader} (easy : header.bits = 0x207fffff) :
    header.isSolved (rules size).params = true := by
  change Target.isMet Digest.zero header.bits ChainParams.regtest.powLimit = true
  rw [easy]
  rfl

theorem ofBlock_eq (early : height < 150) (previous : Hash) :
    Subsidy.ofBlock height (rules size).params previous = 5000000000 := by
  have halvings : height / 150 = 0 := Nat.div_eq_of_lt early
  change Subsidy.ofBlock height ChainParams.regtest previous = _
  rw [Subsidy.ofBlock, if_pos (by rfl)]
  change (if 64 ≤ height / 150 then 0 else (50 * unitsPerCoin) >>> (height / 150)) = _
  rw [halvings]
  decide

theorem transactions_empty : Mempool.empty.transactions = [] := by
  decide +kernel

theorem selection_nil (chain : Chain) : chain.selection [] = [] := by
  simp [Chain.selection, Assembly.select, Assembly.sort]

theorem fees_empty (chain : Chain) :
    Money.sum ((chain.selection Mempool.empty.transactions).map Prod.snd) = 0 := by
  rw [transactions_empty, selection_nil]
  rfl

/-- The block that a miner makes on top of a chain. -/
def blockOn (chain : Chain) (candidates : List Transaction) (script : Bytes) (nonce : UInt32) :
    Block :=
  chain.blockWith candidates script (time (chain.height + 1)) 0x207fffff nonce

/-- The block that a miner without transactions makes, if each block pays to a given script. -/
def nextBlock (chain : Chain) (payee : Nat → Bytes) : Block :=
  blockOn chain Mempool.empty.transactions (payee (chain.height + 1)) 0

/-! ## Chains -/

/-- Whether blocks up to a height can pay to some scripts: the scripts are short, and hashes tell
the coinbases apart. -/
structure Payable (payee : Nat → Bytes) (last : Nat) : Prop where
  early : last < 150
  short : ∀ height, (payee height).length ≤ 100
  distinct : ∀ a b, 0 < a → a ≤ last → 0 < b → b ≤ last →
    (coinbase (payee a) a).txid = (coinbase (payee b) b).txid → a = b

theorem Payable.mono {payee : Nat → Bytes} {count last : Nat} (payable : Payable payee last)
    (low : count ≤ last) : Payable payee count where
  early := Nat.lt_of_le_of_lt low payable.early
  short := payable.short
  distinct a b first inside second within :=
    payable.distinct a b first (inside.trans low) second (within.trans low)

theorem Payable.source_injective {payee : Nat → Bytes} {last : Nat} (payable : Payable payee last)
    {a b : Nat} (first : 0 < a) (inside : a ≤ last) (second : 0 < b) (within : b ≤ last)
    (same : source (payee a) a = source (payee b) b) : a = b := by
  injection same with txids
  exact payable.distinct a b first inside second within txids

/-- A chain of blocks without transactions, each of which pays to a given script. -/
structure Solitary (size : Nat) (payee : Nat → Bytes) (count : Nat) (chain : Chain) : Prop where
  reached : ∃ requests, (Chain.new (rules size)).run requests = chain
  height : chain.height = count
  entries : ∀ entry ∈ chain.entries, entry.hash = entry.block.hash ∧
    entry.block.header.bits = 0x207fffff ∧ entry.block.header.time.toNat ≤ genesisTime + count
  invalid : chain.invalid = ∅
  finalized : chain.finalized = none
  winners : chain.stakingWinners = ∅
  transactions : ∀ tx ∈ chain.transactions,
    ∃ height, 0 < height ∧ height ≤ count ∧ tx = coinbase (payee height) height
  coins : ∀ outpoint held, chain.coins.view outpoint = some held ↔
    ∃ height, 0 < height ∧ height ≤ count ∧ outpoint = source (payee height) height ∧
      held = coin (payee height) height

theorem solitary_new (size : Nat) (payee : Nat → Bytes) :
    Solitary size payee 0 (Chain.new (rules size)) where
  reached := ⟨[], rfl⟩
  height := rfl
  entries := List.forall_mem_singleton.mpr ⟨rfl, rfl, Nat.le_refl _⟩
  invalid := rfl
  finalized := rfl
  winners := rfl
  transactions _ held := absurd held List.not_mem_nil
  coins outpoint held := by
    have nothing : (Chain.new (rules size)).coins.view outpoint = none :=
      CoinSet.view_empty outpoint
    rw [nothing]
    constructor
    · intro there
      cases there
    · rintro ⟨height, positive, least, -⟩
      omega

namespace Solitary

variable {payee : Nat → Bytes} {count : Nat} {chain : Chain}
variable (solitary : Solitary size payee count chain)

include solitary

theorem rules_eq : chain.rules = rules size := by
  obtain ⟨requests, rfl⟩ := solitary.reached
  exact Chain.rules_run _ requests

theorem mineable : chain.rules.params.Mineable := by
  rw [solitary.rules_eq]
  exact mineable_rules

theorem winner?_eq_none (hash : Hash) : chain.stakingWinner? hash = none := by
  rw [Chain.stakingWinner?, solitary.winners]
  rfl

theorem view_source {height : Nat} (positive : 0 < height) (below : height ≤ count) :
    chain.coins.view (source (payee height) height) = some (coin (payee height) height) :=
  (solitary.coins _ _).mpr ⟨height, positive, below, rfl, rfl⟩

theorem contains_of_later {block : Block} (later : genesisTime + count < block.header.time.toNat) :
    chain.contains block.hash = false := by
  rw [Bool.eq_false_iff]
  intro again
  obtain ⟨entry, held, same⟩ := List.mem_map.mp (Chain.contains_iff.mp again)
  obtain ⟨own, -, early⟩ := solitary.entries entry held
  have time := time_eq_of_hash_eq (own.symm.trans same)
  rw [time] at early
  omega

theorem medianTimePast_lt : chain.medianTimePast < genesisTime + (count + 1) :=
  Chain.medianTimePast_lt fun entry held =>
    Nat.lt_succ_of_le (solitary.entries entry held).2.2

theorem nextWork_eq (time : Int) : chain.nextWork time = .ok 0x207fffff := by
  have fixed : chain.rules.params.noRetargeting = true := by
    rw [solitary.rules_eq]
    rfl
  have latest : chain.tipEntry ∈ chain.entries := by
    rw [Chain.entries, Chain.tipEntry]
    cases chain.above with
    | nil => exact List.mem_singleton_self _
    | cons entry below => exact List.mem_cons_self
  rw [Chain.nextWork_of_fixed fixed, (solitary.entries _ latest).2.1]

/-! ### The next block -/

section Next

variable {candidates : List Transaction} {fee : Int}
variable (early : count + 1 < 150)
variable (fees : Money.sum ((chain.selection candidates).map Prod.snd) = fee)

include early fees

theorem newReward_eq (positive : 0 ≤ fee) (small : fee ≤ 5000000000) :
    chain.newReward candidates = 5000000000 + fee := by
  have subsidy : Subsidy.ofBlock (chain.height + 1) chain.rules.params chain.tip.hash
      = 5000000000 := by
    rw [solitary.rules_eq, solitary.height]
    exact ofBlock_eq early _
  rw [Chain.newReward, fees, subsidy]
  exact Money.wrap_eq_self_iff.mpr (by omega)

theorem newCoinbase_eq (positive : 0 ≤ fee) (small : fee ≤ 5000000000) (script : Bytes) :
    chain.newCoinbase candidates script =
      Coinbase.build (count + 1) [⟨Int64.ofInt (5000000000 + fee), script⟩] := by
  rw [Chain.newCoinbase, solitary.newReward_eq early fees positive small,
    solitary.winner?_eq_none, solitary.rules_eq, solitary.height]
  rfl

theorem ranged_newReward (positive : 0 ≤ fee) (small : fee ≤ 5000000000) :
    inMoneyRange (chain.newReward candidates) = true := by
  have wide : 10000000000 ≤ maxMoney := by decide
  rw [solitary.newReward_eq early fees positive small]
  exact inMoneyRange_iff.mpr (by omega)

theorem sharesFairly (positive : 0 ≤ fee) (small : fee ≤ 5000000000) :
    chain.SharesFairly candidates := by
  unfold Chain.SharesFairly
  rw [solitary.newReward_eq early fees positive small]
  exact Assembly.isFair_of_lt solitary.mineable (by omega) (by omega)

end Next

theorem newBlock_eq (early : count + 1 < 150) (candidates : List Transaction) (script : Bytes) :
    chain.newBlock candidates script (genesisTime + (count + 1) : Nat) =
      .ok (blockOn chain candidates script 0) := by
  have timed : ((genesisTime + (count + 1) : Nat) : Int) < UInt32.size := by
    rw [genesisTime]
    simp only [UInt32.size]
    omega
  rw [blockOn, solitary.height]
  exact Chain.newBlock_of_nextWork solitary.mineable (solitary.nextWork_eq _)
    (Int.natCast_nonneg _) timed

/-- A miner can make a block out of any pool that was filled on top of the chain, whose fees are not
too large. -/
theorem canMine {pool : Mempool} {script : Bytes} (room : 2000 ≤ size) (early : count + 1 < 150)
    (short : script.length ≤ 100) (reached : pool.Reached) (admitted : pool.AdmittedOn chain)
    (ranged : inMoneyRange (chain.newReward pool.transactions) = true) :
    chain.CanMine pool script (genesisTime + (count + 1) : Nat) where
  room := by
    rw [solitary.rules_eq]
    exact room
  payout := short
  winner _ won := by
    rw [solitary.winner?_eq_none] at won
    cases won
  late := by
    have late := solitary.medianTimePast_lt
    omega
  timed := by
    rw [genesisTime]
    simp only [UInt32.size]
    omega
  reached := reached
  admitted := admitted
  reward assembly made := by
    obtain rfl :=
      Except.ok.inj ((Chain.assembly_of_nextWork (solitary.nextWork_eq _)).symm.trans made)
    exact ranged

/-- The new block has done its work whatever its nonce, and it is neither known nor ruled out. -/
theorem solved_and_fresh (early : count + 1 < 150) (candidates : List Transaction)
    (script : Bytes) (nonce : UInt32) :
    let block := blockOn chain candidates script nonce
    block.header.isSolved chain.rules.params = true ∧ chain.contains block.hash = false ∧
      chain.invalid.contains block.hash = false := by
  refine ⟨?_, solitary.contains_of_later ?_, ?_⟩
  · rw [solitary.rules_eq]
    exact isSolved_of_bits rfl
  · have later := toNat_time early
    change genesisTime + count < (time (chain.height + 1)).toNat
    rw [solitary.height]
    omega
  · rw [solitary.invalid]
    rfl

/-- When the new block connects. -/
theorem connect_isOk_iff {pool : Mempool} {script : Bytes} {nonce : UInt32}
    (can : chain.CanMine pool script (genesisTime + (count + 1) : Nat)) (early : count + 1 < 150)
    (apart : chain.TellsApart (blockOn chain pool.transactions script nonce)) :
    let block := blockOn chain pool.transactions script nonce
    (chain.connect block).isOk = true ↔
      pool.FitsBudget chain block ∧ ¬ block.SpendsCoinbase ∧
        chain.SharesFairly pool.transactions := by
  obtain ⟨requests, reached⟩ := solitary.reached
  obtain ⟨solved, fresh, allowed⟩ :=
    solitary.solved_and_fresh early pool.transactions script nonce
  have stamped : time (chain.height + 1) = UInt32.ofNat (genesisTime + (count + 1) : Nat) := by
    rw [solitary.height]
    rfl
  have made : blockOn chain pool.transactions script nonce = chain.blockWith pool.transactions
      script (UInt32.ofNat (genesisTime + (count + 1))) 0x207fffff nonce := by
    rw [blockOn, stamped]
  exact Chain.connect_isOk_iff reached can made (solitary.nextWork_eq _) solved fresh allowed apart

/-! ### One block after the other -/

section Extend

variable {last : Nat} (payable : Payable payee last) (low : count < last)

include payable low

theorem transactions_next :
    (nextBlock chain payee).transactions = [coinbase (payee (count + 1)) (count + 1)] := by
  have early := payable.early
  have same := solitary.newCoinbase_eq (by omega) (fees_empty chain) (Int.le_refl 0) (by decide)
    (payee (count + 1))
  rw [nextBlock, blockOn, Chain.blockWith, solitary.height, same, transactions_empty,
    selection_nil]
  rfl

theorem tellsApart_next : chain.TellsApart (nextBlock chain payee) := by
  have shape := solitary.transactions_next payable low
  constructor
  · have places : ∀ tx ∈ chain.transactions ++ (nextBlock chain payee).transactions,
        ∃ height, 0 < height ∧ height ≤ count + 1 ∧ tx = coinbase (payee height) height := by
      intro tx held
      rw [shape] at held
      rcases List.mem_append.mp held with old | new
      · obtain ⟨height, positive, below, same⟩ := solitary.transactions tx old
        exact ⟨height, positive, Nat.le_succ_of_le below, same⟩
      · exact ⟨count + 1, Nat.succ_pos count, Nat.le_refl _, List.mem_singleton.mp new⟩
    intro first held second held' same
    obtain ⟨a, positive, below, rfl⟩ := places first held
    obtain ⟨b, positive', below', rfl⟩ := places second held'
    rw [payable.distinct a b positive (by omega) positive' (by omega) same]
  · rw [Block.txids, shape]
    exact Merkle.isInjectiveOn_singleton _

/-- The next block without transactions connects. -/
theorem exists_extends (room : 2000 ≤ size) :
    ∃ connected, chain.Extends (nextBlock chain payee) connected := by
  have early : count + 1 < 150 := by
    have := payable.early
    omega
  have can := solitary.canMine room early (payable.short (count + 1)) .empty
    (Mempool.admittedOn_empty chain)
    (solitary.ranged_newReward early (fees_empty chain) (Int.le_refl 0) (by decide))
  have payout : payee (chain.height + 1) = payee (count + 1) := by
    rw [solitary.height]
  have apart := solitary.tellsApart_next payable low
  rw [nextBlock, payout] at apart ⊢
  have connects := (solitary.connect_isOk_iff can early apart).mpr ⟨?_, ?_, ?_⟩
  · obtain ⟨update, done⟩ := Outcome.eq_ok_of_isOk connects
    obtain ⟨connected, fits, -⟩ := Chain.connect_eq_ok_iff.mp done
    exact ⟨connected, fits⟩
  · intro _
    rw [blockOn, Chain.ordinary_blockWith, transactions_empty, selection_nil]
    exact Nat.zero_le _
  · rintro ⟨-, -, -, outpoint, spent, -⟩
    rw [Block.spent_eq_named, blockOn, Chain.ordinary_blockWith, transactions_empty, selection_nil]
      at spent
    cases spent
  · exact solitary.sharesFairly early (fees_empty chain) (Int.le_refl 0) (by decide)

/-- The next block overwrites no coin. -/
theorem spares_next : (nextBlock chain payee).Spares chain.coins := by
  intro outpoint lost
  have own := lost.hash_mem_txids
  rw [Block.txids, solitary.transactions_next payable low] at own
  refine Option.eq_none_iff_forall_ne_some.mpr fun held there => ?_
  obtain ⟨height, positive, below, rfl, -⟩ := (solitary.coins outpoint held).mp there
  have inside : height ≤ last := by omega
  have newest : height = count + 1 := payable.distinct height (count + 1) positive inside
    (Nat.succ_pos count) low (List.mem_singleton.mp own)
  omega

variable {connected : Connected} (fits : chain.Extends (nextBlock chain payee) connected)

include fits

/-- What the next block leaves is the coins so far and its own. -/
theorem view_next (outpoint : OutPoint) : connected.coins.view outpoint =
    if outpoint = source (payee (count + 1)) (count + 1) then
      some (coin (payee (count + 1)) (count + 1))
    else chain.coins.view outpoint := by
  have shape := solitary.transactions_next payable low
  have unspent : outpoint ∉ (nextBlock chain payee).spent := by
    intro spent
    rw [Block.spent, shape] at spent
    cases spent
  rw [Block.coins_of_connect fits.accepted, Block.view_apply, if_neg unspent, solitary.height,
    Block.output?, Block.created, shape]
  change (CoinSet.latest [(source (payee (count + 1)) (count + 1),
    coin (payee (count + 1)) (count + 1))] outpoint).or _ = _
  rw [CoinSet.latest_cons]
  split
  · rfl
  · rfl

/-- A chain with the next block is such a chain again. -/
theorem grow : Solitary size payee (count + 1) (chain.grow (nextBlock chain payee) connected) := by
  have early := payable.early
  have shape := solitary.transactions_next payable low
  have view := solitary.view_next payable low fits
  refine ⟨?_, ?_, ?_, solitary.invalid, solitary.finalized, solitary.winners, ?_, ?_⟩
  · obtain ⟨requests, reached⟩ := solitary.reached
    refine ⟨requests ++ [.connect (nextBlock chain payee)], ?_⟩
    rw [Chain.run_concat, reached, Chain.after_connect fits]
  · exact congrArg (· + 1) solitary.height
  · refine List.forall_mem_cons.mpr ⟨⟨rfl, rfl, ?_⟩, fun entry held => ?_⟩
    · change (time (chain.height + 1)).toNat ≤ _
      rw [solitary.height, toNat_time (by omega)]
    · obtain ⟨own, bits, before⟩ := solitary.entries entry held
      exact ⟨own, bits, Nat.le_succ_of_le before⟩
  · intro tx held
    rcases List.mem_append.mp held with new | old
    · have only : tx ∈ [coinbase (payee (count + 1)) (count + 1)] := shape ▸ new
      exact ⟨count + 1, Nat.succ_pos count, Nat.le_refl _, List.mem_singleton.mp only⟩
    · obtain ⟨height, positive, below, same⟩ := solitary.transactions tx old
      exact ⟨height, positive, Nat.le_succ_of_le below, same⟩
  · intro outpoint held
    change connected.coins.view outpoint = some held ↔ _
    rw [view]
    constructor
    · intro there
      split at there
      · rename_i own
        exact ⟨count + 1, Nat.succ_pos count, Nat.le_refl _, own, (Option.some.inj there).symm⟩
      · obtain ⟨height, positive, below, known⟩ := (solitary.coins outpoint held).mp there
        exact ⟨height, positive, Nat.le_succ_of_le below, known⟩
    · rintro ⟨height, positive, below, rfl, rfl⟩
      by_cases newest : height = count + 1
      · rw [newest, if_pos rfl]
      · have other : source (payee height) height ≠ source (payee (count + 1)) (count + 1) := by
          intro same
          exact newest (payable.source_injective positive (by omega) (Nat.succ_pos count) low same)
        rw [if_neg other]
        exact solitary.view_source positive (by omega)

end Extend

end Solitary

/-- Such chains can have any number of blocks up to the last payable one. -/
theorem exists_solitary {payee : Nat → Bytes} {last : Nat} (payable : Payable payee last)
    (room : 2000 ≤ size) {count : Nat} (low : count ≤ last) :
    ∃ chain, Solitary size payee count chain := by
  induction count with
  | zero => exact ⟨_, solitary_new size payee⟩
  | succ count ih =>
    obtain ⟨chain, solitary⟩ := ih (Nat.le_of_succ_le low)
    obtain ⟨connected, fits⟩ := solitary.exists_extends payable low room
    exact ⟨_, solitary.grow payable low fits⟩

end PrivateNetwork

end ScryptLedger
