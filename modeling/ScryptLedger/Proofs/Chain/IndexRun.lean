import ScryptLedger.Proofs.Chain.Index
import ScryptLedger.Proofs.Chain.Lookup
import ScryptLedger.Proofs.Chain.Position

/-!
# A stored chain answers as the chain does

An exact stored chain gives the same answer to every request as the chain
whose blocks it stores: the same refusal, or the same events and the changed
chain, stored exactly. None of its lookups fails. So what is stored stays exact
through every run, in whichever order blocks come, leave, are ruled out and
become permanent.
-/

namespace ScryptLedger

namespace Chain

/-- Where no two blocks share an identity, a block is found at its height. -/
theorem heightOf?_eq_some_iff {chain : Chain} {hash : Hash} {height : Nat}
    (unique : ∀ {low high : Nat} {entry twin : ChainEntry}, chain.entryAt? low = some entry →
      chain.entryAt? high = some twin → entry.hash = twin.hash → low = high) :
    chain.heightOf? hash = some height ↔
      ∃ entry, chain.entryAt? height = some entry ∧ entry.hash = hash := by
  have found : ∀ {place}, chain.heightOf? hash = some place →
      ∃ entry, chain.entryAt? place = some entry ∧ entry.hash = hash := by
    intro place known
    obtain ⟨later, entry, earlier, split, same, rfl⟩ := split_of_heightOf? known
    exact ⟨entry, entryAt?_of_split split, same⟩
  constructor
  · exact found
  · rintro ⟨entry, there, same⟩
    have held : entry ∈ chain.entries := List.mem_reverse.mp (List.mem_of_getElem? there)
    have known := contains_iff.mpr (List.mem_map.mpr ⟨entry, held, same⟩)
    obtain ⟨place, known⟩ := Option.isSome_iff_exists.mp known
    obtain ⟨twin, here, again⟩ := found known
    rw [known, unique here there (again.trans same.symm)]

/-- The median of the latest times is found in the headers of a chain. -/
theorem medianTime?_headers (chain : Chain) :
    ChainIndex.medianTime? chain.headers = some (chain.medianTimePast : Int) := by
  have times : (chain.headers.reverse.take medianTimeSpan).map HeaderInfo.time =
      ((chain.entries.take medianTimeSpan).map (·.block.header.time.toNat)).map Int.ofNat := by
    have all : chain.headers.map HeaderInfo.time =
        (chain.entries.map fun entry => Int.ofNat entry.block.header.time.toNat).reverse := by
      refine List.ext_getElem? fun height => ?_
      rw [headers, List.getElem?_map, List.getElem?_mapIdx, ← List.map_reverse, List.getElem?_map,
        Option.map_map]
      rfl
    rw [List.map_take, List.map_reverse, all, List.reverse_reverse, List.map_map, List.map_take]
    rfl
  have sorted : ∀ latest : List Nat, (latest.map Int.ofNat).mergeSort (· ≤ ·) =
      (latest.mergeSort (· ≤ ·)).map Int.ofNat := by
    intro latest
    refine (List.map_mergeSort fun low _ high _ => ?_).symm
    exact decide_eq_decide.mpr Int.ofNat_le.symm
  rw [ChainIndex.medianTime?, times, sorted, List.length_map, List.getElem?_map,
    getElem?_median (mt List.map_eq_nil_iff.mp chain.latest_ne_nil)]
  rfl

end Chain

namespace ChainIndex

/-- Whether a stored chain stores a given chain. -/
structure Represents (index : ChainIndex) (chain : Chain) : Prop where
  rules : index.rules = chain.rules
  coins : index.coins = chain.coins
  blocks : index.active.map IndexEntry.toChainEntry = chain.entries.reverse
  invalid : index.invalid = chain.invalid
  finalized : index.finalized = chain.finalized
  stakingWinners : index.stakingWinners = chain.stakingWinners

section Lookups

variable {index : ChainIndex} {chain : Chain}

namespace Represents

theorem length_eq (same : index.Represents chain) : index.active.length = chain.height + 1 := by
  have length := congrArg List.length same.blocks
  rw [List.length_map, List.length_reverse, Chain.entries, List.length_append] at length
  exact length

theorem entryAt?_eq (same : index.Represents chain) (height : Nat) :
    index.active[height]?.map IndexEntry.toChainEntry = chain.entryAt? height := by
  rw [Chain.entryAt?, ← same.blocks, List.getElem?_map]

theorem infoAt?_eq (same : index.Represents chain) (height : Nat) :
    index.infoAt? height = chain.infoAt? height := by
  rw [Chain.infoAt?, ← same.entryAt?_eq, infoAt?, Option.map_map]
  rfl

theorem tip?_eq (same : index.Represents chain) : index.tip? = some chain.tip := by
  rw [tip?, same.length_eq, Nat.add_sub_cancel, same.infoAt?_eq, Chain.infoAt?, Chain.entryAt?,
    Chain.tip, Chain.tipEntry, Chain.height, Chain.entries]
  cases chain.above with
  | nil => rfl
  | cons entry below => simp

/-- The header of each block is what the chain tells difficulty about it. -/
theorem headersOf_eq (same : index.Represents chain) :
    headersOf index.active = chain.headers := by
  rw [Chain.headers, ← same.blocks]
  refine List.ext_getElem? fun height => ?_
  rw [headersOf, List.getElem?_mapIdx, List.getElem?_mapIdx, List.getElem?_map, Option.map_map]
  rfl

variable [Primitives]

theorem heights_eq (same : index.Represents chain) (exact : index.Exact) (hash : Hash) :
    index.heights[hash]? = chain.heightOf? hash := by
  have stored : ∀ {height : Nat} {entry : ChainEntry}, chain.entryAt? height = some entry →
      ∃ kept, index.active[height]? = some kept ∧ kept.toChainEntry = entry := by
    intro height entry there
    rw [← same.entryAt?_eq] at there
    exact Option.map_eq_some_iff.mp there
  refine Option.ext fun height => ?_
  rw [exact.heights hash height, Chain.heightOf?_eq_some_iff]
  · simp only [← same.entryAt?_eq, Option.map_eq_some_iff]
    constructor
    · rintro ⟨entry, there, named⟩
      exact ⟨entry.toChainEntry, ⟨entry, there, rfl⟩, named⟩
    · rintro ⟨_, ⟨entry, there, rfl⟩, named⟩
      exact ⟨entry, there, named⟩
  · intro low high entry twin there here shared
    obtain ⟨kept, low, rfl⟩ := stored there
    obtain ⟨other, high, rfl⟩ := stored here
    exact exact.heights.unique low high shared

theorem contains_eq (same : index.Represents chain) (exact : index.Exact) (hash : Hash) :
    index.heights.contains hash = chain.contains hash := by
  rw [Std.ExtTreeMap.contains_eq_isSome_getElem?, same.heights_eq exact, Chain.contains]

/-- A block that fits on a chain follows the stored blocks. -/
theorem follows (same : index.Represents chain) {block : Block}
    (placed : chain.checkPosition block = .ok ()) :
    Follows index.rules.params index.active block.header := by
  obtain ⟨-, -, onTip, late, work⟩ := Chain.checkPosition_eq_ok_iff.mp placed
  refine ⟨?_, ⟨_, ?_, Int.ofNat_lt.mpr late⟩, ?_⟩
  · obtain ⟨entry, there, top⟩ := Option.map_eq_some_iff.mp same.tip?_eq
    rw [List.getLast?_eq_getElem?, there, onTip, ← top]
    rfl
  · rw [same.headersOf_eq]
    exact chain.medianTime?_headers
  · rw [same.headersOf_eq, same.rules]
    exact work

end Represents

end Lookups

section Answers

variable [Primitives]

/-- Whether an answer of a stored chain is an answer of a chain: the same refusal, or the same
events and the changed chain, stored exactly. -/
inductive Answers {Refusal : Type} :
    Except (IndexError Refusal) IndexUpdate → Except Refusal ChainUpdate → Prop
  | refused (refusal : Refusal) : Answers (.error (.refused refusal)) (.error refusal)
  | changed {index : ChainIndex} {chain : Chain} {events : List ChainEvent} (exact : index.Exact)
      (same : index.Represents chain) : Answers (.ok ⟨index, events⟩) (.ok ⟨chain, events⟩)

variable {index : ChainIndex} {chain : Chain}

/-- A check of a chain as its stored form makes it: the same refusals, and a value at the end. -/
def answered {Refusal Value : Type} (value : Value) (outcome : Except Refusal Unit) :
    Except (IndexError Refusal) Value :=
  (outcome.mapError .refused).map fun _ => value

omit [Primitives] in
theorem answered_throw {Refusal Value : Type} (value : Value) (refusal : Refusal) :
    answered value (throw refusal) = throw (.refused refusal) := rfl

omit [Primitives] in
theorem answered_ite {Refusal Value : Type} (value : Value) (reason : Prop) [Decidable reason]
    (refused passed : Except Refusal Unit) :
    answered value (if reason then refused else passed) =
      if reason then answered value refused else answered value passed :=
  apply_ite (answered value) reason refused passed

theorem checkPosition_eq (exact : index.Exact) (same : index.Represents chain) (block : Block) :
    index.checkPosition block = answered chain.tip (chain.checkPosition block) := by
  have headers := exact.headers.trans same.headersOf_eq
  simp only [checkPosition, Chain.checkPosition, Chain.nextWork, same.contains_eq exact,
    same.invalid, same.tip?_eq, headers, chain.medianTime?_headers, same.rules, demand,
    Outcome.throw_bind, pure_bind, Int.ofNat_le, answered_ite, answered_throw]
  refine if_congr Iff.rfl rfl (if_congr Iff.rfl rfl (if_congr Iff.rfl rfl ?_))
  cases Retarget.next chain.headers block.header.time.toNat chain.rules.params with
  | error => rfl
  | ok bits =>
    rw [answered_ite]
    rfl

namespace Represents

theorem push (same : index.Represents chain) (block : Block) (connected : Connected) :
    ({ index with coins := connected.coins }.push block.hash block connected.undo).Represents
      (chain.grow block connected) :=
  { same with
    coins := rfl
    blocks := by
      change (index.active ++ [_]).map _ = (_ :: chain.entries).reverse
      rw [List.map_append, same.blocks, List.reverse_cons]
      rfl }

/-- The tip of a chain comes off the stored chain. -/
theorem pop (exact : index.Exact) (same : index.Represents chain) {entry : ChainEntry}
    {below : List ChainEntry} (top : chain.above = entry :: below) :
    ∃ lower kept, index.pop? = some (kept, index.shrink lower kept) ∧
      kept.toChainEntry = entry ∧ lower.length = chain.height ∧
      (index.shrink lower kept).Represents (chain.shrink entry below) ∧
      (chain.checkRemovable chain.height = .ok () → (index.shrink lower kept).Exact) := by
  have blocks := same.blocks
  rw [Chain.entries, top, List.cons_append, List.reverse_cons] at blocks
  obtain ⟨lower, last, shape, low, high⟩ := List.map_eq_append_iff.mp blocks
  obtain ⟨kept, rfl, rfl⟩ := List.map_eq_singleton_iff.mp high
  have length : lower.length = chain.height := by
    have := congrArg List.length shape
    rw [same.length_eq, List.length_append, List.length_singleton] at this
    omega
  have based : lower ≠ [] := by
    rintro rfl
    simp at low
  refine ⟨lower, kept, pop?_eq_some shape based, rfl, length, ?_, fun removable => ?_⟩
  · exact { same with
      coins := congrArg (kept.block.unapply · kept.undo) same.coins
      blocks := low }
  · obtain ⟨-, free⟩ := Chain.checkRemovable_eq_ok_iff.mp removable
    refine exact.shrink shape based fun finalized noted => ?_
    rw [length]
    exact free finalized (same.finalized ▸ noted)

omit [Primitives] in
theorem ruleOut (same : index.Represents chain) (hash : Hash) :
    (index.ruleOut hash).Represents (chain.ruleOut hash) :=
  { same with invalid := congrArg (·.insert hash) same.invalid }

omit [Primitives] in
theorem setStakingWinner (same : index.Represents chain) (hash : Hash) (script : Bytes) :
    (index.setStakingWinner hash script).Represents (chain.setStakingWinner hash script) :=
  { same with stakingWinners := congrArg (·.insert hash script) same.stakingWinners }

end Represents

theorem connect_answers (exact : index.Exact) (same : index.Represents chain) (block : Block) :
    Answers (index.connect block) (chain.connect block) := by
  rw [connect, checkPosition_eq exact same, Chain.connect]
  cases placed : chain.checkPosition block with
  | error refusal => exact .refused refusal
  | ok =>
    have checked : block.connect index.rules (chain.height + 1)
        index.stakingWinners[chain.tip.hash]? index.coins =
        block.connect chain.rules (chain.height + 1) (chain.stakingWinner? chain.tip.hash)
          chain.coins := by
      rw [same.rules, same.stakingWinners, same.coins, Chain.stakingWinner?]
    change Answers ((block.connect index.rules (chain.height + 1)
      index.stakingWinners[chain.tip.hash]? index.coins).mapError _ >>= _) (_ >>= _)
    rw [checked]
    cases block.connect chain.rules (chain.height + 1) (chain.stakingWinner? chain.tip.hash)
      chain.coins with
    | error refusal => exact .refused refusal
    | ok connected =>
      obtain ⟨fresh, allowed, -⟩ := Chain.checkPosition_eq_ok_iff.mp placed
      have grown := same.push block connected
      have top := grown.tip?_eq
      rw [tip?, grown.length_eq] at top
      change Answers (demand (infoAt? _ (chain.height + 1)) >>= _) (.ok _)
      rw [show infoAt? _ (chain.height + 1) = _ from top]
      refine .changed (exact.push connected.undo connected.coins ?_ ?_ (same.follows placed)) grown
      · rw [same.heights_eq exact]
        exact Option.isNone_iff_eq_none.mp (Option.isSome_eq_false_iff.mp fresh)
      · rwa [same.invalid]

omit [Primitives] in
theorem checkRemovable_eq (same : index.Represents chain) (height : Nat) :
    index.checkRemovable height = answered () (chain.checkRemovable height) := by
  rw [checkRemovable, Chain.checkRemovable, same.finalized, answered_ite]
  refine if_congr Iff.rfl rfl ?_
  cases chain.finalized with
  | none => rfl
  | some finalized =>
    rw [answered_ite]
    rfl

theorem Answers.eq_ok {answer : Except (IndexError ChainError) IndexUpdate} {update : ChainUpdate}
    (answers : Answers answer (.ok update)) :
    ∃ changed, answer = .ok ⟨changed, update.events⟩ ∧ changed.Exact ∧
      changed.Represents update.chain := by
  cases answers with
  | changed exact same => exact ⟨_, rfl, exact, same⟩

theorem disconnectTip_answers (exact : index.Exact) (same : index.Represents chain) :
    Answers index.disconnectTip chain.disconnectTip := by
  rw [disconnectTip, same.tip?_eq, Chain.disconnectTip]
  change Answers (index.checkRemovable chain.height >>= _) _
  rw [checkRemovable_eq same]
  cases removable : chain.checkRemovable chain.height with
  | error refusal => exact .refused refusal
  | ok =>
    cases top : chain.above with
    | nil =>
      have grounded : chain.height = 0 := congrArg List.length top
      exact absurd grounded (Chain.checkRemovable_eq_ok_iff.mp removable).1
    | cons entry below =>
      obtain ⟨lower, kept, popped, rfl, length, shorter, free⟩ := same.pop exact top
      simp only [answered, popped, Chain.pop?, top, ← length]
      exact .changed (free removable) shorter

/-- Ruling out the latest blocks of a stored chain, down to one that may leave it. -/
theorem invalidateLatest_answers {target count : Nat} (exact : index.Exact)
    (same : index.Represents chain) (span : chain.height + 1 = target + count)
    (removable : chain.checkRemovable target = .ok ()) :
    Answers (invalidateLatest target index count) (.ok (Chain.invalidateLatest chain count)) := by
  -- Each step takes the tip off; the target stays, and with it what makes it removable.
  induction count generalizing index chain with
  | zero => exact .changed exact same
  | succ count ih =>
    have free := Chain.checkRemovable_mono removable (show target ≤ chain.height by omega)
    cases top : chain.above with
    | nil =>
      have grounded : chain.height = 0 := congrArg List.length top
      exact absurd grounded (Chain.checkRemovable_eq_ok_iff.mp free).1
    | cons entry below =>
      have height : chain.height = below.length + 1 := congrArg List.length top
      obtain ⟨lower, kept, popped, rfl, length, shorter, stays⟩ := same.pop exact top
      have gone : (index.shrink lower kept).heights[kept.hash]? = none := by
        change (index.heights.erase kept.hash)[kept.hash]? = none
        rw [Std.ExtTreeMap.getElem?_erase_self]
      have rest := ih ((stays free).ruleOut gone) (shorter.ruleOut kept.hash)
        (by change below.length + 1 = _; omega) removable
      obtain ⟨changed, done, kept, represents⟩ := rest.eq_ok
      have lowest : chain.height = target ↔ count = 0 := by omega
      simp only [invalidateLatest, popped, Chain.invalidateLatest, Chain.pop?, top, done]
      rw [show (index.shrink lower _).active.length = _ from length, if_congr lowest rfl rfl]
      exact .changed kept represents

/-- A stored chain finds a block where the chain does. -/
theorem locate_eq (exact : index.Exact) (same : index.Represents chain) (hash : Hash) :
    (index.locate hash = .error (.refused .notInActiveChain) ∧
        chain.locate hash = .error .notInActiveChain) ∨
      ∃ info, index.locate hash = .ok info.height ∧ chain.locate hash = .ok info ∧
        index.infoAt? info.height = some info ∧ info.height < index.active.length := by
  rw [locate, Chain.locate, same.heights_eq exact]
  cases known : chain.heightOf? hash with
  | none => exact Or.inl ⟨rfl, rfl⟩
  | some height =>
    rw [← same.heights_eq exact] at known
    obtain ⟨entry, there, -⟩ := (exact.heights hash height).mp known
    have info : index.infoAt? height = some ⟨entry.hash, height, entry.block.header.time⟩ := by
      rw [infoAt?, there, Option.map_some]
    refine Or.inr ⟨⟨entry.hash, height, entry.block.header.time⟩, rfl, ?_, info,
      (List.getElem?_eq_some_iff.mp there).1⟩
    rw [Option.bind_some, ← same.infoAt?_eq, info]
    rfl

theorem invalidate_answers (exact : index.Exact) (same : index.Represents chain) (hash : Hash) :
    Answers (index.invalidate hash) (chain.invalidate hash) := by
  rw [invalidate, Chain.invalidate]
  rcases locate_eq exact same hash with ⟨lost, missing⟩ | ⟨info, found, there, -, inside⟩
  · rw [lost, missing]
    exact .refused _
  · rw [found, there]
    change Answers (index.checkRemovable info.height >>= _)
      (chain.checkRemovable info.height >>= _)
    rw [checkRemovable_eq same, same.length_eq]
    cases removable : chain.checkRemovable info.height with
    | error refusal => exact .refused refusal
    | ok =>
      rw [same.length_eq] at inside
      have span : chain.height + 1 = info.height + (chain.height + 1 - info.height) := by omega
      obtain ⟨changed, done, kept, represents⟩ :=
        (invalidateLatest_answers exact same span removable).eq_ok
      change Answers (invalidateLatest _ _ _ >>= _) (.ok _)
      rw [done]
      change Answers (demand changed.tip? >>= _) (.ok _)
      rw [represents.tip?_eq]
      exact .changed kept represents

theorem finalize_answers (exact : index.Exact) (same : index.Represents chain) (hash : Hash) :
    Answers (index.finalize hash) (chain.finalize hash) := by
  rw [finalize, Chain.finalize]
  rcases locate_eq exact same hash with ⟨lost, missing⟩ | ⟨info, found, there, here, inside⟩
  · rw [lost, missing]
    exact .refused _
  · rw [found, there]
    change Answers (demand (index.infoAt? info.height) >>= _) (.ok _)
    rw [here, ← same.finalized]
    refine .changed (exact.finalize ?_) { same with finalized := rfl }
    cases before : index.finalized with
    | none => exact inside
    | some finalized => exact Nat.max_lt.mpr ⟨exact.permanent finalized before, inside⟩

end Answers

section Runs

variable [Primitives]

/-- What a request changes in a stored chain, unless it is refused. -/
def update? (index : ChainIndex) : ChainRequest → Option IndexUpdate
  | .connect block => (index.connect block).toOption
  | .disconnectTip => index.disconnectTip.toOption
  | .invalidate hash => (index.invalidate hash).toOption
  | .finalize hash => (index.finalize hash).toOption
  | .setStakingWinner hash script => some ⟨index.setStakingWinner hash script, []⟩

/-- The stored chain after a request. -/
def after (index : ChainIndex) (request : ChainRequest) : ChainIndex :=
  ((index.update? request).map IndexUpdate.index).getD index

/-- The stored chain after some requests, one after the other. -/
def run (index : ChainIndex) (requests : List ChainRequest) : ChainIndex :=
  requests.foldl after index

/-- A new chain is stored exactly. -/
theorem new_represents (rules : Rules) : (new rules).Represents (Chain.new rules) :=
  ⟨rfl, rfl, rfl, rfl, rfl, rfl⟩

variable {index : ChainIndex} {chain : Chain}

/-- An answer leaves an exact stored chain behind, whether it is a refusal or not. -/
theorem Answers.stored {Refusal : Type} {answer : Except (IndexError Refusal) IndexUpdate}
    {outcome : Except Refusal ChainUpdate} (answers : Answers answer outcome) (exact : index.Exact)
    (same : index.Represents chain) :
    ((answer.toOption.map IndexUpdate.index).getD index).Exact ∧
      ((answer.toOption.map IndexUpdate.index).getD index).Represents
        ((outcome.toOption.map ChainUpdate.chain).getD chain) := by
  cases answers with
  | refused => exact ⟨exact, same⟩
  | changed exact same => exact ⟨exact, same⟩

/-- A request keeps a stored chain exact, and changes it as it changes the chain. -/
theorem after_represents (exact : index.Exact) (same : index.Represents chain)
    (request : ChainRequest) :
    (index.after request).Exact ∧ (index.after request).Represents (chain.after request) := by
  cases request with
  | connect block => exact (connect_answers exact same block).stored exact same
  | disconnectTip => exact (disconnectTip_answers exact same).stored exact same
  | invalidate hash => exact (invalidate_answers exact same hash).stored exact same
  | finalize hash => exact (finalize_answers exact same hash).stored exact same
  | setStakingWinner hash script =>
    exact ⟨exact.setStakingWinner hash script, same.setStakingWinner hash script⟩

theorem run_represents (exact : index.Exact) (same : index.Represents chain)
    (requests : List ChainRequest) :
    (index.run requests).Exact ∧ (index.run requests).Represents (chain.run requests) := by
  induction requests generalizing index chain with
  | nil => exact ⟨exact, same⟩
  | cons request rest ih =>
    obtain ⟨exact, same⟩ := after_represents exact same request
    exact ih exact same

/-- Whatever a new chain is asked for, it is stored exactly: everything beside the blocks says
what the blocks say, and each block above the genesis block of the network stands there by right. -/
theorem exact_run (rules : Rules) (requests : List ChainRequest) :
    ((new rules).run requests).rules = rules ∧ ((new rules).run requests).Exact ∧
      ((new rules).run requests).Represents ((Chain.new rules).run requests) := by
  obtain ⟨exact, same⟩ := run_represents (Exact.new rules) (new_represents rules) requests
  exact ⟨same.rules.trans (Chain.rules_run _ requests), exact, same⟩

/-- After every run the next request is answered as the chain answers it; no lookup of the stored
chain fails. -/
theorem answers_run (rules : Rules) (requests : List ChainRequest) :
    (∀ block, Answers (((new rules).run requests).connect block)
      (((Chain.new rules).run requests).connect block)) ∧
    Answers ((new rules).run requests).disconnectTip
      ((Chain.new rules).run requests).disconnectTip ∧
    ∀ hash, Answers (((new rules).run requests).invalidate hash)
        (((Chain.new rules).run requests).invalidate hash) ∧
      Answers (((new rules).run requests).finalize hash)
        (((Chain.new rules).run requests).finalize hash) := by
  obtain ⟨exact, same⟩ := run_represents (Exact.new rules) (new_represents rules) requests
  exact ⟨connect_answers exact same, disconnectTip_answers exact same,
    fun hash => ⟨invalidate_answers exact same hash, finalize_answers exact same hash⟩⟩

end Runs

end ChainIndex

end ScryptLedger
