import Mathlib.Data.List.Induction
import Mathlib.Logic.Relation
import ScryptLedger.Chain.Update
import ScryptLedger.Proofs.Block.Connect

/-!
# Runs of a chain

A run is what a chain goes through when it is asked for one change after the
other; a refused request leaves it as it is. Every run is made of a few moves:
a block is put on the tip, or the tip is taken off, or something that is no
block and no coin is noted. What holds of a new chain and is kept by each move
holds after every run.
-/

namespace ScryptLedger

/-- What can be asked of a chain. -/
inductive ChainRequest where
  | connect (block : Block)
  | disconnectTip
  | invalidate (hash : Hash)
  | finalize (hash : Hash)
  | setStakingWinner (hash : Hash) (script : Bytes)
deriving DecidableEq

namespace Chain

/-- The chain that has ruled a block out. -/
def ruleOut (chain : Chain) (hash : Hash) : Chain :=
  { chain with invalid := chain.invalid.insert hash }

section Moves

variable [Primitives] (chain : Chain)

/-- The chain with a block on its tip. -/
def grow (block : Block) (connected : Connected) : Chain :=
  { chain with
    above := ⟨block.hash, block, connected.undo⟩ :: chain.above
    coins := connected.coins }

/-- The chain without its tip, whose entry and the entries below are given. -/
def shrink (entry : ChainEntry) (below : List ChainEntry) : Chain :=
  { chain with above := below, coins := entry.block.unapply chain.coins entry.undo }

/-- Whether a block fits on a chain, and what putting it there yields. -/
structure Extends (block : Block) (connected : Connected) : Prop where
  placed : chain.checkPosition block = .ok ()
  accepted : block.connect chain.rules (chain.height + 1) (chain.stakingWinner? chain.tip.hash)
    chain.coins = .ok connected

/-- The moves that put no block on a chain. -/
inductive Retreat : Chain → Chain → Prop
  | disconnect {chain : Chain} {entry : ChainEntry} {below : List ChainEntry}
      (top : chain.above = entry :: below)
      (removable : chain.checkRemovable chain.height = .ok ()) :
      Retreat chain (chain.shrink entry below)
  | invalidate {chain : Chain} {entry : ChainEntry} {below : List ChainEntry}
      (top : chain.above = entry :: below)
      (removable : chain.checkRemovable chain.height = .ok ()) :
      Retreat chain ((chain.shrink entry below).ruleOut entry.hash)
  | finalize {chain : Chain} {hash : Hash} {update : ChainUpdate}
      (done : chain.finalize hash = .ok update) : Retreat chain update.chain
  | setStakingWinner (chain : Chain) (hash : Hash) (script : Bytes) :
      Retreat chain (chain.setStakingWinner hash script)

/-- What a request changes, unless it is refused. -/
def update? : ChainRequest → Option ChainUpdate
  | .connect block => (chain.connect block).toOption
  | .disconnectTip => chain.disconnectTip.toOption
  | .invalidate hash => (chain.invalidate hash).toOption
  | .finalize hash => (chain.finalize hash).toOption
  | .setStakingWinner hash script => some ⟨chain.setStakingWinner hash script, []⟩

/-- The chain after a request. -/
def after (request : ChainRequest) : Chain :=
  ((chain.update? request).map ChainUpdate.chain).getD chain

/-- The chain after some requests, one after the other. -/
def run (requests : List ChainRequest) : Chain :=
  requests.foldl Chain.after chain

end Moves

variable [Primitives] {chain : Chain}

theorem run_append (chain : Chain) (first second : List ChainRequest) :
    chain.run (first ++ second) = (chain.run first).run second :=
  List.foldl_append

theorem run_concat (chain : Chain) (earlier : List ChainRequest) (request : ChainRequest) :
    chain.run (earlier ++ [request]) = (chain.run earlier).after request :=
  run_append chain earlier [request]

theorem after_of_update? {request : ChainRequest} {update : ChainUpdate}
    (done : chain.update? request = some update) : chain.after request = update.chain := by
  rw [after, done, Option.map_some, Option.getD_some]

/-- A run goes on from what a request changes. -/
theorem run_of_update? {earlier : List ChainRequest} {request : ChainRequest} {update : ChainUpdate}
    (done : (chain.run earlier).update? request = some update) (later : List ChainRequest) :
    chain.run (earlier ++ request :: later) = update.chain.run later := by
  rw [run_append, ← after_of_update? done]
  rfl

theorem after_of_refused {request : ChainRequest} (refused : chain.update? request = none) :
    chain.after request = chain := by
  rw [after, refused, Option.map_none, Option.getD_none]

/-- A block connects exactly when it extends the chain. -/
theorem connect_eq_ok_iff {block : Block} {update : ChainUpdate} :
    chain.connect block = .ok update ↔ ∃ connected, chain.Extends block connected ∧
      update = ⟨chain.grow block connected, [.connected (chain.grow block connected).tip]⟩ := by
  simp only [connect, Outcome.bind_eq_ok_iff, Outcome.pure_eq_ok_iff]
  constructor
  · rintro ⟨⟨⟩, placed, connected, accepted, rfl⟩
    exact ⟨connected, ⟨placed, accepted⟩, rfl⟩
  · rintro ⟨connected, ⟨placed, accepted⟩, rfl⟩
    exact ⟨(), placed, connected, accepted, rfl⟩

theorem after_connect {block : Block} {connected : Connected}
    (fits : chain.Extends block connected) :
    chain.after (.connect block) = chain.grow block connected := by
  have done := connect_eq_ok_iff.mpr ⟨connected, fits, rfl⟩
  have changed : chain.update? (.connect block) = some _ := Outcome.toOption_eq_some_iff.mpr done
  exact after_of_update? changed

omit [Primitives] in
theorem checkRemovable_eq_ok_iff {height : Nat} :
    chain.checkRemovable height = .ok () ↔
      height ≠ 0 ∧ ∀ finalized, chain.finalized = some finalized → finalized < height := by
  rw [checkRemovable]
  cases chain.finalized with
  | none => simp
  | some finalized => simp

omit [Primitives] in
/-- What may leave the chain may leave it together with the blocks above it. -/
theorem checkRemovable_mono {low high : Nat} (removable : chain.checkRemovable low = .ok ())
    (higher : low ≤ high) : chain.checkRemovable high = .ok () := by
  obtain ⟨positive, unfinalized⟩ := checkRemovable_eq_ok_iff.mp removable
  refine checkRemovable_eq_ok_iff.mpr ⟨by omega, fun finalized noted => ?_⟩
  exact Nat.lt_of_lt_of_le (unfinalized finalized noted) higher

omit [Primitives] in
theorem finalize_eq_ok_iff {hash : Hash} {update : ChainUpdate} :
    chain.finalize hash = .ok update ↔ ∃ info, chain.locate hash = .ok info ∧
      update = ⟨{ chain with finalized := some (max (chain.finalized.getD 0) info.height) },
        [.finalized info]⟩ := by
  simp only [finalize, Outcome.bind_eq_ok_iff, Outcome.pure_eq_ok_iff, @eq_comm _ _ update]
  cases chain.finalized with
  | none => simp
  | some finalized => simp

/-- A move down changes neither the rules nor the genesis block. -/
theorem Retreat.fixed {longer shorter : Chain} (move : Retreat longer shorter) :
    shorter.rules = longer.rules ∧ shorter.genesis = longer.genesis := by
  cases move with
  | disconnect => exact ⟨rfl, rfl⟩
  | invalidate => exact ⟨rfl, rfl⟩
  | finalize done =>
    obtain ⟨_, _, rfl⟩ := finalize_eq_ok_iff.mp done
    exact ⟨rfl, rfl⟩
  | setStakingWinner => exact ⟨rfl, rfl⟩

/-- A move down takes the tip off, or leaves the blocks and the coins alone. -/
theorem Retreat.blocks_cases {longer shorter : Chain} (move : Retreat longer shorter) :
    (∃ entry, longer.above = entry :: shorter.above ∧
      shorter.coins = entry.block.unapply longer.coins entry.undo) ∨
    shorter.above = longer.above ∧ shorter.coins = longer.coins := by
  cases move with
  | disconnect top => exact Or.inl ⟨_, top, rfl⟩
  | invalidate top => exact Or.inl ⟨_, top, rfl⟩
  | finalize done =>
    obtain ⟨_, _, rfl⟩ := finalize_eq_ok_iff.mp done
    exact Or.inr ⟨rfl, rfl⟩
  | setStakingWinner => exact Or.inr ⟨rfl, rfl⟩

theorem above_suffix_of_retreats {longer shorter : Chain}
    (moves : Relation.ReflTransGen Retreat longer shorter) : shorter.above <:+ longer.above := by
  induction moves with
  | refl => exact List.suffix_refl _
  | tail _ move kept =>
    rcases move.blocks_cases with ⟨entry, top, _⟩ | ⟨same, _⟩
    · rw [top] at kept
      exact (List.suffix_cons entry _).trans kept
    · rwa [same]

/-- A move down leaves the lower blocks of the chain, with the genesis block. -/
theorem Retreat.entries_suffix {longer shorter : Chain} (move : Retreat longer shorter) :
    shorter.entries <:+ longer.entries := by
  rw [entries, entries, move.fixed.2]
  obtain ⟨taken, split⟩ := above_suffix_of_retreats (.single move)
  rw [← split, List.append_assoc]
  exact List.suffix_append _ _

/-- The tip comes off when its height may leave the chain. -/
theorem disconnectTip_eq_ok_iff {update : ChainUpdate} :
    chain.disconnectTip = .ok update ↔ ∃ entry below, chain.above = entry :: below ∧
      chain.checkRemovable chain.height = .ok () ∧
      update = ⟨chain.shrink entry below,
        [.disconnected (RemovedBlock.of entry.block chain.height entry.hash)]⟩ := by
  simp only [disconnectTip, Outcome.bind_eq_ok_iff]
  cases top : chain.above with
  | nil => simp [pop?, top]
  | cons entry below =>
    simp only [pop?, top, Outcome.pure_eq_ok_iff, List.cons.injEq]
    constructor
    · rintro ⟨⟨⟩, removable, rfl⟩
      exact ⟨entry, below, ⟨rfl, rfl⟩, removable, rfl⟩
    · rintro ⟨_, _, ⟨rfl, rfl⟩, removable, rfl⟩
      exact ⟨(), removable, rfl⟩

theorem after_disconnectTip {entry : ChainEntry} {below : List ChainEntry}
    (top : chain.above = entry :: below)
    (removable : chain.checkRemovable chain.height = .ok ()) :
    chain.after .disconnectTip = chain.shrink entry below := by
  have done := disconnectTip_eq_ok_iff.mpr ⟨entry, below, top, removable, rfl⟩
  have changed : chain.update? .disconnectTip = some _ := Outcome.toOption_eq_some_iff.mpr done
  exact after_of_update? changed

/-- Ruling out the latest blocks down to a removable height takes one move down a block. -/
theorem retreats_of_invalidateLatest {count lowest : Nat} (span : chain.height + 1 = lowest + count)
    (removable : chain.checkRemovable lowest = .ok ()) :
    Relation.ReflTransGen Retreat chain (invalidateLatest chain count).chain := by
  -- Each step takes the tip off; the lowest height stays, and with it what makes it removable.
  induction count generalizing chain with
  | zero => exact .refl
  | succ count ih =>
    have positive := (checkRemovable_eq_ok_iff.mp removable).1
    have free := checkRemovable_mono removable (show lowest ≤ chain.height by omega)
    cases top : chain.above with
    | nil =>
      have : chain.height = 0 := by rw [height, top, List.length_nil]
      omega
    | cons entry below =>
      have length : chain.height = below.length + 1 := by rw [height, top, List.length_cons]
      simp only [invalidateLatest, pop?, top]
      refine .head (.invalidate top free) (ih ?_ ?_)
      · change below.length + 1 = _
        omega
      · exact removable

omit [Primitives] in
theorem locate_eq_ok_iff {hash : Hash} {info : BlockInfo} :
    chain.locate hash = .ok info ↔ (chain.heightOf? hash).bind chain.infoAt? = some info := by
  rw [locate]
  cases (chain.heightOf? hash).bind chain.infoAt? with
  | none => simp
  | some found => simp

omit [Primitives] in
theorem height_le_of_locate {hash : Hash} {info : BlockInfo}
    (found : chain.locate hash = .ok info) : info.height ≤ chain.height := by
  obtain ⟨height, place, there⟩ := Option.bind_eq_some_iff.mp (locate_eq_ok_iff.mp found)
  obtain ⟨index, _, rfl⟩ := Option.map_eq_some_iff.mp place
  obtain ⟨entry, _, rfl⟩ := Option.map_eq_some_iff.mp there
  exact Nat.sub_le chain.height index

theorem retreats_of_invalidate {hash : Hash} {update : ChainUpdate}
    (done : chain.invalidate hash = .ok update) :
    Relation.ReflTransGen Retreat chain update.chain := by
  simp only [invalidate, Outcome.bind_eq_ok_iff, Outcome.pure_eq_ok_iff] at done
  obtain ⟨info, found, ⟨⟩, removable, rfl⟩ := done
  have below := height_le_of_locate found
  exact retreats_of_invalidateLatest (by omega) removable

/-- What one request comes to: a block on the tip, or moves that put no block there. -/
theorem after_cases (chain : Chain) (request : ChainRequest) :
    (∃ block connected, request = .connect block ∧ chain.Extends block connected ∧
      chain.after request = chain.grow block connected) ∨
    Relation.ReflTransGen Retreat chain (chain.after request) := by
  cases done : chain.update? request with
  | none =>
    rw [after_of_refused done]
    exact Or.inr .refl
  | some update =>
    rw [after_of_update? done]
    cases request with
    | connect block =>
      obtain ⟨connected, fits, rfl⟩ := connect_eq_ok_iff.mp (Outcome.toOption_eq_some_iff.mp done)
      exact Or.inl ⟨block, connected, rfl, fits, rfl⟩
    | disconnectTip =>
      obtain ⟨entry, below, top, removable, rfl⟩ :=
        disconnectTip_eq_ok_iff.mp (Outcome.toOption_eq_some_iff.mp done)
      exact Or.inr (.single (.disconnect top removable))
    | invalidate hash =>
      exact Or.inr (retreats_of_invalidate (Outcome.toOption_eq_some_iff.mp done))
    | finalize hash =>
      exact Or.inr (.single (.finalize (Outcome.toOption_eq_some_iff.mp done)))
    | setStakingWinner hash script =>
      cases done
      exact Or.inr (.single (.setStakingWinner chain hash script))

/-- What is kept by each move down is kept by many. -/
theorem keep_of_retreats {P : Chain → Prop} {longer shorter : Chain}
    (keep : ∀ chain shorter, P chain → Retreat chain shorter → P shorter)
    (moves : Relation.ReflTransGen Retreat longer shorter) (start : P longer) : P shorter := by
  induction moves with
  | refl => exact start
  | tail _ move kept => exact keep _ _ kept move

/-- What is true of a chain and kept by every move is true after every run. -/
theorem run_induction (chain : Chain) {P : Chain → Prop} (start : P chain)
    (grow : ∀ chain block connected, P chain → chain.Extends block connected →
      P (chain.grow block connected))
    (retreat : ∀ chain shorter, P chain → Retreat chain shorter → P shorter)
    (requests : List ChainRequest) : P (chain.run requests) := by
  induction requests generalizing chain with
  | nil => exact start
  | cons request rest ih =>
    refine ih _ ?_
    rcases after_cases chain request with ⟨block, connected, _, fits, same⟩ | moves
    · rw [same]
      exact grow chain block connected start fits
    · exact keep_of_retreats retreat moves start

/-- No request changes the rules or the genesis block. -/
theorem fixed_run (chain : Chain) (requests : List ChainRequest) :
    (chain.run requests).rules = chain.rules ∧
      (chain.run requests).genesis = chain.genesis := by
  refine run_induction chain
    (P := fun reached => reached.rules = chain.rules ∧ reached.genesis = chain.genesis)
    ⟨rfl, rfl⟩ ?_ ?_ requests
  · intro _ _ _ same _
    exact same
  · intro _ _ same move
    exact ⟨move.fixed.1.trans same.1, move.fixed.2.trans same.2⟩

theorem rules_run (chain : Chain) (requests : List ChainRequest) :
    (chain.run requests).rules = chain.rules :=
  (fixed_run chain requests).1

theorem genesis_run (chain : Chain) (requests : List ChainRequest) :
    (chain.run requests).genesis = chain.genesis :=
  (fixed_run chain requests).2

/-- Every block above the first ones was connected at some point of the run, to the blocks that
are still below it. -/
theorem origin_of_run {requests : List ChainRequest} {later below : List ChainEntry}
    {entry : ChainEntry} (fresh : chain.above = [])
    (stands : (chain.run requests).above = later ++ entry :: below) :
    ∃ earlier connected, earlier ++ [.connect entry.block] <+: requests ∧
      (chain.run earlier).above = below ∧ (chain.run earlier).Extends entry.block connected ∧
      entry = ⟨entry.block.hash, entry.block, connected.undo⟩ := by
  -- The last request either put the entry there, or left it where it was.
  induction requests using List.reverseRecOn generalizing later with
  | nil =>
    have empty : later ++ entry :: below = [] := stands.symm.trans fresh
    simp at empty
  | append_singleton past request ih =>
    have kept : ∀ {upper}, (chain.run past).above = upper ++ entry :: below →
        ∃ earlier connected, earlier ++ [.connect entry.block] <+: past ++ [request] ∧
          (chain.run earlier).above = below ∧
          (chain.run earlier).Extends entry.block connected ∧
          entry = ⟨entry.block.hash, entry.block, connected.undo⟩ := by
      intro upper there
      obtain ⟨earlier, connected, started, rest⟩ := ih there
      exact ⟨earlier, connected, started.trans (List.prefix_append past [request]), rest⟩
    rw [run_concat] at stands
    rcases after_cases (chain.run past) request with ⟨block, connected, rfl, fits, same⟩ | moves
    · rw [same] at stands
      cases later with
      | nil =>
        obtain ⟨rfl, rfl⟩ := List.cons.inj stands
        exact ⟨past, connected, List.prefix_refl _, rfl, fits, rfl⟩
      | cons top upper =>
        exact kept (List.cons.inj stands).2
    · obtain ⟨taken, there⟩ := above_suffix_of_retreats moves
      rw [stands, ← List.append_assoc] at there
      exact kept there.symm

end Chain

end ScryptLedger
