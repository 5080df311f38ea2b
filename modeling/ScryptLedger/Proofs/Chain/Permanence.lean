import Mathlib.Data.List.Chain
import ScryptLedger.Proofs.Chain.Identity
import ScryptLedger.Proofs.Chain.IndexRun
import ScryptLedger.Proofs.Chain.Invalidation
import ScryptLedger.Proofs.Chain.Replay

/-!
# What stays, and what never comes back

The blocks up to a finalized one are the lowest blocks of the chain from then
on: nothing below the highest finalized height can be taken off, and that
height never sinks. A block that was ruled out is not part of the chain again,
and neither is a block from which parents lead back to it, whether that block
was ruled out itself or had left the chain before. The last part rests on what
a parent is: blocks of the chain name the block below them, so that blocks that
lead elsewhere show an identity that two headers share, or that the genesis
block names a parent.
-/

namespace ScryptLedger

namespace Chain

section Finality

/-- Whether some blocks, latest first, are the lowest of a chain, and permanent. -/
structure Keeps (chain : Chain) (low : List ChainEntry) : Prop where
  lowest : low <:+ chain.entries
  permanent : ∃ finalized, chain.finalized = some finalized ∧ low.length ≤ finalized + 1

variable {chain : Chain} {low : List ChainEntry}

theorem Keeps.entryAt?_eq (keeps : chain.Keeps low) {height : Nat} (inside : height < low.length) :
    chain.entryAt? height = low.reverse[height]? := by
  obtain ⟨above, split⟩ := keeps.lowest
  rw [entryAt?, ← split, List.reverse_append]
  refine List.getElem?_append_left ?_
  rwa [List.length_reverse]

variable [Primitives]

theorem Keeps.grow (keeps : chain.Keeps low) (block : Block) (connected : Connected) :
    (chain.grow block connected).Keeps low where
  lowest := keeps.lowest.trans (List.suffix_cons _ chain.entries)
  permanent := keeps.permanent

/-- The tip is above the permanent blocks when it can be taken off. -/
theorem Keeps.shrink (keeps : chain.Keeps low) {entry : ChainEntry} {below : List ChainEntry}
    (top : chain.above = entry :: below)
    (removable : chain.checkRemovable chain.height = .ok ()) :
    (chain.shrink entry below).Keeps low := by
  obtain ⟨finalized, noted, short⟩ := keeps.permanent
  have free := (checkRemovable_eq_ok_iff.mp removable).2 finalized noted
  refine ⟨?_, finalized, noted, short⟩
  have lowest := keeps.lowest
  rw [entries, top, List.cons_append, List.suffix_cons_iff] at lowest
  rcases lowest with whole | lower
  · have length : low.length = chain.height + 1 := by
      rw [whole, height, top, List.length_cons, List.length_cons, List.length_append]
      rfl
    omega
  · exact lower

theorem Keeps.retreat {shorter : Chain} (keeps : chain.Keeps low) (move : Retreat chain shorter) :
    shorter.Keeps low := by
  cases move with
  | disconnect top removable => exact keeps.shrink top removable
  | invalidate top removable => exact { keeps.shrink top removable with }
  | finalize done =>
    obtain ⟨info, _, rfl⟩ := finalize_eq_ok_iff.mp done
    obtain ⟨finalized, noted, short⟩ := keeps.permanent
    refine ⟨keeps.lowest, _, rfl, ?_⟩
    rw [noted, Option.getD_some]
    omega
  | setStakingWinner => exact { keeps with }

theorem Keeps.run (keeps : chain.Keeps low) (requests : List ChainRequest) :
    (chain.run requests).Keeps low := by
  refine run_induction chain (P := fun reached => reached.Keeps low) keeps ?_ ?_ requests
  · intro _ block connected kept _
    exact kept.grow block connected
  · intro _ _ kept move
    exact kept.retreat move

/-- What is finalized is kept, at its height and at all heights below. -/
theorem entryAt?_of_finalize {hash : Hash} {update : ChainUpdate}
    (done : chain.finalize hash = .ok update) :
    ∃ height, chain.heightOf? hash = some height ∧ ∀ requests, ∀ lower ≤ height,
      (update.chain.run requests).entryAt? lower = chain.entryAt? lower := by
  obtain ⟨info, found, rfl⟩ := finalize_eq_ok_iff.mp done
  obtain ⟨later, entry, earlier, split, _, known, rfl⟩ := split_of_locate found
  let finalized : Chain :=
    { chain with finalized := some (max (chain.finalized.getD 0) earlier.length) }
  have keeps : finalized.Keeps (entry :: earlier) := by
    refine ⟨⟨later, split.symm⟩, _, rfl, ?_⟩
    rw [List.length_cons]
    omega
  refine ⟨earlier.length, known, fun requests lower low => ?_⟩
  have inside : lower < (entry :: earlier).length := Nat.lt_succ_of_le low
  exact ((keeps.run requests).entryAt?_eq inside).trans (keeps.entryAt?_eq inside).symm

end Finality

section Descent

variable [Primitives]

/-- Whether naming parents leads from one identity to another, through some blocks. -/
def LeadsTo : (start : Hash) → List Block → (goal : Hash) → Prop
  | start, [], goal => start = goal
  | start, block :: rest, goal => block.hash = start ∧ LeadsTo block.header.previous rest goal

/-- Whether a way to an identity leaves a chain on its way down: at a block that shares the identity
of one of the chain under another header, or below the genesis block. -/
inductive Strays (chain : Chain) (way : List Block) (goal : Hash) : Prop
  | twin {block : Block} {entry : ChainEntry} (passed : block ∈ way) (held : entry ∈ chain.entries)
      (same : block.hash = entry.block.hash) (differ : block.header ≠ entry.block.header)
  | root (named : chain.genesis.block.header.previous ∈ goal :: way.map Block.hash)

/-- Whether the blocks of a chain are what their identities and parents say, and none of them was
ruled out. -/
structure Rooted (chain : Chain) : Prop where
  named : ∀ entry ∈ chain.entries, entry.hash = entry.block.hash
  linked : chain.entries.IsChain fun entry parent => entry.block.header.previous = parent.hash
  valid : ∀ entry ∈ chain.entries, chain.invalid.contains entry.hash = false

variable {chain : Chain}

theorem Strays.cons {way : List Block} {goal : Hash} (strays : chain.Strays way goal)
    (block : Block) : chain.Strays (block :: way) goal := by
  cases strays with
  | twin passed held same differ =>
    exact .twin (List.mem_cons_of_mem block passed) held same differ
  | root named =>
    refine .root ?_
    rcases List.mem_cons.mp named with here | later
    · exact List.mem_cons.mpr (Or.inl here)
    · exact List.mem_cons_of_mem goal (List.mem_cons_of_mem block.hash later)

/-- A way goes on through a block that has the identity it starts from, or ends there. -/
theorem start_mem_of_leadsTo {start goal : Hash} {way : List Block}
    (leads : LeadsTo start way goal) : start ∈ goal :: way.map Block.hash := by
  cases way with
  | nil => exact List.mem_cons.mpr (Or.inl leads)
  | cons block rest =>
    refine List.mem_cons_of_mem goal (List.mem_cons.mpr (Or.inl ?_))
    exact leads.1.symm

/-- From the blocks of a chain, parents lead to no block that was ruled out. -/
theorem Rooted.strays_of_leadsTo (rooted : chain.Rooted) {goal : Hash}
    (gone : chain.invalid.contains goal = true) {way : List Block} {entry : ChainEntry}
    (held : entry ∈ chain.entries) (leads : LeadsTo entry.hash way goal) :
    chain.Strays way goal := by
  -- As long as the way passes the blocks of the chain, it is at the block below the last one.
  induction way generalizing entry with
  | nil =>
    have valid := rooted.valid entry held
    rw [show entry.hash = goal from leads, gone] at valid
    cases valid
  | cons block rest ih =>
    obtain ⟨same, onward⟩ := leads
    by_cases differ : block.header = entry.block.header
    · rw [differ] at onward
      obtain ⟨later, earlier, split⟩ := List.append_of_mem held
      cases earlier with
      | nil =>
        have lowest : entry = chain.genesis := by
          have last := congrArg List.getLast? split
          rw [entries, List.getLast?_concat, List.getLast?_concat] at last
          exact (Option.some.inj last).symm
        rw [lowest] at onward
        exact (Strays.root (start_mem_of_leadsTo onward)).cons block
      | cons parent below =>
        have linked := rooted.linked
        rw [split, List.isChain_append_cons_cons] at linked
        rw [linked.2.1] at onward
        refine (ih ?_ onward).cons block
        rw [split]
        simp
    · refine .twin List.mem_cons_self held ?_ differ
      rw [same, rooted.named entry held]

/-- What was ruled out stays ruled out. -/
theorem invalid_run {hash : Hash} (gone : chain.invalid.contains hash = true)
    (requests : List ChainRequest) : (chain.run requests).invalid.contains hash = true := by
  refine run_induction chain (P := fun reached => reached.invalid.contains hash = true) gone ?_ ?_
    requests
  · intro _ _ _ noted _
    exact noted
  · intro longer _ noted move
    cases move with
    | disconnect => exact noted
    | invalidate =>
      change (longer.invalid.insert _).contains hash = true
      rw [Std.ExtTreeSet.contains_insert, noted, Bool.or_true]
    | finalize done =>
      obtain ⟨_, _, rfl⟩ := finalize_eq_ok_iff.mp done
      exact noted
    | setStakingWinner => exact noted

/-- After every run the blocks of a chain are what their identities and parents say. -/
theorem rooted_run (rules : Rules) (requests : List ChainRequest) :
    ((Chain.new rules).run requests).Rooted := by
  obtain ⟨exact, same⟩ := ChainIndex.run_represents (ChainIndex.Exact.new rules)
    (ChainIndex.new_represents rules) requests
  have stored : ∀ entry ∈ ((Chain.new rules).run requests).entries,
      ∃ kept ∈ ((ChainIndex.new rules).run requests).active, kept.toChainEntry = entry := by
    intro entry held
    rw [← List.mem_reverse, ← same.blocks] at held
    exact List.mem_map.mp held
  refine ⟨?_, ?_, ?_⟩
  · intro entry held
    obtain ⟨kept, inside, rfl⟩ := stored entry held
    exact exact.named kept inside
  · rw [← List.reverse_reverse (entries _), List.isChain_reverse, ← same.blocks, List.isChain_map,
      List.isChain_iff_forall_rel_of_append_cons_cons]
    intro parent entry below above split
    have follows := exact.follows (below ++ [parent]) entry above
      (by rw [split, List.append_assoc, List.singleton_append]) (by simp)
    have linked := follows.linked
    rw [List.getLast?_concat] at linked
    exact (Option.some.inj linked).symm
  · intro entry held
    obtain ⟨kept, inside, rfl⟩ := stored entry held
    rw [← same.invalid]
    exact exact.valid kept inside

/-- What was ruled out is not part of the chain again, and from no block of the chain parents lead
there. -/
theorem strays_of_invalidate {rules : Rules} {earlier : List ChainRequest} {hash : Hash}
    {update : ChainUpdate} (done : ((Chain.new rules).run earlier).invalidate hash = .ok update)
    (later : List ChainRequest) :
    ∀ entry ∈ ((Chain.new rules).run (earlier ++ .invalidate hash :: later)).entries,
      entry.hash ≠ hash ∧ ∀ way, LeadsTo entry.hash way hash →
        ((Chain.new rules).run (earlier ++ .invalidate hash :: later)).Strays way hash := by
  have rooted := rooted_run rules (earlier ++ .invalidate hash :: later)
  have gone : ((Chain.new rules).run (earlier ++ .invalidate hash :: later)).invalid.contains hash =
      true := by
    obtain ⟨upper, entry, below, split, rfl, _, rfl⟩ := invalidate_eq_ok done
    have changed : ((Chain.new rules).run earlier).update? (.invalidate entry.hash) = some _ :=
      Outcome.toOption_eq_some_iff.mpr done
    rw [run_of_update? changed]
    exact invalid_run (invalidateLatest_of_split split).2.1 later
  intro entry held
  refine ⟨?_, fun way leads => rooted.strays_of_leadsTo gone held leads⟩
  rintro rfl
  rw [rooted.valid entry held] at gone
  cases gone

/-- Once a block is finalized, all later chains have it at its height, and below it the blocks that
it stands on. Once a block is ruled out, no later chain has it, nor a block from which parents lead
to it: a way there would pass a block with the identity of one of the chain and another header, or
one that the genesis block names its parent. -/
theorem permanent_run (rules : Rules) (earlier later : List ChainRequest) (hash : Hash)
    (update : ChainUpdate) :
    (((Chain.new rules).run earlier).finalize hash = .ok update →
      ∃ height, ((Chain.new rules).run earlier).heightOf? hash = some height ∧ ∀ lower ≤ height,
        ((Chain.new rules).run (earlier ++ .finalize hash :: later)).entryAt? lower =
          ((Chain.new rules).run earlier).entryAt? lower) ∧
    (((Chain.new rules).run earlier).invalidate hash = .ok update →
      ∀ entry ∈ ((Chain.new rules).run (earlier ++ .invalidate hash :: later)).entries,
        entry.hash ≠ hash ∧ ∀ way, LeadsTo entry.hash way hash →
          ((Chain.new rules).run (earlier ++ .invalidate hash :: later)).Strays way hash) := by
  refine ⟨fun done => ?_, fun done => strays_of_invalidate done later⟩
  obtain ⟨height, known, kept⟩ := entryAt?_of_finalize done
  have changed : ((Chain.new rules).run earlier).update? (.finalize hash) = some update :=
    Outcome.toOption_eq_some_iff.mpr done
  refine ⟨height, known, fun lower low => ?_⟩
  rw [run_of_update? changed]
  exact kept later lower low

end Descent

end Chain

namespace Chain.Lasting

open Twins

local instance : Primitives := Primitives.transparent

/-- The two blocks make a chain. -/
def pair : Chain :=
  (Chain.new Twins.rules).run [.connect first, .connect second]

theorem pair_eq : ∃ connected, pair = single.grow second connected := by
  obtain ⟨connected, fits⟩ := second_fits
  exact ⟨connected, after_connect fits⟩

theorem locate_first : pair.locate first.hash = .ok ⟨first.hash, 1, first.header.time⟩ := by
  obtain ⟨connected, same⟩ := pair_eq
  have apart : first.hash ≠ second.hash := by decide +kernel
  have there : (single.heightOf? first.hash).bind single.infoAt?
      = some ⟨first.hash, 1, first.header.time⟩ := by decide +kernel
  rw [same, locate_grow_of_ne apart]
  exact locate_eq_ok_iff.mpr there

/-- A chain on which the way over the second block strays does not hold this block. -/
theorem header_ne_of_strays {requests : List ChainRequest} {entry : ChainEntry}
    (held : entry ∈ ((Chain.new Twins.rules).run requests).entries)
    (strays : LeadsTo entry.hash [second] first.hash →
      ((Chain.new Twins.rules).run requests).Strays [second] first.hash) :
    entry.block.header ≠ second.header := by
  intro again
  have rooted := rooted_run Twins.rules requests
  have own : second.hash = entry.hash := by
    rw [rooted.named entry held, Block.hash, Block.hash, again]
  cases strays ⟨own, rfl⟩ with
  | @twin block other passed held' same differ =>
    obtain rfl := List.mem_singleton.mp passed
    -- No other block of the chain has the identity of the second one.
    have distinct := nodup_hashes_run Twins.rules requests
    obtain rfl : entry = other := by
      refine List.inj_on_of_nodup_map distinct held held' ?_
      rw [rooted.named other held', ← same, own]
    exact differ again.symm
  | root named =>
    rw [genesis_run] at named
    exact absurd named (by decide +kernel)

/-- The first of two blocks can be made permanent, and then it is there for good; or it can be
ruled out, and then neither comes back. -/
theorem permanent_pair :
    (∃ update, pair.finalize first.hash = .ok update ∧ ∀ later,
      ((Chain.new Twins.rules).run
        ([.connect first, .connect second] ++ .finalize first.hash :: later)).entryAt? 1 =
          pair.entryAt? 1) ∧
    ∃ update, pair.invalidate first.hash = .ok update ∧ ∀ later, ∀ entry ∈
      ((Chain.new Twins.rules).run
        ([.connect first, .connect second] ++ .invalidate first.hash :: later)).entries,
          entry.hash ≠ first.hash ∧ entry.block.header ≠ second.header := by
  constructor
  · have done : pair.finalize first.hash = .ok _ :=
      finalize_eq_ok_iff.mpr ⟨_, locate_first, rfl⟩
    refine ⟨_, done, fun later => ?_⟩
    obtain ⟨height, known, kept⟩ :=
      (permanent_run Twins.rules [.connect first, .connect second] later first.hash _).1 done
    obtain ⟨_, _, _, _, _, placed, told⟩ := split_of_locate locate_first
    have one := congrArg BlockInfo.height told
    obtain rfl : 1 = height := one.trans (Option.some.inj (placed.symm.trans known))
    exact kept 1 le_rfl
  · have removable : pair.checkRemovable 1 = .ok () := by
      obtain ⟨connected, same⟩ := pair_eq
      have free : single.finalized = none := by decide +kernel
      rw [same]
      refine checkRemovable_eq_ok_iff.mpr ⟨by decide, fun _ noted => ?_⟩
      rw [grow, free] at noted
      cases noted
    have done : pair.invalidate first.hash = .ok _ :=
      Outcome.bind_eq_ok_iff.mpr ⟨_, locate_first, Outcome.bind_eq_ok_iff.mpr ⟨(), removable, rfl⟩⟩
    refine ⟨_, done, fun later entry held => ?_⟩
    obtain ⟨other, strays⟩ :=
      (permanent_run Twins.rules [.connect first, .connect second] later first.hash _).2 done entry
        held
    exact ⟨other, header_ne_of_strays held (strays [second])⟩

end Chain.Lasting

end ScryptLedger
