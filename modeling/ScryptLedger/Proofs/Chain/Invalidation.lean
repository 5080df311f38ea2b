import ScryptLedger.Proofs.Chain.Lookup

/-!
# What ruling a block out takes along

A block that is ruled out leaves the chain together with the blocks above it.
All of them are ruled out with it, and each is announced as it leaves, from the
tip down; only the last announcement says that a block was ruled out.
-/

namespace ScryptLedger.Chain

variable {chain : Chain} {hash : Hash}

/-- What is told about blocks that leave only because of what they build on, latest first. The
lowest of them stands on so many blocks above the genesis block. -/
def departures (low : Nat) : List ChainEntry → List ChainEvent
  | [] => []
  | entry :: rest =>
    .disconnected (RemovedBlock.of entry.block (low + rest.length + 1) entry.hash) ::
      departures low rest

variable [Primitives]

/-- What is left, what is ruled out and what is told when the latest blocks are ruled out. -/
theorem invalidateLatest_of_split {later below : List ChainEntry} {entry : ChainEntry}
    (split : chain.above = later ++ entry :: below) :
    (invalidateLatest chain (later.length + 1)).chain.above = below ∧
    (invalidateLatest chain (later.length + 1)).chain.invalid.contains entry.hash = true ∧
    (invalidateLatest chain (later.length + 1)).events =
      departures (below.length + 1) later ++
        [.invalidated (RemovedBlock.of entry.block (below.length + 1) entry.hash)] := by
  -- The blocks come off from the tip down, so that the induction is on those above the lowest.
  induction later generalizing chain with
  | nil =>
    have top : chain.above = entry :: below := split
    have height : chain.height = below.length + 1 := congrArg List.length top
    simp only [List.length_nil, invalidateLatest, pop?, top, height, true_and]
    exact ⟨Std.ExtTreeSet.contains_insert_self, rfl⟩
  | cons tip rest ih =>
    have top : chain.above = tip :: (rest ++ entry :: below) := split
    have height : chain.height = below.length + 1 + rest.length + 1 := by
      rw [Chain.height, top, List.length_cons, List.length_append, List.length_cons]
      omega
    obtain ⟨left, gone, told⟩ :=
      @ih ((chain.shrink tip (rest ++ entry :: below)).ruleOut tip.hash) rfl
    simp only [List.length_cons, invalidateLatest, pop?, top, height]
    refine ⟨left, gone, ?_⟩
    rw [if_neg (Nat.succ_ne_zero rest.length), departures, List.cons_append]
    exact congrArg _ told

/-- A block that is ruled out is one of the chain that may leave it, and the blocks above it leave
with it. -/
theorem invalidate_eq_ok {update : ChainUpdate} (done : chain.invalidate hash = .ok update) :
    ∃ later entry below, chain.above = later ++ entry :: below ∧ entry.hash = hash ∧
      chain.checkRemovable (below.length + 1) = .ok () ∧
      update = invalidateLatest chain (later.length + 1) := by
  simp only [invalidate, Outcome.bind_eq_ok_iff, Outcome.pure_eq_ok_iff] at done
  obtain ⟨info, found, ⟨⟩, removable, rfl⟩ := done
  obtain ⟨later, entry, earlier, split, named, -, rfl⟩ := split_of_locate found
  obtain ⟨positive, _⟩ := checkRemovable_eq_ok_iff.mp removable
  obtain ⟨below, above, length⟩ := above_eq_of_split split positive
  have count : chain.height + 1 - earlier.length = later.length + 1 := by
    rw [height, above, List.length_append, List.length_cons]
    omega
  refine ⟨later, entry, below, above, named, ?_, ?_⟩
  · rwa [length] at removable
  · rw [count]

theorem locate_tip (block : Block) (connected : Connected) :
    (chain.grow block connected).locate block.hash = .ok (chain.grow block connected).tip := by
  have split : (chain.grow block connected).entries
      = [] ++ ⟨block.hash, block, connected.undo⟩ :: chain.entries := rfl
  have first : (chain.grow block connected).heightOf? block.hash = some (chain.height + 1) := by
    rw [heightOf?, split, List.nil_append, List.findIdx?_cons, if_pos (beq_self_eq_true _)]
    rfl
  have there := entryAt?_of_split split
  rw [chain.length_entries] at there
  refine locate_eq_ok_iff.mpr ?_
  rw [first, Option.bind_some, infoAt?, there]
  rfl

/-- Ruling the tip out leads back to the chain before it, where the tip overwrote no coin. -/
theorem invalidate_tip {block : Block} {connected : Connected}
    (fits : chain.Extends block connected) (spares : block.Spares chain.coins)
    (unfinalized : chain.finalized = none) :
    ∃ events, (chain.grow block connected).invalidate block.hash =
      .ok ⟨chain.ruleOut block.hash, events⟩ := by
  have restored : block.unapply connected.coins connected.undo = chain.coins := by
    rw [Block.coins_of_connect fits.accepted, Block.undo_of_connect fits.accepted]
    exact (block.unapply_apply_eq_iff chain.coins (chain.height + 1)).mpr spares
  have removable : (chain.grow block connected).checkRemovable (chain.height + 1) = .ok () := by
    refine checkRemovable_eq_ok_iff.mpr ⟨Nat.succ_ne_zero _, fun finalized noted => ?_⟩
    have none : (chain.grow block connected).finalized = none := unfinalized
    rw [none] at noted
    cases noted
  have latest : (invalidateLatest (chain.grow block connected) 1).chain
      = chain.ruleOut block.hash := by
    change (({ chain with coins := block.unapply connected.coins connected.undo } : Chain).ruleOut
      block.hash) = _
    rw [restored]
  refine ⟨(invalidateLatest (chain.grow block connected) 1).events, ?_⟩
  rw [invalidate, locate_tip]
  refine Outcome.bind_eq_ok_iff.mpr ⟨_, rfl, Outcome.bind_eq_ok_iff.mpr ⟨(), removable, ?_⟩⟩
  have one : (chain.grow block connected).height + 1
      - (chain.grow block connected).tip.height = 1 := Nat.add_sub_cancel_left _ _
  rw [one, ← latest]
  rfl

end ScryptLedger.Chain
