import ScryptLedger.Proofs.Chain.Invalidation

/-!
# What is told about a chain

An event says enough about a change to repeat it on a list of identities: a
block is put at the end, or the last one is taken away, at the height that the
event names. What is told about a change of a chain can always be repeated in
this way, and leads from the identities of the chain before to those after.
-/

namespace ScryptLedger

namespace ChainEvent

/-- The identities, in order of height, that someone knows after an event; or nothing, when the
event does not fit what was known. -/
def replayOn (known : List Hash) (event : ChainEvent) : Option (List Hash) :=
  match event with
  | .connected block => if block.height = known.length then some (known ++ [block.hash]) else none
  | .disconnected removed | .invalidated removed =>
    if known.getLast? = some removed.block.hash ∧ known.length = removed.block.height + 1 then
      some known.dropLast
    else none
  | .finalized block => if known[block.height]? = some block.hash then some known else none

/-- The identities that someone knows after some events, each of which has to fit. -/
def replay (known : List Hash) (events : List ChainEvent) : Option (List Hash) :=
  events.foldlM replayOn known

theorem replay_nil (known : List Hash) : replay known [] = some known := rfl

theorem replay_cons (known : List Hash) (event : ChainEvent) (rest : List ChainEvent) :
    replay known (event :: rest) = (replayOn known event).bind (replay · rest) := rfl

theorem replay_append (known : List Hash) (first second : List ChainEvent) :
    replay known (first ++ second) = (replay known first).bind (replay · second) :=
  List.foldlM_append

end ChainEvent

namespace Chain

/-- The identities of some blocks, latest first, in order of height. -/
def hashesOf (entries : List ChainEntry) : List Hash :=
  entries.reverse.map ChainEntry.hash

/-- The identities of the blocks of a chain in order of height. -/
def hashes (chain : Chain) : List Hash :=
  hashesOf chain.entries

theorem hashesOf_cons (entry : ChainEntry) (below : List ChainEntry) :
    hashesOf (entry :: below) = hashesOf below ++ [entry.hash] := by
  rw [hashesOf, List.reverse_cons, List.map_append, List.map_singleton, hashesOf]

theorem length_hashesOf (entries : List ChainEntry) :
    (hashesOf entries).length = entries.length := by
  rw [hashesOf, List.length_map, List.length_reverse]

theorem getElem?_hashes (chain : Chain) (height : Nat) :
    chain.hashes[height]? = (chain.entryAt? height).map ChainEntry.hash :=
  List.getElem?_map

/-- A block that leaves is the last one, at its height. -/
theorem replayOn_removed (entry : ChainEntry) (below : List ChainEntry) :
    ChainEvent.replayOn (hashesOf (entry :: below))
        (.disconnected (RemovedBlock.of entry.block below.length entry.hash)) =
      some (hashesOf below) ∧
    ChainEvent.replayOn (hashesOf (entry :: below))
        (.invalidated (RemovedBlock.of entry.block below.length entry.hash)) =
      some (hashesOf below) := by
  have fits : (hashesOf (entry :: below)).getLast? = some entry.hash ∧
      (hashesOf (entry :: below)).length = below.length + 1 := by
    constructor
    · rw [hashesOf_cons, List.getLast?_concat]
    · rw [length_hashesOf, List.length_cons]
  have left : (hashesOf (entry :: below)).dropLast = hashesOf below := by
    rw [hashesOf_cons, List.dropLast_concat]
  constructor
  · exact (if_pos fits).trans (congrArg some left)
  · exact (if_pos fits).trans (congrArg some left)

/-- What is told about blocks that leave from the tip down leads to the blocks below them. -/
theorem replay_departures {low : Nat} {lower : List ChainEntry} (stands : lower.length = low + 1)
    (later : List ChainEntry) :
    ChainEvent.replay (hashesOf (later ++ lower)) (departures low later) =
      some (hashesOf lower) := by
  induction later with
  | nil => rfl
  | cons tip rest ih =>
    have height : low + rest.length + 1 = (rest ++ lower).length := by
      rw [List.length_append]
      omega
    rw [departures, ChainEvent.replay_cons, height, List.cons_append,
      (replayOn_removed tip (rest ++ lower)).1]
    exact ih

variable [Primitives] {chain : Chain}

/-- What is told about a change leads from the blocks before to the blocks after it. -/
theorem replay_events {request : ChainRequest} {update : ChainUpdate}
    (done : chain.update? request = some update) :
    ChainEvent.replay chain.hashes update.events = some update.chain.hashes := by
  cases request with
  | connect block =>
    obtain ⟨connected, _, rfl⟩ := connect_eq_ok_iff.mp (Outcome.toOption_eq_some_iff.mp done)
    have next : (chain.grow block connected).tip.height = chain.hashes.length := by
      rw [hashes, length_hashesOf, length_entries]
      rfl
    rw [ChainEvent.replay_cons, ChainEvent.replayOn, if_pos next]
    exact congrArg some (hashesOf_cons _ chain.entries).symm
  | disconnectTip =>
    obtain ⟨entry, below, top, _, rfl⟩ :=
      disconnectTip_eq_ok_iff.mp (Outcome.toOption_eq_some_iff.mp done)
    have split : chain.entries = entry :: (below ++ [chain.genesis]) := by
      rw [entries, top, List.cons_append]
    have height : chain.height = (below ++ [chain.genesis]).length := by
      rw [Chain.height, top, List.length_cons, List.length_append, List.length_singleton]
    rw [ChainEvent.replay_cons, hashes, split, height, (replayOn_removed entry _).1]
    rfl
  | invalidate hash =>
    have kept : update.chain.genesis = chain.genesis := by
      rw [← after_of_update? done]
      exact genesis_run chain [.invalidate hash]
    obtain ⟨later, entry, below, split, rfl, _, rfl⟩ :=
      invalidate_eq_ok (Outcome.toOption_eq_some_iff.mp done)
    obtain ⟨left, _, told⟩ := invalidateLatest_of_split split
    have length : (below ++ [chain.genesis]).length = below.length + 1 := by
      rw [List.length_append, List.length_singleton]
    have higher : (entry :: (below ++ [chain.genesis])).length = below.length + 1 + 1 := by
      rw [List.length_cons, length]
    rw [told, hashes, hashes, entries, entries, left, kept, split, List.append_assoc,
      List.cons_append, ChainEvent.replay_append, replay_departures higher, Option.bind_some,
      ChainEvent.replay_cons, ← length, (replayOn_removed entry _).2]
    rfl
  | finalize hash =>
    obtain ⟨info, found, rfl⟩ := finalize_eq_ok_iff.mp (Outcome.toOption_eq_some_iff.mp done)
    obtain ⟨later, entry, earlier, split, rfl, _, rfl⟩ := split_of_locate found
    have there : chain.hashes[earlier.length]? = some entry.hash := by
      rw [getElem?_hashes, entryAt?_of_split split, Option.map_some]
    rw [ChainEvent.replay_cons, ChainEvent.replayOn, if_pos there]
    rfl
  | setStakingWinner hash script =>
    cases done
    rfl

end Chain

end ScryptLedger
