import ScryptLedger.Node
import ScryptLedger.Proofs.Chain.Announcement
import ScryptLedger.Proofs.Chain.Publisher
import ScryptLedger.Proofs.Chain.Replay

/-!
# What a listener hears

What a node tells about its chain waits for a listener until it looks. A
listener that knows the identities of the chain when it subscribes, and repeats
on them what it hears, knows those of the chain at each of its looks; the looks
may come at any time, and other listeners may come and go meanwhile.
-/

namespace ScryptLedger

/-- What can happen to a node as far as its listeners are concerned. -/
inductive Happening where
  | request (request : ChainRequest)
  | subscribe
  | leave (id : Nat)
  | look (id : Nat)
deriving DecidableEq

namespace Node

variable [Primitives]

section Hearing

/-- A node with the genesis block, before anyone listens. -/
def start (rules : Rules) : Node :=
  ⟨Chain.new rules, Publisher.empty, Mempool.empty⟩

variable (node : Node)

/-- The node after something happened. The listeners are told of what a request changes. -/
def observe : Happening → Node
  | .request request => ((node.chain.update? request).map node.follow).getD node
  | .subscribe => { node with publisher := node.publisher.subscribe.2 }
  | .leave id => { node with publisher := node.publisher.leave id }
  | .look id => { node with publisher := (node.publisher.collect id).2 }

/-- The node after some things happened, one after the other. -/
def observeAll (happenings : List Happening) : Node :=
  happenings.foldl observe node

theorem observeAll_append (earlier later : List Happening) :
    node.observeAll (earlier ++ later) = (node.observeAll earlier).observeAll later :=
  List.foldl_append

omit [Primitives] in
/-- What a listener sees when it looks. -/
def inbox (id : Nat) : List ChainEvent :=
  (node.publisher.collect id).1

end Hearing

/-- What a listener sees in all of its looks together, the last of which comes in the end. -/
def heard (id : Nat) (node : Node) : List Happening → List ChainEvent
  | [] => node.inbox id
  | happening :: rest =>
    (if happening = .look id then node.inbox id else []) ++ heard id (node.observe happening) rest

variable {node : Node} {id : Nat} {known : List Hash}

theorem observe_of_refused {request : ChainRequest} (refused : node.chain.update? request = none) :
    node.observe (.request request) = node := by
  rw [observe, refused, Option.map_none, Option.getD_none]

theorem observe_of_update? {request : ChainRequest} {update : ChainUpdate}
    (done : node.chain.update? request = some update) :
    node.observe (.request request) = node.follow update := by
  rw [observe, done, Option.map_some, Option.getD_some]

theorem numbered_observe (numbered : node.publisher.Numbered) (happening : Happening) :
    (node.observe happening).publisher.Numbered := by
  cases happening with
  | request request =>
    cases done : node.chain.update? request with
    | none =>
      rw [observe_of_refused done]
      exact numbered
    | some update =>
      rw [observe_of_update? done]
      exact numbered.publishAll update.events
  | subscribe => exact numbered.subscribe
  | leave gone => exact numbered.leave gone
  | look other => exact numbered.collect other

theorem numbered_observeAll (numbered : node.publisher.Numbered) (happenings : List Happening) :
    (node.observeAll happenings).publisher.Numbered := by
  induction happenings generalizing node with
  | nil => exact numbered
  | cons happening rest ih => exact ih (numbered_observe numbered happening)

/-- Whether a listener that knows some identities knows those of the chain after its next look. -/
def Informs (node : Node) (id : Nat) (known : List Hash) : Prop :=
  node.publisher.Awaits id (node.inbox id) ∧
    ChainEvent.replay known (node.inbox id) = some node.chain.hashes

omit [Primitives] in
theorem informs_of_awaits {events : List ChainEvent} (awaits : node.publisher.Awaits id events)
    (leads : ChainEvent.replay known events = some node.chain.hashes) :
    node.Informs id known := by
  rw [Informs, inbox, awaits.fst_collect]
  exact ⟨awaits, leads⟩

/-- What is told about a change comes after what waits already. -/
theorem Informs.request (informs : node.Informs id known) (request : ChainRequest) :
    (node.observe (.request request)).Informs id known := by
  obtain ⟨awaits, leads⟩ := informs
  cases done : node.chain.update? request with
  | none =>
    rw [observe_of_refused done]
    exact ⟨awaits, leads⟩
  | some update =>
    rw [observe_of_update? done]
    refine informs_of_awaits (awaits.publishAll update.events) ?_
    rw [ChainEvent.replay_append, leads, Option.bind_some]
    exact Chain.replay_events done

/-- Nothing is lost while the listener itself neither leaves nor looks. -/
theorem Informs.observe (informs : node.Informs id known) {happening : Happening}
    (stays : happening ≠ .leave id) (waits : happening ≠ .look id) :
    (node.observe happening).Informs id known := by
  cases happening with
  | request request => exact informs.request request
  | subscribe => exact informs_of_awaits informs.1.subscribe informs.2
  | leave gone =>
    have differs : gone ≠ id := fun same => stays (congrArg Happening.leave same)
    exact informs_of_awaits (informs.1.leave differs) informs.2
  | look other =>
    have differs : other ≠ id := fun same => waits (congrArg Happening.look same)
    exact informs_of_awaits (informs.1.collect_other differs) informs.2

/-- After a look the listener knows the identities of the chain, and nothing waits. -/
theorem Informs.look (informs : node.Informs id known) :
    (node.observe (.look id)).Informs id node.chain.hashes :=
  informs_of_awaits informs.1.collect_self rfl

/-- A listener that knows some identities hears what leads from them to those of the last chain. -/
theorem Informs.replay_heard (informs : node.Informs id known) {happenings : List Happening}
    (stays : .leave id ∉ happenings) :
    ChainEvent.replay known (heard id node happenings) =
      some (node.observeAll happenings).chain.hashes := by
  -- A look takes what waits and leaves the listener with the identities of the chain at that time.
  induction happenings generalizing node known with
  | nil => exact informs.2
  | cons happening rest ih =>
    obtain ⟨goes, later⟩ := List.ne_and_not_mem_of_not_mem_cons stays
    rw [heard, ChainEvent.replay_append]
    by_cases looks : happening = .look id
    · subst looks
      rw [if_pos rfl, informs.2, Option.bind_some]
      exact ih informs.look later
    · rw [if_neg looks, ChainEvent.replay_nil, Option.bind_some]
      exact ih (informs.observe goes.symm looks) later

/-- Whatever happened to a node before and happens after, what a new listener hears can be repeated
event by event on the identities of the chain that it joins, and leads to those of the last chain.
A refused request changes nothing and tells nothing, and ruling a block out tells of the blocks
above it first, from the tip down, and of the block itself in the end. -/
theorem listener_replays (rules : Rules) (before after : List Happening) {joined : Node}
    (reached : (start rules).observeAll before = joined)
    (stays : .leave joined.publisher.subscribe.1 ∉ after) :
    ChainEvent.replay joined.chain.hashes
        (heard joined.publisher.subscribe.1 (joined.observe .subscribe) after) =
      some ((start rules).observeAll (before ++ .subscribe :: after)).chain.hashes ∧
    (∀ request, joined.chain.update? request = none →
      joined.observe (.request request) = joined) ∧
    ∀ hash update, joined.chain.invalidate hash = .ok update →
      ∃ later entry below, joined.chain.above = later ++ entry :: below ∧ entry.hash = hash ∧
        update.chain.above = below ∧
        joined.observe (.request (.invalidate hash)) = joined.follow ⟨update.chain,
          Chain.departures (below.length + 1) later ++
            [.invalidated (RemovedBlock.of entry.block (below.length + 1) hash)]⟩ := by
  have numbered : joined.publisher.Numbered := by
    rw [← reached]
    exact numbered_observeAll Publisher.Numbered.empty before
  refine ⟨?_, fun request refused => observe_of_refused refused, fun hash update done => ?_⟩
  · have informs : (joined.observe .subscribe).Informs joined.publisher.subscribe.1
        joined.chain.hashes := informs_of_awaits numbered.awaits_subscribe rfl
    rw [informs.replay_heard stays, observeAll_append, reached]
    rfl
  · have changed : joined.chain.update? (.invalidate hash) = some update :=
      Outcome.toOption_eq_some_iff.mpr done
    rw [observe_of_update? changed]
    obtain ⟨later, entry, below, split, rfl, _, rfl⟩ := Chain.invalidate_eq_ok done
    obtain ⟨left, _, told⟩ := Chain.invalidateLatest_of_split split
    refine ⟨later, entry, below, split, rfl, left, ?_⟩
    rw [← told]

end Node

namespace Node.Briefed

open Chain.Twins

local instance : Primitives := Primitives.transparent

/-- A block comes and the listener looks; another listener leaves; then the block is ruled out, and
refused when it is offered again. -/
def after : List Happening :=
  [.request (.connect first), .look 1, .leave 0, .request (.invalidate first.hash),
    .request (.connect first)]

/-- The second of two listeners hears of the block twice. -/
theorem replays_after :
    let joined := (start rules).observeAll [.subscribe]
    joined.publisher.subscribe.1 = 1 ∧ .leave 1 ∉ after ∧
      (heard 1 (joined.observe .subscribe) after).map ChainEvent.kind =
        ["CONNECTED", "INVALIDATED"] ∧
      ChainEvent.replay joined.chain.hashes (heard 1 (joined.observe .subscribe) after) =
        some ((start rules).observeAll ([.subscribe] ++ .subscribe :: after)).chain.hashes := by
  have stays : .leave 1 ∉ after := by decide
  refine ⟨rfl, stays, by decide +kernel, ?_⟩
  exact (listener_replays rules [.subscribe] after rfl stays).1

end Node.Briefed

end ScryptLedger
