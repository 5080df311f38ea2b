import ScryptLedger.Chain.Event

/-!
# Listeners

Every listener receives every event from the moment it subscribed, in order,
and keeps it until it looks. A listener that went away is only noticed at the
next event, and counts until then.
-/

namespace ScryptLedger

/-- What one listener has received and not yet looked at. -/
structure Listener where
  id : Nat
  inbox : List ChainEvent
  isGone : Bool
deriving DecidableEq, Repr

/-- The listeners of a chain, in the order in which they subscribed. -/
structure Publisher where
  listeners : List Listener
  /-- The number of the next listener. -/
  nextId : Nat
deriving DecidableEq, Repr

namespace Publisher

def empty : Publisher := ⟨[], 0⟩

/-- A new listener's number, and the publisher that knows it. -/
def subscribe (publisher : Publisher) : Nat × Publisher :=
  (publisher.nextId,
    ⟨publisher.listeners ++ [⟨publisher.nextId, [], false⟩], publisher.nextId + 1⟩)

def leave (publisher : Publisher) (id : Nat) : Publisher :=
  { publisher with
    listeners := publisher.listeners.map fun listener =>
      if listener.id = id then { listener with isGone := true } else listener }

/-- Delivers an event, and forgets the listeners that are gone. -/
def publish (publisher : Publisher) (event : ChainEvent) : Publisher :=
  { publisher with
    listeners := (publisher.listeners.filter (!·.isGone)).map fun listener =>
      { listener with inbox := listener.inbox ++ [event] } }

def publishAll (publisher : Publisher) (events : List ChainEvent) : Publisher :=
  events.foldl publish publisher

/-- What a listener has received since it last looked, and the publisher after that look. -/
def collect (publisher : Publisher) (id : Nat) : List ChainEvent × Publisher :=
  ((publisher.listeners.filter (·.id == id)).flatMap Listener.inbox,
    { publisher with
      listeners := publisher.listeners.map fun listener =>
        if listener.id = id then { listener with inbox := [] } else listener })

def count (publisher : Publisher) : Nat :=
  publisher.listeners.length

end Publisher

end ScryptLedger
