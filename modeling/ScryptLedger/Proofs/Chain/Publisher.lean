import ScryptLedger.Chain.Publisher

/-!
# What reaches a listener

Every listener has a number of its own. As long as it does not leave, each event
is put behind those that it has not looked at yet, and a look takes them all;
what other listeners do makes no difference to it.
-/

namespace ScryptLedger.Publisher

/-- Whether every listener has a number that was given out. -/
def Numbered (publisher : Publisher) : Prop :=
  ∀ listener ∈ publisher.listeners, listener.id < publisher.nextId

/-- Whether one listener has a number, is still there, and has not looked at some events. -/
structure Awaits (publisher : Publisher) (id : Nat) (inbox : List ChainEvent) : Prop where
  alone : publisher.listeners.filter (·.id == id) = [⟨id, inbox, false⟩]
  given : id < publisher.nextId

variable {publisher : Publisher} {id : Nat} {inbox : List ChainEvent}

theorem listeners_subscribe :
    publisher.subscribe.2.listeners = publisher.listeners ++ [⟨publisher.nextId, [], false⟩] := rfl

theorem filter_map_of_same {change : Listener → Listener}
    (same : ∀ listener, (change listener).id = listener.id) (listeners : List Listener) :
    (listeners.map change).filter (·.id == id) = (listeners.filter (·.id == id)).map change := by
  rw [List.filter_map]
  refine congrArg (List.map change) (List.filter_congr ?_)
  intro listener _
  rw [Function.comp_apply, same]

namespace Numbered

theorem empty : Publisher.empty.Numbered := by
  intro listener held
  cases held

theorem map (numbered : publisher.Numbered) {change : Listener → Listener}
    (same : ∀ listener, (change listener).id = listener.id) :
    Numbered { publisher with listeners := publisher.listeners.map change } := by
  intro listener held
  obtain ⟨before, there, rfl⟩ := List.mem_map.mp held
  rw [same]
  exact numbered before there

theorem subscribe (numbered : publisher.Numbered) : publisher.subscribe.2.Numbered := by
  intro listener held
  rcases List.mem_append.mp held with old | new
  · exact Nat.lt_succ_of_lt (numbered listener old)
  · rw [List.mem_singleton.mp new]
    exact Nat.lt_succ_self _

theorem leave (numbered : publisher.Numbered) (gone : Nat) : (publisher.leave gone).Numbered := by
  refine numbered.map fun listener => ?_
  split <;> rfl

theorem collect (numbered : publisher.Numbered) (other : Nat) :
    (publisher.collect other).2.Numbered := by
  refine numbered.map fun listener => ?_
  split <;> rfl

theorem publish (numbered : publisher.Numbered) (event : ChainEvent) :
    (publisher.publish event).Numbered := by
  intro listener held
  obtain ⟨before, there, rfl⟩ := List.mem_map.mp held
  exact numbered before (List.mem_filter.mp there).1

theorem publishAll (numbered : publisher.Numbered) (events : List ChainEvent) :
    (publisher.publishAll events).Numbered := by
  induction events generalizing publisher with
  | nil => exact numbered
  | cons event rest ih => exact ih (numbered.publish event)

end Numbered

/-- A new listener has nothing to look at yet. -/
theorem Numbered.awaits_subscribe (numbered : publisher.Numbered) :
    publisher.subscribe.2.Awaits publisher.subscribe.1 [] := by
  refine ⟨?_, Nat.lt_succ_self _⟩
  have others : publisher.listeners.filter (·.id == publisher.nextId) = [] := by
    refine List.filter_eq_nil_iff.mpr fun listener held same => ?_
    have := numbered listener held
    have := eq_of_beq same
    omega
  change List.filter (fun listener : Listener => listener.id == publisher.nextId) _ = _
  rw [listeners_subscribe, List.filter_append, others]
  simp [Publisher.subscribe]

namespace Awaits

theorem fst_collect (awaits : publisher.Awaits id inbox) : (publisher.collect id).1 = inbox := by
  change (publisher.listeners.filter (·.id == id)).flatMap Listener.inbox = inbox
  rw [awaits.alone]
  exact List.append_nil inbox

theorem subscribe (awaits : publisher.Awaits id inbox) : publisher.subscribe.2.Awaits id inbox := by
  refine ⟨?_, Nat.lt_succ_of_lt awaits.given⟩
  have other : ¬ publisher.nextId = id := Nat.ne_of_gt awaits.given
  rw [listeners_subscribe, List.filter_append, awaits.alone]
  simp [other]

theorem map (awaits : publisher.Awaits id inbox) {change : Listener → Listener}
    {later : List ChainEvent} (same : ∀ listener, (change listener).id = listener.id)
    (own : change ⟨id, inbox, false⟩ = ⟨id, later, false⟩) :
    Awaits { publisher with listeners := publisher.listeners.map change } id later := by
  refine ⟨?_, awaits.given⟩
  change (publisher.listeners.map change).filter (·.id == id) = _
  rw [filter_map_of_same same, awaits.alone, List.map_singleton, own]

theorem leave (awaits : publisher.Awaits id inbox) {other : Nat} (differs : other ≠ id) :
    (publisher.leave other).Awaits id inbox := by
  refine awaits.map (fun listener => ?_) (if_neg differs.symm)
  split <;> rfl

theorem collect_self (awaits : publisher.Awaits id inbox) :
    (publisher.collect id).2.Awaits id [] := by
  refine awaits.map (fun listener => ?_) (if_pos rfl)
  split <;> rfl

theorem collect_other (awaits : publisher.Awaits id inbox) {other : Nat} (differs : other ≠ id) :
    (publisher.collect other).2.Awaits id inbox := by
  refine awaits.map (fun listener => ?_) (if_neg differs.symm)
  split <;> rfl

theorem publish (awaits : publisher.Awaits id inbox) (event : ChainEvent) :
    (publisher.publish event).Awaits id (inbox ++ [event]) := by
  refine ⟨?_, awaits.given⟩
  have same (listener : Listener) :
      ({ listener with inbox := listener.inbox ++ [event] } : Listener).id = listener.id := rfl
  have staying : (publisher.listeners.filter (!·.isGone)).filter (·.id == id) =
      (publisher.listeners.filter (·.id == id)).filter (!·.isGone) := by
    simp only [List.filter_filter, Bool.and_comm]
  rw [Publisher.publish, filter_map_of_same same, staying, awaits.alone]
  rfl

theorem publishAll (awaits : publisher.Awaits id inbox) (events : List ChainEvent) :
    (publisher.publishAll events).Awaits id (inbox ++ events) := by
  induction events generalizing publisher inbox with
  | nil =>
    rw [List.append_nil]
    exact awaits
  | cons event rest ih =>
    have delivered := ih (awaits.publish event)
    rwa [List.append_assoc, List.singleton_append] at delivered

end Awaits

end ScryptLedger.Publisher
