/-!
# Checks one after the other

A computation that may refuse succeeds exactly when each of its parts does.
These laws take a sequence of checks apart from the front. Two computations
that differ only in what they refuse are compared part by part.
-/

namespace ScryptLedger.Outcome

universe u v
variable {Cause : Type u} {Value Result : Type v}

@[simp]
theorem bind_eq_ok_iff {first : Except Cause Value} {next : Value → Except Cause Result}
    {result : Result} :
    (first >>= next) = .ok result ↔ ∃ value, first = .ok value ∧ next value = .ok result := by
  constructor
  · intro done
    cases first with
    | error cause => cases done
    | ok value => exact ⟨value, rfl, done⟩
  · rintro ⟨value, rfl, done⟩
    exact done

@[simp]
theorem pure_eq_ok_iff {value result : Value} :
    (pure value : Except Cause Value) = .ok result ↔ value = result :=
  ⟨fun same => Except.ok.inj same, congrArg Except.ok⟩

theorem ok_bind {value : Value} {next : Value → Except Cause Result} :
    (Except.ok value >>= next) = next value := rfl

@[simp]
theorem throw_bind {cause : Cause} {next : Value → Except Cause Result} :
    (throw cause >>= next : Except Cause Result) = throw cause := rfl

@[simp]
theorem throw_ne_ok {cause : Cause} {result : Value} :
    (throw cause : Except Cause Value) ≠ .ok result :=
  fun refused => nomatch refused

/-- What stands behind a refusal succeeds when there is no reason for the refusal. -/
@[simp]
theorem refuse_eq_ok_iff {reason : Prop} [Decidable reason] {cause : Cause}
    {rest : Except Cause Value} {result : Value} :
    (if reason then throw cause else rest) = .ok result ↔ ¬ reason ∧ rest = .ok result := by
  by_cases present : reason
  · rw [if_pos present]
    exact ⟨fun refused => absurd refused throw_ne_ok, fun done => absurd present done.1⟩
  · rw [if_neg present]
    exact ⟨fun done => ⟨present, done⟩, And.right⟩

/-- A sequence is refused by its first part, or by what follows it. -/
theorem bind_eq_error_iff {first : Except Cause Value} {next : Value → Except Cause Result}
    {refusal : Cause} :
    (first >>= next) = .error refusal ↔
      first = .error refusal ∨ ∃ value, first = .ok value ∧ next value = .error refusal := by
  cases first with
  | error cause =>
    constructor
    · intro refused
      exact Or.inl (congrArg Except.error (Except.error.inj refused))
    · rintro (⟨⟨⟩⟩ | ⟨_, ⟨⟩, -⟩)
      rfl
  | ok value =>
    constructor
    · intro refused
      exact Or.inr ⟨value, rfl, refused⟩
    · rintro (⟨⟨⟩⟩ | ⟨_, ⟨⟩, refused⟩)
      exact refused

/-- A refusal with some cause comes from its reason, or from what stands behind it. -/
theorem refuse_eq_error_iff {reason : Prop} [Decidable reason] {cause refusal : Cause}
    {rest : Except Cause Value} :
    (if reason then throw cause else rest) = .error refusal ↔
      reason ∧ cause = refusal ∨ ¬ reason ∧ rest = .error refusal := by
  by_cases present : reason
  · rw [if_pos present]
    constructor
    · intro refused
      exact Or.inl ⟨present, Except.error.inj refused⟩
    · rintro (⟨-, rfl⟩ | ⟨absent, -⟩)
      · rfl
      · exact absurd present absent
  · rw [if_neg present]
    exact ⟨fun refused => Or.inr ⟨present, refused⟩,
      fun causes => (causes.resolve_left fun wrong => present wrong.1).2⟩

/-- A condition that has to hold, and what stands behind it. -/
theorem require_eq_ok_iff {condition : Prop} [Decidable condition] {cause : Cause}
    {rest : Except Cause Value} {result : Value} :
    (if condition then rest else throw cause) = .ok result ↔ condition ∧ rest = .ok result := by
  by_cases holds : condition
  · rw [if_pos holds]
    exact ⟨fun done => ⟨holds, done⟩, And.right⟩
  · rw [if_neg holds]
    exact ⟨fun refused => absurd refused throw_ne_ok, fun done => absurd done.1 holds⟩

theorem toOption_eq_some_iff {outcome : Except Cause Value} {value : Value} :
    outcome.toOption = some value ↔ outcome = .ok value := by
  cases outcome with
  | error cause => exact ⟨fun none => (nomatch none), fun refused => (nomatch refused)⟩
  | ok other => exact ⟨fun some => congrArg Except.ok (Option.some.inj some),
      fun done => congrArg Option.some (Except.ok.inj done)⟩

theorem eq_ok_of_isOk {outcome : Except Cause Value} (succeeds : outcome.isOk = true) :
    ∃ value, outcome = .ok value := by
  cases outcome with
  | error cause => cases succeeds
  | ok value => exact ⟨value, rfl⟩

/-- Whether one computation succeeds wherever a stricter one does, with the same value. -/
def Implies (strict weak : Except Cause Value) : Prop :=
  ∀ ⦃value⦄, strict = .ok value → weak = .ok value

namespace Implies

variable {Cause Value Result : Type u} {strict weak : Except Cause Value}

protected theorem refl (outcome : Except Cause Value) : Implies outcome outcome :=
  fun _ done => done

theorem bind {next next' : Value → Except Cause Result} (first : Implies strict weak)
    (rest : ∀ value, Implies (next value) (next' value)) :
    Implies (strict >>= next) (weak >>= next') := by
  intro result done
  obtain ⟨value, found, done⟩ := bind_eq_ok_iff.mp done
  exact bind_eq_ok_iff.mpr ⟨value, first found, rest value done⟩

/-- A check that refuses no more than a stricter one leaves the comparison to what follows. -/
theorem refuse {reason reason' : Prop} [Decidable reason] [Decidable reason']
    {cause cause' : Cause} (fewer : reason' → reason) (rest : Implies strict weak) :
    Implies (if reason then throw cause else strict) (if reason' then throw cause' else weak) := by
  intro value done
  obtain ⟨absent, done⟩ := refuse_eq_ok_iff.mp done
  exact refuse_eq_ok_iff.mpr ⟨fun present => absent (fewer present), rest done⟩

/-- A check that is made only where it is asked for. -/
theorem asked {asked asked' broken : Bool} {cause cause' : Cause} (fewer : asked' → asked)
    (rest : Implies strict weak) :
    Implies (if asked && broken then throw cause else strict)
      (if asked' && broken then throw cause' else weak) := by
  refine refuse ?_ rest
  simp only [Bool.and_eq_true]
  exact And.imp_left fewer

theorem ite {condition : Prop} [Decidable condition] {strict' weak' : Except Cause Value}
    (then_ : Implies strict weak) (else_ : Implies strict' weak') :
    Implies (if condition then strict else strict') (if condition then weak else weak') := by
  by_cases holds : condition
  · rwa [if_pos holds, if_pos holds]
  · rwa [if_neg holds, if_neg holds]

end Implies

end ScryptLedger.Outcome
