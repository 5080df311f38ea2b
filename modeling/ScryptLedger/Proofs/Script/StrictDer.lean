import Mathlib.Logic.ExistsUnique
import Mathlib.Tactic.Ring
import ScryptLedger.Proofs.Script.Positional.Signature

/-!
# What strict DER is

A strict signature is one sequence of two integers, each behind its tag and its
length, and nothing is left of it. An integer is written most significant byte
first; its first bit is clear, for it is not negative, and no shorter byte string
with a clear first bit writes the same number. The check reads at positions that
the signature itself tells, and still accepts exactly this layout, finds it in
one way only, and reads no byte that is not there.
-/

namespace ScryptLedger.Script

/-! ## Integers -/

/-- Whether the first bit of a byte string is there and clear. -/
def HasClearBit (value : Bytes) : Prop := ∃ first rest, value = first :: rest ∧ first < 0x80

/-- Whether a byte string has a clear first bit and needs its first byte: for the number, or to
keep the first bit of the next byte from being taken for the sign. -/
def IsMinimalInteger (value : Bytes) : Prop :=
  ∃ first rest, value = first :: rest ∧ first < 0x80 ∧
    (first = 0 → rest = [] ∨ ∃ next later, rest = next :: later ∧ 0x80 ≤ next)

theorem isMinimalPositive_iff (value : Bytes) :
    isMinimalPositive value = true ↔ IsMinimalInteger value := by
  match value with
  | [] =>
    refine iff_of_false Bool.false_ne_true ?_
    rintro ⟨first, rest, empty, -⟩
    cases empty
  | [b] =>
    rw [isMinimalPositive, decide_eq_true_eq]
    constructor
    · intro clear
      exact ⟨b, [], rfl, clear, fun _ => Or.inl rfl⟩
    · rintro ⟨first, rest, same, clear, -⟩
      cases same
      exact clear
  | b :: next :: later =>
    rw [isMinimalPositive, Bool.and_eq_true, Bool.or_eq_true, bne_iff_ne, decide_eq_true_eq,
      decide_eq_true_eq]
    constructor
    · rintro ⟨clear, needed⟩
      refine ⟨b, next :: later, rfl, clear, fun zero => Or.inr ⟨next, later, rfl, ?_⟩⟩
      exact needed.resolve_left (not_not.mpr zero)
    · rintro ⟨first, rest, same, clear, needed⟩
      cases same
      refine ⟨clear, ?_⟩
      by_cases zero : b = 0
      · rcases needed zero with none | ⟨_, _, same, high⟩
        · cases none
        · cases same
          exact Or.inr high
      · exact Or.inl zero

theorem foldl_bigEndian (bytes : Bytes) (start : Nat) :
    bytes.foldl (fun value b => 256 * value + b.toNat) start
      = start * 256 ^ bytes.length + ofBigEndian bytes := by
  induction bytes generalizing start with
  | nil => simp [ofBigEndian]
  | cons b rest ih =>
    have here : ofBigEndian (b :: rest) = (256 * 0 + b.toNat) * 256 ^ rest.length
        + ofBigEndian rest := ih _
    rw [List.foldl_cons, ih, here, List.length_cons, Nat.pow_succ]
    ring

theorem ofBigEndian_cons (first : UInt8) (rest : Bytes) :
    ofBigEndian (first :: rest) = first.toNat * 256 ^ rest.length + ofBigEndian rest := by
  have whole := foldl_bigEndian rest (256 * 0 + first.toNat)
  rw [ofBigEndian, List.foldl_cons, whole, Nat.mul_zero, Nat.zero_add]

theorem ofBigEndian_lt (bytes : Bytes) : ofBigEndian bytes < 256 ^ bytes.length := by
  induction bytes with
  | nil => decide
  | cons first rest ih =>
    have byte : first.toNat ≤ 255 := Nat.le_of_lt_succ first.toNat_lt
    have places := Nat.mul_le_mul_right (256 ^ rest.length) byte
    rw [ofBigEndian_cons, List.length_cons, Nat.pow_succ]
    omega

/-- With a clear first bit, half of what the bytes have room for is not reached. -/
theorem HasClearBit.lt {value : Bytes} (clear : HasClearBit value) :
    2 * ofBigEndian value < 256 ^ value.length := by
  obtain ⟨first, rest, rfl, low⟩ := clear
  have byte : first.toNat ≤ 127 := Nat.le_of_lt_succ (UInt8.lt_iff_toNat_lt.mp low)
  have places := Nat.mul_le_mul_right (256 ^ rest.length) byte
  have below := ofBigEndian_lt rest
  rw [ofBigEndian_cons, List.length_cons, Nat.pow_succ]
  omega

/-- A byte that is needed stands for half of what the others have room for. -/
theorem le_of_needed {first : UInt8} {rest : Bytes} (several : rest ≠ [])
    (needed : first = 0 → rest = [] ∨ ∃ next later, rest = next :: later ∧ 0x80 ≤ next) :
    256 ^ rest.length ≤ 2 * ofBigEndian (first :: rest) := by
  rw [ofBigEndian_cons]
  by_cases zero : first = 0
  · obtain ⟨next, later, rfl, high⟩ := (needed zero).resolve_left several
    have byte : 128 ≤ next.toNat := UInt8.le_iff_toNat_le.mp high
    have places := Nat.mul_le_mul_right (256 ^ later.length) byte
    rw [ofBigEndian_cons, List.length_cons, Nat.pow_succ]
    omega
  · have byte : first.toNat ≠ 0 := fun none => zero (UInt8.toNat_inj.mp none)
    have places := Nat.mul_le_mul_right (256 ^ rest.length) (Nat.one_le_iff_ne_zero.mpr byte)
    omega

/-- The minimal integers are the shortest byte strings of their numbers with a clear first bit. -/
theorem isMinimalInteger_iff_shortest (value : Bytes) :
    IsMinimalInteger value ↔ HasClearBit value ∧
      ∀ other, HasClearBit other → ofBigEndian other = ofBigEndian value →
        value.length ≤ other.length := by
  constructor
  · rintro ⟨first, rest, rfl, clear, needed⟩
    refine ⟨⟨first, rest, rfl, clear⟩, ?_⟩
    intro other clear' same
    by_cases several : rest = []
    · obtain ⟨first', rest', rfl, -⟩ := clear'
      simp [several]
    · have least := le_of_needed several needed
      have most := clear'.lt
      rw [same] at most
      have fewer := (Nat.pow_lt_pow_iff_right (by decide)).mp (least.trans_lt most)
      exact fewer
  · rintro ⟨⟨first, rest, rfl, clear⟩, shortest⟩
    refine ⟨first, rest, rfl, clear, ?_⟩
    intro zero
    rcases rest with _ | ⟨next, later⟩
    · exact Or.inl rfl
    refine Or.inr ⟨next, later, rfl, ?_⟩
    -- a zero in front of a clear bit could be left out
    by_contra low
    have shorter := shortest (next :: later) ⟨next, later, rfl, UInt8.not_le.mp low⟩ (by
      rw [ofBigEndian_cons first, zero]
      simp)
    simp at shorter

/-! ## The layout -/

/-- Whether a byte string is a sequence of two integers, tags and lengths in front of each. -/
structure IsSequenceOf (signature r s : Bytes) : Prop where
  layout : signature = [0x30, UInt8.ofNat (signature.length - 2), 0x02, UInt8.ofNat r.length] ++ r
    ++ [0x02, UInt8.ofNat s.length] ++ s
  minimal_r : IsMinimalInteger r
  minimal_s : IsMinimalInteger s

variable {signature r s : Bytes}

theorem toNat_ofNat_length (short : r.length ≤ 72) : (UInt8.ofNat r.length).toNat = r.length := by
  rw [UInt8.toNat_ofNat']
  omega

namespace IsSequenceOf

theorem length_eq (sequence : IsSequenceOf signature r s) :
    signature.length = r.length + s.length + 6 := by
  have total := congrArg List.length sequence.layout
  simp only [List.length_append, List.length_cons, List.length_nil] at total
  omega

/-- A sequence that is not too long is one of two integers in one way only. -/
theorem unique (short : signature.length ≤ 72) {r' s' : Bytes}
    (one : IsSequenceOf signature r s) (other : IsSequenceOf signature r' s') :
    r = r' ∧ s = s' := by
  have room := one.length_eq
  have room' := other.length_eq
  have same := one.layout.symm.trans other.layout
  simp only [List.append_assoc, List.cons_append, List.nil_append, List.cons.injEq, true_and]
    at same
  obtain ⟨told, rest⟩ := same
  have length : r.length = r'.length := by
    rw [← toNat_ofNat_length (r := r) (by omega), told, toNat_ofNat_length (by omega)]
  obtain ⟨same_r, rest⟩ := List.append_inj rest length
  simp only [List.cons.injEq, true_and] at rest
  exact ⟨same_r, rest.2⟩

/-- A sequence of the right length passes the check. -/
theorem isStrictDer (least : 8 ≤ signature.length) (most : signature.length ≤ 72)
    (sequence : IsSequenceOf signature r s) : isStrictDer signature = true := by
  have room := sequence.length_eq
  have told_r : (UInt8.ofNat r.length).toNat = r.length := toNat_ofNat_length (by omega)
  have told_s : (UInt8.ofNat s.length).toNat = s.length := toNat_ofNat_length (by omega)
  have told : (UInt8.ofNat (signature.length - 2)).toNat + 2 = signature.length := by
    rw [UInt8.toNat_ofNat']
    omega
  have shape := sequence.layout
  simp only [List.append_assoc, List.cons_append, List.nil_append] at shape
  generalize UInt8.ofNat (signature.length - 2) = total at told shape
  have rest : (r ++ 0x02 :: UInt8.ofNat s.length :: s).length + 4 = signature.length := by
    simp only [List.length_append, List.length_cons]
    omega
  have minimal_r := (isMinimalPositive_iff r).mpr sequence.minimal_r
  have minimal_s := (isMinimalPositive_iff s).mpr sequence.minimal_s
  rw [shape, Positional.isStrictDer_cons, List.drop_left' told_r.symm, List.take_left' told_r.symm,
    rest]
  simp only [told, told_r, told_s, minimal_r, minimal_s, decide_eq_true least, decide_eq_true most,
    beq_self_eq_true, Bool.and_self]

end IsSequenceOf

/-- What passes the check is a sequence of two integers of the right length. -/
theorem sequence_of_isStrictDer (accepted : isStrictDer signature = true) :
    (8 ≤ signature.length ∧ signature.length ≤ 72) ∧ ∃ r s, IsSequenceOf signature r s := by
  have sized : 8 ≤ signature.length ∧ signature.length ≤ 72 := by
    by_contra unsized
    exact Bool.false_ne_true ((Positional.isStrictDer_of_length unsized).symm.trans accepted)
  refine ⟨sized, ?_⟩
  match signature with
  | [] | [_] | [_, _] | [_, _, _] => exact absurd sized.1 (by simp)
  | a :: length :: c :: lengthR :: rest =>
    rw [Positional.isStrictDer_cons] at accepted
    -- the fields behind the first integer
    rcases behind : rest.drop lengthR.toNat with _ | ⟨tag, _ | ⟨lengthS, s⟩⟩
    · simp [behind] at accepted
    · simp [behind] at accepted
    simp only [behind, Bool.and_eq_true, beq_iff_eq, decide_eq_true_eq] at accepted
    obtain ⟨⟨rfl, rfl⟩, ⟨⟨⟨⟨⟨⟨rfl, -⟩, -⟩, total⟩, told_r⟩, told_s⟩, minimal_r⟩, minimal_s⟩ :=
      accepted
    have split : rest = rest.take lengthR.toNat ++ 0x02 :: lengthS :: s := by
      rw [← behind, List.take_append_drop]
    refine ⟨rest.take lengthR.toNat, s, ?_, (isMinimalPositive_iff _).mp minimal_r,
      (isMinimalPositive_iff s).mp minimal_s⟩
    have byte (b : UInt8) {n : Nat} (same : n = b.toNat) : UInt8.ofNat n = b := by
      rw [same, UInt8.ofNat_toNat]
    have whole : (0x30 :: length :: 0x02 :: lengthR :: rest).length = rest.length + 4 := rfl
    rw [byte lengthR told_r, byte lengthS told_s, byte length (by omega)]
    simp only [List.append_assoc, List.cons_append, List.nil_append]
    rw [← split]

/-- Strict signatures are the sequences of two minimal integers in 8 to 72 bytes. There is one way
to take such a sequence apart, minimal integers are the shortest ones, and every position that is
read is inside. -/
theorem isStrictDer_exact (signature : Bytes) :
    (isStrictDer signature = true ↔
      (8 ≤ signature.length ∧ signature.length ≤ 72) ∧ ∃ r s, IsSequenceOf signature r s) ∧
    (isStrictDer signature = true ↔ (8 ≤ signature.length ∧ signature.length ≤ 72) ∧
      ∃! parts : Bytes × Bytes, IsSequenceOf signature parts.1 parts.2) ∧
    (∀ value, IsMinimalInteger value ↔ HasClearBit value ∧
      ∀ other, HasClearBit other → ofBigEndian other = ofBigEndian value →
        value.length ≤ other.length) ∧
    Positional.isStrictDer signature = pure (isStrictDer signature) := by
  refine ⟨⟨sequence_of_isStrictDer, ?_⟩, ⟨?_, ?_⟩, isMinimalInteger_iff_shortest,
    Positional.isStrictDer_eq signature⟩
  · rintro ⟨⟨least, most⟩, r, s, sequence⟩
    exact sequence.isStrictDer least most
  · intro accepted
    obtain ⟨sized, r, s, sequence⟩ := sequence_of_isStrictDer accepted
    refine ⟨sized, (r, s), sequence, ?_⟩
    rintro ⟨r', s'⟩ other
    obtain ⟨rfl, rfl⟩ := other.unique sized.2 sequence
    rfl
  · rintro ⟨⟨least, most⟩, parts, sequence, -⟩
    exact sequence.isStrictDer least most

/-- Two bytes for 128, which needs the zero, and one for 127. -/
example : isStrictDer [0x30, 7, 0x02, 2, 0, 0x80, 0x02, 1, 0x7f] = true := by decide

/-- A zero that is not needed. -/
example : isStrictDer [0x30, 7, 0x02, 2, 0, 0x7f, 0x02, 1, 0x7f] = false := by decide

end ScryptLedger.Script
