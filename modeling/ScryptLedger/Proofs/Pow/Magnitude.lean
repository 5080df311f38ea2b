import Mathlib.Algebra.Order.Floor.Semifield
import Mathlib.Data.Rat.Floor
import Mathlib.Tactic.NormNum
import Mathlib.Tactic.Ring
import ScryptLedger.Params
import ScryptLedger.Pow.Target
import ScryptLedger.Primitives.Transparent

/-!
# The number that a compact form writes

A compact form writes a fraction: its leading bytes times a power of 256, which
is negative for sizes below three. The target is this number without its
fraction, unless it takes more than 32 bytes, and a target is only derived from
forms that write a positive number. The one thing that does not follow from the
number is the mark of negative forms: a form of less than one is marked by its
sign bit although its target is zero.
-/

namespace ScryptLedger.Target

/-- The number that a compact form writes, without its sign. -/
def magnitude (bits : UInt32) : ℚ :=
  ((bits &&& 0x7fffff).toNat : ℚ) * 256 ^ (((bits >>> 24).toNat : Int) - 3)

/-- The number that a compact form writes, without its fraction and with its sign. -/
def signedValue (bits : UInt32) : Int :=
  if signBit bits then -⌊magnitude bits⌋₊ else ⌊magnitude bits⌋₊

variable {bits : UInt32}

theorem mantissa_eq (bits : UInt32) : (bits &&& 0x7fffff).toNat = mantissa bits := by
  rw [UInt32.toNat_and]
  exact Nat.and_two_pow_sub_one_eq_mod bits.toNat 23

theorem size_eq (bits : UInt32) : (bits >>> 24).toNat = size bits := by
  rw [UInt32.toNat_shiftRight]
  exact Nat.shiftRight_eq_div_pow bits.toNat 24

/-- Counted in units of the third byte behind the point, the number is whole. -/
theorem magnitude_eq (bits : UInt32) :
    magnitude bits = ((mantissa bits * 256 ^ size bits : Nat) : ℚ) / ((256 ^ 3 : Nat) : ℚ) := by
  rw [magnitude, mantissa_eq, size_eq, zpow_sub₀ (by norm_num), zpow_natCast]
  push_cast
  exact (mul_div_assoc _ _ _).symm

theorem floor_magnitude (bits : UInt32) :
    ⌊magnitude bits⌋₊ = mantissa bits * 256 ^ size bits / 256 ^ 3 := by
  rw [magnitude_eq, Nat.floor_div_eq_div]

/-- How large a number is follows from its own bytes and from those behind it. -/
theorem pow_le_mul_pow_iff {digits bytes behind total : Nat} (low : 256 ^ bytes ≤ digits)
    (high : digits < 256 ^ (bytes + 1)) :
    256 ^ total ≤ digits * 256 ^ behind ↔ total ≤ bytes + behind := by
  constructor
  · intro reaches
    have below : 256 ^ total < 256 ^ (bytes + 1 + behind) :=
      calc 256 ^ total ≤ digits * 256 ^ behind := reaches
        _ < 256 ^ (bytes + 1) * 256 ^ behind :=
            Nat.mul_lt_mul_of_pos_right high (Nat.pow_pos (by decide))
        _ = 256 ^ (bytes + 1 + behind) := (Nat.pow_add ..).symm
    have := (Nat.pow_lt_pow_iff_right (by decide)).mp below
    omega
  · intro within
    calc 256 ^ total ≤ 256 ^ (bytes + behind) := Nat.pow_le_pow_right (by decide) within
      _ = 256 ^ bytes * 256 ^ behind := Nat.pow_add ..
      _ ≤ digits * 256 ^ behind := Nat.mul_le_mul_right _ low

/-- The three comparisons of size and leading bytes find exactly the numbers of more than 32
bytes. -/
theorem overflows_iff :
    overflows bits = true ↔ 256 ^ 35 ≤ mantissa bits * 256 ^ size bits := by
  have small : mantissa bits < 0x800000 := Nat.mod_lt _ (by decide)
  simp only [overflows, Bool.and_eq_true, Bool.or_eq_true, bne_iff_ne, decide_eq_true_eq]
  -- The leading bytes are none, one, two or three.
  by_cases none : mantissa bits = 0
  · simp [none]
  have nonzero : 256 ^ 0 ≤ mantissa bits := Nat.one_le_iff_ne_zero.mpr none
  by_cases one : mantissa bits < 256 ^ 1
  · rw [pow_le_mul_pow_iff nonzero one]
    omega
  by_cases two : mantissa bits < 256 ^ 2
  · rw [pow_le_mul_pow_iff (Nat.not_lt.mp one) two]
    omega
  · rw [pow_le_mul_pow_iff (Nat.not_lt.mp two) (by omega)]
    omega

theorem overflows_iff_le_magnitude :
    overflows bits = true ↔ 2 ^ 256 ≤ magnitude bits := by
  rw [overflows_iff, magnitude_eq, le_div_iff₀ (by norm_num)]
  norm_cast

/-- The target is the number without its fraction. -/
theorem target_ofCompact (fits : overflows bits = false) :
    (ofCompact bits).target = mantissa bits * 256 ^ size bits / 256 ^ 3 := by
  have byte (count : Nat) : 2 ^ (8 * count) = 256 ^ count := Nat.pow_mul 2 8 count
  simp only [ofCompact, fits, Bool.false_eq_true, if_false, Nat.shiftRight_eq_div_pow,
    Nat.shiftLeft_eq, byte]
  split
  case isTrue short =>
    obtain ⟨dropped, three⟩ := Nat.exists_eq_add_of_le short
    rw [three, Nat.add_sub_cancel_left, Nat.pow_add, Nat.mul_comm (256 ^ size bits),
      Nat.mul_div_mul_right _ _ (Nat.pow_pos (by decide))]
  case isFalse long =>
    obtain ⟨zeros, more⟩ := Nat.exists_eq_add_of_le (Nat.le_of_not_le long)
    rw [more, Nat.add_sub_cancel_left, Nat.pow_add, Nat.mul_left_comm,
      Nat.mul_div_cancel_left _ (by decide)]

theorem target_eq_floor (fits : overflows bits = false) :
    (ofCompact bits).target = ⌊magnitude bits⌋₊ := by
  rw [target_ofCompact fits, floor_magnitude]

theorem negative_iff :
    (ofCompact bits).negative = true ↔ signBit bits = true ∧ mantissa bits ≠ 0 := by
  simp only [ofCompact, Bool.and_eq_true, bne_iff_ne, ne_eq]
  exact and_comm

theorem magnitude_pos_iff : 0 < magnitude bits ↔ mantissa bits ≠ 0 := by
  rw [magnitude_eq, div_pos_iff_of_pos_right (by norm_num), Nat.cast_pos, Nat.pos_iff_ne_zero]
  simp

/-- The mark of negative forms says that the sign bit is set and the number does not vanish with
its fraction, except where the sign bit is set and nothing but a fraction is there. -/
theorem negative_iff_floor_iff :
    ((ofCompact bits).negative = true ↔ signBit bits = true ∧ ⌊magnitude bits⌋₊ ≠ 0) ↔
      ¬ (signBit bits = true ∧ 0 < magnitude bits ∧ magnitude bits < 1) := by
  have whole : ⌊magnitude bits⌋₊ ≠ 0 ↔ 1 ≤ magnitude bits := by
    rw [ne_eq, Nat.floor_eq_zero, not_lt]
  have some_of_whole : 1 ≤ magnitude bits → 0 < magnitude bits := one_pos.trans_le
  have fraction : magnitude bits < 1 ↔ ¬ 1 ≤ magnitude bits := not_le.symm
  rw [negative_iff, ← magnitude_pos_iff, whole, fraction]
  tauto

/-- A target is derived from the forms that are marked neither negative nor overflowing, if it is
in range. -/
theorem derive?_eq_some_iff_ofCompact {limit target : Nat} :
    derive? bits limit = some target ↔
      (ofCompact bits).negative = false ∧ overflows bits = false ∧
        (ofCompact bits).target = target ∧ 1 ≤ target ∧ target ≤ limit := by
  have marked : (ofCompact bits).overflow = overflows bits := rfl
  simp only [derive?, marked]
  split
  case isTrue refused =>
    simp only [Bool.or_eq_true, beq_iff_eq, decide_eq_true_eq] at refused
    refine iff_of_false (Option.some_ne_none target).symm ?_
    rintro ⟨positive, fits, rfl, nonzero, within⟩
    rw [positive, fits] at refused
    simp at refused
    omega
  case isFalse passed =>
    simp only [Bool.or_eq_true, beq_iff_eq, decide_eq_true_eq, not_or, Bool.not_eq_true,
      Nat.not_lt] at passed
    obtain ⟨⟨⟨positive, fits⟩, nonzero⟩, within⟩ := passed
    rw [Option.some_inj]
    constructor
    · rintro rfl
      exact ⟨positive, fits, rfl, Nat.one_le_iff_ne_zero.mpr nonzero, within⟩
    · rintro ⟨-, -, same, -, -⟩
      exact same

/-- A target is derived exactly from the forms that write a positive number within the limit. -/
theorem derive?_eq_some_iff {limit target : Nat} (wide : limit ≤ max) :
    derive? bits limit = some target ↔
      signedValue bits = target ∧ 1 ≤ target ∧ target ≤ limit := by
  have huge (excess : overflows bits = true) : limit < ⌊magnitude bits⌋₊ := by
    have reaches : 2 ^ 256 ≤ ⌊magnitude bits⌋₊ := by
      rw [Nat.le_floor_iff' (by norm_num)]
      exact_mod_cast overflows_iff_le_magnitude.mp excess
    exact Nat.lt_of_lt_of_le (Nat.lt_of_le_of_lt wide (by decide)) reaches
  rw [derive?_eq_some_iff_ofCompact, signedValue]
  cases sign : signBit bits with
  | true =>
    -- A negative number is no target, and a form that is not marked writes zero.
    simp only [if_true]
    constructor
    · rintro ⟨unmarked, fits, rfl, positive, -⟩
      have zero : mantissa bits = 0 := by
        by_contra some
        rw [negative_iff.mpr ⟨sign, some⟩] at unmarked
        cases unmarked
      rw [target_ofCompact fits, zero] at positive
      simp at positive
    · rintro ⟨value, positive, -⟩
      omega
  | false =>
    simp only [Bool.false_eq_true, if_false, Int.natCast_inj]
    have unmarked : (ofCompact bits).negative = false := by
      simp [ofCompact, sign]
    constructor
    · rintro ⟨-, fits, rfl, positive, within⟩
      exact ⟨(target_eq_floor fits).symm, positive, within⟩
    · rintro ⟨rfl, positive, within⟩
      cases fits : overflows bits with
      | true => exact absurd (huge fits) (Nat.not_lt.mpr within)
      | false => exact ⟨unmarked, rfl, target_eq_floor fits, positive, within⟩

/-- What is decoded follows from the number that a form writes: whether it overflows, its target,
and the targets that are derived. The mark of negative forms follows from the digits, and so says
more than the number does where this is less than one. -/
theorem decoded_of_magnitude (bits : UInt32) {limit : Nat} (wide : limit ≤ max) :
    ((ofCompact bits).overflow = true ↔ 2 ^ 256 ≤ magnitude bits) ∧
      ((ofCompact bits).overflow = false → (ofCompact bits).target = ⌊magnitude bits⌋₊) ∧
      ((ofCompact bits).negative = true ↔ signBit bits = true ∧ mantissa bits ≠ 0) ∧
      (((ofCompact bits).negative = true ↔ signBit bits = true ∧ ⌊magnitude bits⌋₊ ≠ 0) ↔
        ¬ (signBit bits = true ∧ 0 < magnitude bits ∧ magnitude bits < 1)) ∧
      ∀ target, derive? bits limit = some target ↔
        signedValue bits = target ∧ 1 ≤ target ∧ target ≤ limit :=
  ⟨overflows_iff_le_magnitude, target_eq_floor, negative_iff, negative_iff_floor_iff,
    fun _ => derive?_eq_some_iff wide⟩

section Main

local instance : Primitives := Primitives.transparent

/-- Two bytes of which only the first one is kept, under the limit of the network with money. -/
theorem decoded_of_fraction : ChainParams.main.powLimit ≤ max ∧
    (ofCompact 0x0201ff80).target = 511 ∧ ⌊magnitude 0x0201ff80⌋₊ = 511 ∧
    derive? 0x0201ff80 ChainParams.main.powLimit = some 511 ∧ signedValue 0x0201ff80 = 511 := by
  have wide : ChainParams.main.powLimit ≤ max := by decide
  obtain ⟨-, whole, -, -, derived⟩ := decoded_of_magnitude 0x0201ff80 wide
  exact ⟨wide, rfl, (whole rfl).symm, rfl, ((derived 511).mp rfl).1⟩

end Main

/-- A form that writes less than one, and is marked negative although nothing of it is left. -/
theorem negative_of_vanishing :
    ¬ ((ofCompact 0x01803456).negative = true ↔
      signBit 0x01803456 = true ∧ ⌊magnitude 0x01803456⌋₊ ≠ 0) := by
  have vanishes : ⌊magnitude 0x01803456⌋₊ = 0 := floor_magnitude 0x01803456
  rintro ⟨marks, -⟩
  exact (marks rfl).2 vanishes

end ScryptLedger.Target
