import Mathlib.Data.Nat.Log
import ScryptLedger.Proofs.Pow.Magnitude

/-!
# The one compact form of a target

Of all lengths there is exactly one at which the digits of a target that stand
above it fill the second of three bytes and leave the sign bit alone. That is
the length of its compact form, and these are its leading bytes. The form
stands for the target with the bytes below these set to zero.
-/

namespace ScryptLedger.Target

/-! ## The bytes of a number -/

theorem lt_pow_byteLength (n : Nat) : n < 2 ^ (8 * byteLength n) := by
  by_cases zero : n = 0
  · rw [zero]
    exact Nat.two_pow_pos _
  · have within : n.log2 < 8 * byteLength n := by
      rw [byteLength, if_neg zero]
      omega
    exact (Nat.log2_lt zero).mp within

theorem pow_le_of_byteLength {n bytes : Nat} (length : byteLength n = bytes + 1) :
    2 ^ (8 * bytes) ≤ n := by
  by_cases zero : n = 0
  · simp [byteLength, zero] at length
  · have above : 8 * bytes ≤ n.log2 := by
      rw [byteLength, if_neg zero] at length
      omega
    exact (Nat.le_log2 zero).mp above

/-! ## The parts of a compact form -/

section Parts

variable {length digits : Nat} (short : length < 256) (small : digits < 0x800000)

include short small

theorem toNat_parts : (UInt32.ofNat (length * 0x1000000 + digits)).toNat
    = length * 0x1000000 + digits := by
  rw [UInt32.toNat_ofNat']
  omega

theorem size_parts : size (UInt32.ofNat (length * 0x1000000 + digits)) = length := by
  rw [size, toNat_parts short small]
  omega

theorem mantissa_parts : mantissa (UInt32.ofNat (length * 0x1000000 + digits)) = digits := by
  rw [mantissa, toNat_parts short small]
  omega

theorem signBit_parts : signBit (UInt32.ofNat (length * 0x1000000 + digits)) = false := by
  rw [signBit, toNat_parts short small, Nat.testBit_eq_decide_div_mod_eq]
  simp only [decide_eq_false_iff_not]
  omega

end Parts

/-! ## The length of a compact form -/

/-- The digits of a target that a compact form of some length has room for. -/
def leading (target length : Nat) : Nat := target * 256 ^ 3 / 256 ^ length

/-- Whether a length leaves the digits of a compact form. -/
structure Normal (target length : Nat) : Prop where
  least : 0x8000 ≤ leading target length
  most : leading target length < 0x800000

theorem pow_256_pos (count : Nat) : 0 < 256 ^ count := Nat.pow_pos (by decide)

/-- A longer form has one byte less room. -/
theorem leading_succ (target length : Nat) :
    leading target (length + 1) = leading target length / 256 := by
  rw [leading, leading, Nat.div_div_eq_div_mul, ← Nat.pow_succ]

theorem leading_mono {low high : Nat} (ordered : low ≤ high) (length : Nat) :
    leading low length ≤ leading high length :=
  Nat.div_le_div_right (Nat.mul_le_mul_right _ ordered)

/-- What the digits stand for is no more than the target. -/
theorem leading_mul_le (target length : Nat) :
    leading target length * 256 ^ length ≤ target * 256 ^ 3 :=
  Nat.div_mul_le_self _ _

theorem shiftLeft_eq_leading {target length : Nat} (short : length ≤ 3) :
    target <<< (8 * (3 - length)) = leading target length := by
  obtain ⟨room, three⟩ := Nat.exists_eq_add_of_le short
  rw [leading, three, Nat.add_sub_cancel_left, Nat.shiftLeft_eq, Nat.pow_mul, Nat.pow_add,
    Nat.mul_left_comm, Nat.mul_div_cancel_left _ (pow_256_pos _)]

theorem shiftRight_eq_leading {target length : Nat} (long : 3 ≤ length) :
    target >>> (8 * (length - 3)) = leading target length := by
  obtain ⟨dropped, rfl⟩ := Nat.exists_eq_add_of_le long
  rw [leading, Nat.add_sub_cancel_left, Nat.shiftRight_eq_div_pow, Nat.pow_mul, Nat.pow_add,
    Nat.mul_comm target, Nat.mul_div_mul_left _ _ (pow_256_pos 3)]

namespace Normal

variable {low high target short long : Nat}

/-- Larger targets have no shorter forms. -/
theorem length_le (first : Normal low short) (second : Normal high long) (ordered : low ≤ high) :
    short ≤ long := by
  by_contra shorter
  have above : 0x8000 * 256 ^ short ≤ low * 256 ^ 3 :=
    (Nat.le_div_iff_mul_le (pow_256_pos short)).mp first.least
  have below : high * 256 ^ 3 < 0x800000 * 256 ^ long :=
    (Nat.div_lt_iff_lt_mul (pow_256_pos long)).mp second.most
  have apart : 0x800000 * 256 ^ long ≤ 0x8000 * 256 ^ short :=
    calc 0x800000 * 256 ^ long = 0x8000 * 256 ^ (long + 1) := by ring
      _ ≤ 0x8000 * 256 ^ short :=
          Nat.mul_le_mul_left _ (Nat.pow_le_pow_right (by decide) (Nat.lt_of_not_le shorter))
  omega

theorem unique (first : Normal target short) (second : Normal target long) : short = long :=
  Nat.le_antisymm (first.length_le second (Nat.le_refl _)) (second.length_le first (Nat.le_refl _))

end Normal

/-- The bytes of a number reach above the lowest of its last three. -/
theorem leading_byteLength {target : Nat} (positive : 0 < target) :
    0x10000 ≤ leading target (byteLength target) ∧
      leading target (byteLength target) < 0x1000000 := by
  have within := lt_pow_byteLength target
  have nonempty : byteLength target ≠ 0 := by
    rw [byteLength, if_neg (by omega)]
    omega
  obtain ⟨below, length⟩ := Nat.exists_eq_succ_of_ne_zero nonempty
  have reaches := pow_le_of_byteLength length
  rw [length, Nat.pow_mul] at within
  rw [Nat.pow_mul] at reaches
  rw [leading, length]
  constructor
  · refine (Nat.le_div_iff_mul_le (pow_256_pos _)).mpr ?_
    calc 0x10000 * 256 ^ (below + 1) = 256 ^ below * 256 ^ 3 := by ring
      _ ≤ target * 256 ^ 3 := Nat.mul_le_mul_right _ reaches
  · refine (Nat.div_lt_iff_lt_mul (pow_256_pos _)).mpr ?_
    calc target * 256 ^ 3 < 256 ^ (below + 1) * 256 ^ 3 :=
          Nat.mul_lt_mul_of_pos_right within (pow_256_pos 3)
      _ = 0x1000000 * 256 ^ (below + 1) := Nat.mul_comm _ _

/-- The compact form of a target is made of the one length and the digits it leaves. -/
theorem exists_normal {target : Nat} (positive : 0 < target) :
    ∃ length, Normal target length ∧
      toCompact target = UInt32.ofNat (length * 0x1000000 + leading target length) := by
  have ⟨least, most⟩ := leading_byteLength positive
  have digits : (if byteLength target ≤ 3 then target <<< (8 * (3 - byteLength target))
      else target >>> (8 * (byteLength target - 3))) = leading target (byteLength target) := by
    split
    case isTrue short => exact shiftLeft_eq_leading short
    case isFalse long => exact shiftRight_eq_leading (Nat.le_of_not_le long)
  simp only [toCompact, digits]
  split
  case isTrue fits => exact ⟨byteLength target, ⟨by omega, fits⟩, rfl⟩
  case isFalse signed =>
    have shorter := leading_succ target (byteLength target)
    rw [← shorter]
    exact ⟨byteLength target + 1, ⟨by omega, by omega⟩, rfl⟩

/-! ## The digits that are kept -/

/-- What a compact form of some length keeps of a target. -/
def kept (target length : Nat) : Nat := leading target length * 256 ^ length / 256 ^ 3

/-- Up to three bytes are kept. -/
theorem kept_of_short {target length : Nat} (short : length ≤ 3) : kept target length = target := by
  obtain ⟨room, three⟩ := Nat.exists_eq_add_of_le short
  have digits : leading target length = target * 256 ^ room := by
    rw [leading, three, Nat.pow_add, Nat.mul_left_comm,
      Nat.mul_div_cancel_left _ (pow_256_pos length)]
  rw [kept, digits, Nat.mul_assoc, ← Nat.pow_add, Nat.add_comm room, ← three,
    Nat.mul_div_cancel _ (pow_256_pos 3)]

theorem leading_of_long (target dropped : Nat) :
    leading target (3 + dropped) = target / 256 ^ dropped := by
  rw [leading, Nat.pow_add, Nat.mul_comm target, Nat.mul_div_mul_left _ _ (pow_256_pos 3)]

/-- Of more bytes, the ones below the digits are dropped. -/
theorem kept_of_long (target dropped : Nat) :
    kept target (3 + dropped) = target / 256 ^ dropped * 256 ^ dropped := by
  rw [kept, leading_of_long, Nat.pow_add, Nat.mul_left_comm,
    Nat.mul_div_cancel_left _ (pow_256_pos 3)]

/-- What is kept has the same digits. -/
theorem leading_kept (target length : Nat) :
    leading (kept target length) length = leading target length := by
  rcases Nat.le_total length 3 with short | long
  · rw [kept_of_short short]
  · obtain ⟨dropped, rfl⟩ := Nat.exists_eq_add_of_le long
    rw [kept_of_long, leading_of_long, leading_of_long, Nat.mul_div_cancel _ (pow_256_pos dropped)]

/-- The digits that are left of a target of 256 bits stand for a number that does not overflow. -/
theorem leading_mul_lt {target : Nat} (bounded : target ≤ max) (length : Nat) :
    leading target length * 256 ^ length < 256 ^ 35 :=
  calc leading target length * 256 ^ length ≤ target * 256 ^ 3 := leading_mul_le target length
    _ < 256 ^ 32 * 256 ^ 3 :=
        Nat.mul_lt_mul_of_pos_right (Nat.lt_of_le_of_lt bounded (by decide)) (pow_256_pos 3)
    _ = 256 ^ 35 := rfl

namespace Normal

variable {target length : Nat} (normal : Normal target length)

include normal

theorem normal_kept : Normal (kept target length) length := by
  constructor
  · rw [leading_kept]
    exact normal.least
  · rw [leading_kept]
    exact normal.most

theorem toCompact_eq :
    toCompact target = UInt32.ofNat (length * 0x1000000 + leading target length) := by
  have positive : 0 < target := by
    have least := normal.least
    by_contra zero
    simp [leading, Nat.eq_zero_of_not_pos zero] at least
  obtain ⟨other, same, form⟩ := exists_normal positive
  rw [normal.unique same, form]

variable (bounded : target ≤ max)

include bounded

theorem length_lt : length < 256 := by
  have below : 256 ^ length < 256 ^ 35 :=
    calc 256 ^ length ≤ leading target length * 256 ^ length :=
          Nat.le_mul_of_pos_left _ (Nat.lt_of_lt_of_le (by decide) normal.least)
      _ < 256 ^ 35 := leading_mul_lt bounded length
  have := (Nat.pow_lt_pow_iff_right (by decide)).mp below
  omega

theorem ofCompact_eq :
    ofCompact (toCompact target) = ⟨kept target length, false, false⟩ := by
  have short := normal.length_lt bounded
  have digits := mantissa_parts short normal.most
  have bytes := size_parts short normal.most
  have sign := signBit_parts short normal.most
  rw [normal.toCompact_eq]
  generalize UInt32.ofNat (length * 0x1000000 + leading target length) = bits at digits bytes sign
  have fits : overflows bits = false := by
    rw [Bool.eq_false_iff, ne_eq, overflows_iff, digits, bytes]
    exact Nat.not_le.mpr (leading_mul_lt bounded length)
  have marked : (ofCompact bits).overflow = false := fits
  have unsigned : (ofCompact bits).negative = false := by
    rw [ofCompact, sign, Bool.and_false]
  calc ofCompact bits
      = ⟨(ofCompact bits).target, (ofCompact bits).negative, (ofCompact bits).overflow⟩ := rfl
    _ = ⟨kept target length, false, false⟩ := by
        rw [target_ofCompact fits, digits, bytes, unsigned, marked, kept]

end Normal

/-- A form is put together from its parts, unless its sign bit is set. -/
theorem parts_eq {bits : UInt32} (unsigned : signBit bits = false) :
    UInt32.ofNat (size bits * 0x1000000 + mantissa bits) = bits := by
  rw [signBit, Nat.testBit_eq_decide_div_mod_eq, decide_eq_false_iff_not] at unsigned
  have whole : size bits * 0x1000000 + mantissa bits = bits.toNat := by
    rw [size, mantissa]
    omega
  rw [whole, UInt32.ofNat_toNat]

/-- A form with enough digits is the one of what it stands for. -/
theorem toCompact_ofCompact {bits : UInt32} (enough : 0x8000 ≤ mantissa bits)
    (unsigned : signBit bits = false) (long : 3 ≤ size bits) (fits : overflows bits = false) :
    toCompact (ofCompact bits).target = bits := by
  have digits : leading (ofCompact bits).target (size bits) = mantissa bits := by
    obtain ⟨zeros, more⟩ := Nat.exists_eq_add_of_le long
    rw [target_ofCompact fits, leading, more, Nat.pow_add, Nat.mul_left_comm,
      Nat.mul_div_cancel_left _ (pow_256_pos 3), Nat.mul_right_comm, Nat.mul_assoc,
      Nat.mul_div_cancel _ (Nat.mul_pos (pow_256_pos 3) (pow_256_pos zeros))]
  have small : mantissa bits < 0x800000 := Nat.mod_lt _ (by decide)
  have normal : Normal (ofCompact bits).target (size bits) := ⟨digits ▸ enough, digits ▸ small⟩
  rw [normal.toCompact_eq, digits, parts_eq unsigned]

end ScryptLedger.Target
