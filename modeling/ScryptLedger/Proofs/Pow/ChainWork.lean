import Mathlib.Algebra.Order.Group.Nat
import ScryptLedger.Proofs.Pow.Magnitude
import ScryptLedger.Proofs.Pow.Words

/-!
# The work that a target asks for

The work of a target is the number of hashes, divided by the number of those that are
not above it. The number of hashes has 257 bits. A machine with words of 256 bits takes
the complement of the target instead and adds one to the quotient. Its words hold every
result on the way, because a target ends in a zero byte or fits three bytes, so that it
is never the largest word.
-/

namespace ScryptLedger.Target

/-- Whether a compact form stands for a target that a hash can be held against. -/
def HasTarget (bits : UInt32) : Prop :=
  (ofCompact bits).negative = false ∧ (ofCompact bits).overflow = false ∧
    (ofCompact bits).target ≠ 0

instance (bits : UInt32) : Decidable (HasTarget bits) :=
  inferInstanceAs (Decidable (_ ∧ _ ∧ _))

variable {bits : UInt32}

/-! ## The target -/

/-- A target of more than three bytes ends in a zero byte. -/
theorem dvd_target_of_long (fits : overflows bits = false) (long : 3 < size bits) :
    256 ∣ (ofCompact bits).target := by
  obtain ⟨zeros, more⟩ := Nat.exists_eq_add_of_lt long
  have shifted :
      mantissa bits * 256 ^ size bits = 256 * (mantissa bits * 256 ^ zeros) * 256 ^ 3 := by
    rw [more]
    ring
  rw [target_ofCompact fits, shifted, Nat.mul_div_cancel _ (by decide)]
  exact Nat.dvd_mul_right 256 _

theorem target_lt_of_short (fits : overflows bits = false) (short : size bits ≤ 3) :
    (ofCompact bits).target < 0x800000 := by
  have bytes : mantissa bits * 256 ^ size bits ≤ mantissa bits * 256 ^ 3 :=
    Nat.mul_le_mul_left _ (Nat.pow_le_pow_right (by decide) short)
  calc (ofCompact bits).target = mantissa bits * 256 ^ size bits / 256 ^ 3 := target_ofCompact fits
    _ ≤ mantissa bits * 256 ^ 3 / 256 ^ 3 := Nat.div_le_div_right bytes
    _ = mantissa bits := Nat.mul_div_cancel _ (by decide)
    _ < 0x800000 := Nat.mod_lt _ (by decide)

/-- A target is never the largest word. -/
theorem target_lt_max (bits : UInt32) : (ofCompact bits).target < max := by
  have largest : max = 2 ^ 256 - 1 := by decide
  cases fits : overflows bits with
  | true =>
    have zero : (ofCompact bits).target = 0 := by simp [ofCompact, fits]
    rw [zero]
    decide
  | false =>
    have within : mantissa bits * 256 ^ size bits < 256 ^ 35 := by
      rw [← Nat.not_le, ← overflows_iff, fits]
      exact Bool.false_ne_true
    have bound : (ofCompact bits).target < 2 ^ 256 := by
      rw [target_ofCompact fits]
      exact Nat.div_lt_of_lt_mul (within.trans_eq (by decide))
    rcases Nat.lt_or_ge 3 (size bits) with long | short
    · have zeros := dvd_target_of_long fits long
      omega
    · have small := target_lt_of_short fits short
      omega

/-! ## The work -/

/-- The complement of a target, divided by what the number of hashes is divided by. -/
theorem complement_div_succ {target : Nat} (within : target ≤ max) :
    (max - target) / (target + 1) + 1 = 2 ^ 256 / (target + 1) := by
  have all : 2 ^ 256 = max - target + (target + 1) := by
    have largest : 2 ^ 256 = max + 1 := by decide
    omega
  rw [all, Nat.add_div_right _ (Nat.succ_pos target)]

theorem refused_iff (bits : UInt32) :
    ((ofCompact bits).negative || (ofCompact bits).overflow || (ofCompact bits).target == 0)
      = true ↔ ¬ HasTarget bits := by
  simp only [HasTarget, Bool.or_eq_true, beq_iff_eq]
  cases (ofCompact bits).negative <;> cases (ofCompact bits).overflow <;> simp

theorem work_eq (has : HasTarget bits) : work bits = 2 ^ 256 / ((ofCompact bits).target + 1) := by
  have accepted := mt (refused_iff bits).mp (not_not_intro has)
  simp only [work]
  rw [if_neg accepted]
  exact complement_div_succ (target_lt_max bits).le

theorem work_eq_zero (none : ¬ HasTarget bits) : work bits = 0 := by
  simp only [work]
  exact if_pos ((refused_iff bits).mpr none)

/-! ## The work in words -/

namespace Words

open Attempt
open Retarget.Words (ratio ratio_eq)

/-- The bits of a word of 256 bits, each turned over. -/
def complement (n : Nat) : Nat := (~~~ BitVec.ofNat 256 n).toNat

/-- The target of a compact form. Shifting it to the left must not lose any bits. -/
def target (bits : UInt32) : Attempt Nat :=
  if overflows bits then return 0
  else if size bits ≤ 3 then do
    let distance := 8 * (← minus 3 (size bits))
    return (← shiftRight (BitVec.ofNat 32 (mantissa bits)) distance).toNat
  else do
    let distance := 8 * (← minus (size bits) 3)
    unsigned 256 (mantissa bits <<< distance)

/-- The work of a compact form. -/
def work (bits : UInt32) : Attempt Nat := do
  let target ← target bits
  if (ofCompact bits).negative || (ofCompact bits).overflow || target == 0 then return 0
  else do
    let divisor ← unsigned 256 (target + 1)
    let quotient ← ratio (complement target) divisor
    unsigned 256 (quotient + 1)

theorem complement_eq {n : Nat} (within : n ≤ max) : complement n = max - n := by
  have largest : max = 2 ^ 256 - 1 := by decide
  rw [complement, BitVec.toNat_not, BitVec.toNat_ofNat, Nat.mod_eq_of_lt (by omega), largest]

theorem target_eq (bits : UInt32) : target bits = pure (ofCompact bits).target := by
  have bound : (ofCompact bits).target < 2 ^ 256 := (target_lt_max bits).trans (by decide)
  rw [target]
  simp only [ofCompact] at bound ⊢
  by_cases excess : overflows bits = true
  · rw [if_pos excess, if_pos excess]
  rw [if_neg excess] at bound ⊢
  rw [if_neg excess]
  by_cases short : size bits ≤ 3
  · have digits : mantissa bits < 2 ^ 32 := (Nat.mod_lt _ (by decide)).trans (by decide)
    rw [if_pos short, if_pos short, minus_eq short, pure_bind, shiftRight_eq (by omega), pure_bind,
      BitVec.toNat_ushiftRight, BitVec.toNat_ofNat, Nat.mod_eq_of_lt digits]
  · rw [if_neg short] at bound ⊢
    rw [if_neg short, minus_eq (by omega), pure_bind, unsigned_eq bound]

/-- Nothing is divided by zero and every result fits its word. -/
theorem work_eq (bits : UInt32) : work bits = pure (Target.work bits) := by
  have below := target_lt_max bits
  have largest : max + 1 = 2 ^ 256 := by decide
  rw [work, target_eq, pure_bind]
  by_cases has : HasTarget bits
  · have accepted := mt (refused_iff bits).mp (not_not_intro has)
    have positive : 0 < (ofCompact bits).target := Nat.pos_of_ne_zero has.2.2
    have halved : (max - (ofCompact bits).target) / ((ofCompact bits).target + 1) < max :=
      (Nat.div_le_self _ _).trans_lt (by omega)
    have divisor : unsigned 256 ((ofCompact bits).target + 1)
        = pure ((ofCompact bits).target + 1) := unsigned_eq (by omega)
    have divided : ratio (complement (ofCompact bits).target) ((ofCompact bits).target + 1)
        = pure ((max - (ofCompact bits).target) / ((ofCompact bits).target + 1)) := by
      rw [complement_eq below.le, ratio_eq (Nat.succ_ne_zero _)]
    rw [if_neg accepted, divisor, pure_bind, divided, pure_bind, unsigned_eq (by omega),
      Target.work_eq has, complement_div_succ below.le]
  · rw [if_pos ((refused_iff bits).mpr has), work_eq_zero has]

end Words

/-! ## The result -/

/-- The work of a compact form is the number of hashes, divided by the number of those that are
not above its target, so that a larger target asks for no more work; what stands for no target
asks for none. All of this is found in words of 256 bits. -/
theorem work_exact :
    (∀ bits, HasTarget bits → work bits = 2 ^ 256 / ((ofCompact bits).target + 1)) ∧
      (∀ bits, ¬ HasTarget bits → work bits = 0) ∧
      (∀ bits easier, HasTarget bits → HasTarget easier →
        (ofCompact bits).target ≤ (ofCompact easier).target → work easier ≤ work bits) ∧
      ∀ bits, Words.work bits = pure (work bits) ∧ ¬ (Words.work bits).Faults := by
  refine ⟨fun bits has => work_eq has, fun bits none => work_eq_zero none, ?_, ?_⟩
  · intro bits easier has hasToo larger
    rw [work_eq has, work_eq hasToo]
    exact Nat.div_le_div_left (Nat.succ_le_succ larger) (Nat.succ_pos _)
  · intro bits
    exact ⟨Words.work_eq bits, Attempt.not_faults_of_eq_pure (Words.work_eq bits)⟩

/-- The largest targets of two forms with equal leading bytes, at 29 and at 32 bytes, and a form
whose only bytes are shifted away. -/
theorem work_exact_of_limits :
    HasTarget 0x1d7fffff ∧ work 0x1d7fffff = 2 ^ 256 / (0x7fffff * 256 ^ 26 + 1) ∧
      HasTarget 0x207fffff ∧ work 0x207fffff ≤ work 0x1d7fffff ∧ ¬ HasTarget 0x01003456 ∧
      work 0x01003456 = 0 := by
  have has : HasTarget 0x1d7fffff := by decide
  have hasToo : HasTarget 0x207fffff := by decide
  have none : ¬ HasTarget 0x01003456 := by decide
  exact ⟨has, work_exact.1 _ has, hasToo,
    work_exact.2.2.1 0x1d7fffff 0x207fffff has hasToo (by decide), none, work_exact.2.1 _ none⟩

end ScryptLedger.Target
