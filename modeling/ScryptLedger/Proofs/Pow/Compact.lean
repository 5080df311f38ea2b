import Mathlib.Order.Bounds.Defs
import ScryptLedger.Proofs.Pow.Normal

/-!
# Rounding to compact targets

A compact form keeps the three leading bytes of a target, or two of them where
the first one would touch the sign bit. What it stands for is the target with
the bytes below set to zero. That is the largest exact target not above the
given one, so rounding keeps the order of targets; it loses less than one in
2^15, and nothing when it is done again.
-/

namespace ScryptLedger.Target

/-- What the compact form of a target stands for. -/
def rounded (target : Nat) : Nat := (ofCompact (toCompact target)).target

/-- Whether a target has a compact form that stands for nothing else. -/
def IsExact (target : Nat) : Prop := ∃ bits, (ofCompact bits).target = target

/-- Every compact form stands for fewer than 2^23 times a power of 256. -/
theorem exists_digits (bits : UInt32) :
    ∃ digits bytes, digits < 2 ^ 23 ∧ (ofCompact bits).target = digits * 2 ^ (8 * bytes) := by
  have small : mantissa bits < 2 ^ 23 := Nat.mod_lt _ (by decide)
  by_cases excess : overflows bits = true
  · exact ⟨0, 0, by decide, by simp [ofCompact, excess]⟩
  by_cases short : size bits ≤ 3
  · refine ⟨mantissa bits >>> (8 * (3 - size bits)), 0, ?_, by simp [ofCompact, excess, short]⟩
    rw [Nat.shiftRight_eq_div_pow]
    exact (Nat.div_le_self _ _).trans_lt small
  · exact ⟨mantissa bits, size bits - 3, small, by
      simp [ofCompact, excess, short, Nat.shiftLeft_eq]⟩

/-! ## Rounding -/

/-- Rounding sets the bytes below the leading ones to zero. Where there are any, the leading
bytes have at least sixteen bits. -/
theorem ofCompact_toCompact {target : Nat} (bounded : target ≤ max) :
    ∃ bytes, ofCompact (toCompact target)
        = ⟨target / 2 ^ (8 * bytes) * 2 ^ (8 * bytes), false, false⟩
      ∧ (bytes = 0 ∨ 2 ^ 15 ≤ target / 2 ^ (8 * bytes)) := by
  rcases Nat.eq_zero_or_pos target with rfl | positive
  · exact ⟨0, rfl, Or.inl rfl⟩
  obtain ⟨length, normal, -⟩ := exists_normal positive
  rw [normal.ofCompact_eq bounded]
  rcases Nat.le_total length 3 with short | long
  · refine ⟨0, ?_, Or.inl rfl⟩
    rw [kept_of_short short]
    simp
  · obtain ⟨dropped, rfl⟩ := Nat.exists_eq_add_of_le long
    have least := normal.least
    rw [leading_of_long] at least
    refine ⟨dropped, ?_, Or.inr ?_⟩
    · rw [kept_of_long, Nat.pow_mul]
    · rw [Nat.pow_mul]
      exact least

theorem rounded_le {target : Nat} (bounded : target ≤ max) : rounded target ≤ target := by
  obtain ⟨bytes, form, -⟩ := ofCompact_toCompact bounded
  rw [rounded, form]
  exact Nat.div_mul_le_self _ _

/-- Rounding passes no exact target on its way down. -/
theorem IsExact.le_rounded {exact target : Nat} (isExact : IsExact exact) (bounded : target ≤ max)
    (below : exact ≤ target) : exact ≤ rounded target := by
  obtain ⟨bits, rfl⟩ := isExact
  obtain ⟨digits, places, small, value⟩ := exists_digits bits
  obtain ⟨bytes, form, leading⟩ := ofCompact_toCompact bounded
  rw [rounded, form]
  rw [value] at below ⊢
  change digits * 2 ^ (8 * places) ≤ target / 2 ^ (8 * bytes) * 2 ^ (8 * bytes)
  by_cases coarser : bytes ≤ places
  · -- the exact target ends in at least as many zero bytes as the rounded one
    obtain ⟨more, rfl⟩ := Nat.exists_eq_add_of_le coarser
    have split : digits * 2 ^ (8 * (bytes + more))
        = digits * 2 ^ (8 * more) * 2 ^ (8 * bytes) := by
      ring
    rw [split] at below ⊢
    exact Nat.mul_le_mul_right _ ((Nat.le_div_iff_mul_le (Nat.two_pow_pos _)).mpr below)
  · -- its digits end below the leading byte of the rounded one
    have leading : 2 ^ 15 ≤ target / 2 ^ (8 * bytes) := by omega
    calc digits * 2 ^ (8 * places)
        ≤ 2 ^ 23 * 2 ^ (8 * places) := Nat.mul_le_mul_right _ small.le
      _ = 2 ^ 15 * 2 ^ (8 * (places + 1)) := by ring
      _ ≤ 2 ^ 15 * 2 ^ (8 * bytes) :=
          Nat.mul_le_mul_left _ (Nat.pow_le_pow_right (by decide) (by omega))
      _ ≤ target / 2 ^ (8 * bytes) * 2 ^ (8 * bytes) := Nat.mul_le_mul_right _ leading

/-- A target is rounded to the largest exact one not above it. -/
theorem isGreatest_rounded {target : Nat} (bounded : target ≤ max) :
    IsGreatest {exact | IsExact exact ∧ exact ≤ target} (rounded target) := by
  constructor
  · exact ⟨⟨toCompact target, rfl⟩, rounded_le bounded⟩
  · intro exact kept
    exact kept.1.le_rounded bounded kept.2

/-- Rounding keeps the order of targets. -/
theorem rounded_mono {low high : Nat} (ordered : low ≤ high) (bounded : high ≤ max) :
    rounded low ≤ rounded high := by
  have below : rounded low ≤ low := rounded_le (ordered.trans bounded)
  exact (isGreatest_rounded bounded).2 ⟨⟨toCompact low, rfl⟩, below.trans ordered⟩

/-- The compact form of a target within a limit is usable, unless it is rounded to zero. -/
theorem derive?_toCompact {target limit : Nat} (bounded : target ≤ max) (within : target ≤ limit)
    (nonzero : rounded target ≠ 0) :
    derive? (toCompact target) limit = some (rounded target) := by
  have small : rounded target ≤ limit := (rounded_le bounded).trans within
  obtain ⟨bytes, form, -⟩ := ofCompact_toCompact bounded
  rw [rounded] at small nonzero ⊢
  rw [form] at small nonzero
  simp [derive?, form, nonzero, Nat.not_lt.mpr small]

/-! ## Compact forms of rounded targets -/

theorem rounded_zero : rounded 0 = 0 :=
  Nat.le_zero.mp (rounded_le (Nat.zero_le max))

/-- Rounding changes no compact form. -/
theorem toCompact_rounded {target : Nat} (bounded : target ≤ max) :
    toCompact (rounded target) = toCompact target := by
  rcases Nat.eq_zero_or_pos target with rfl | positive
  · rw [rounded_zero]
  · obtain ⟨length, normal, -⟩ := exists_normal positive
    rw [rounded, normal.ofCompact_eq bounded, normal.normal_kept.toCompact_eq, leading_kept,
      normal.toCompact_eq]

/-- What is lost by rounding is less than one in 2^15. -/
theorem loss_lt_of_ne {target : Nat} (bounded : target ≤ max) (lossy : rounded target ≠ target) :
    (target - rounded target) * 2 ^ 15 < rounded target := by
  obtain ⟨bytes, form, leading⟩ := ofCompact_toCompact bounded
  have value : rounded target = target / 2 ^ (8 * bytes) * 2 ^ (8 * bytes) := by
    rw [rounded, form]
  have some : bytes ≠ 0 := by
    rintro rfl
    simp [value] at lossy
  have lost : target - rounded target < 2 ^ (8 * bytes) := by
    rw [value, ← Nat.mod_eq_sub_div_mul]
    exact Nat.mod_lt _ (Nat.two_pow_pos _)
  calc (target - rounded target) * 2 ^ 15 < 2 ^ (8 * bytes) * 2 ^ 15 :=
        Nat.mul_lt_mul_of_pos_right lost (by decide)
    _ = 2 ^ 15 * 2 ^ (8 * bytes) := Nat.mul_comm _ _
    _ ≤ target / 2 ^ (8 * bytes) * 2 ^ (8 * bytes) :=
        Nat.mul_le_mul_right _ (leading.resolve_left some)
    _ = rounded target := value.symm

/-- Compact forms are ordered as their targets are. -/
theorem toCompact_mono {low high : Nat} (ordered : low ≤ high) (bounded : high ≤ max) :
    toCompact low ≤ toCompact high := by
  rcases Nat.eq_zero_or_pos low with rfl | positive
  · exact UInt32.zero_le
  obtain ⟨short, first, -⟩ := exists_normal positive
  obtain ⟨long, second, -⟩ := exists_normal (positive.trans_le ordered)
  have lengths := first.length_le second ordered
  have below := first.most
  rw [first.toCompact_eq, second.toCompact_eq, UInt32.le_iff_toNat_le,
    toNat_parts (first.length_lt (ordered.trans bounded)) first.most,
    toNat_parts (second.length_lt bounded) second.most]
  rcases Nat.lt_or_eq_of_le lengths with shorter | rfl
  · omega
  · have digits := leading_mono ordered short
    omega

/-- A compact form marks no target of 256 bits, stands for no more than it and loses less than one
in 2^15 of it, and is the form of what it stands for. Forms are ordered as their targets are, and
each form with enough digits, no sign and no overflow is the one of what it stands for. -/
theorem toCompact_canonical :
    (∀ target ≤ max,
      (ofCompact (toCompact target)).negative = false ∧
      (ofCompact (toCompact target)).overflow = false ∧
      rounded target ≤ target ∧
      (0 < target → rounded target ≠ target →
        (target - rounded target) * 2 ^ 15 < rounded target) ∧
      toCompact (rounded target) = toCompact target) ∧
    (∀ low high, low ≤ high → high ≤ max → toCompact low ≤ toCompact high) ∧
    ∀ bits, 0x8000 ≤ mantissa bits → mantissa bits ≤ 0x7fffff → signBit bits = false →
      3 ≤ size bits → (ofCompact bits).overflow = false →
      toCompact (ofCompact bits).target = bits := by
  refine ⟨fun target bounded => ?_, fun low high => toCompact_mono,
    fun bits enough _ => toCompact_ofCompact enough⟩
  obtain ⟨bytes, form, -⟩ := ofCompact_toCompact bounded
  refine ⟨?_, ?_, rounded_le bounded, fun _ => loss_lt_of_ne bounded, toCompact_rounded bounded⟩
  · rw [form]
  · rw [form]

/-- A target of 32 bytes whose first byte touches the sign bit, its form of 33 bytes, and the
limit of the private network below it. -/
theorem canonical_of_wide :
    0x80ffff * 2 ^ 232 ≤ max ∧ toCompact (0x80ffff * 2 ^ 232) = 0x210080ff ∧
      rounded (0x80ffff * 2 ^ 232) = 0x80ff * 2 ^ 240 ∧
      (0x80ffff * 2 ^ 232 - 0x80ff * 2 ^ 240) * 2 ^ 15 < 0x80ff * 2 ^ 240 ∧
      1 <<< 255 - 1 ≤ 0x80ffff * 2 ^ 232 ∧ toCompact (1 <<< 255 - 1) ≤ 0x210080ff ∧
      mantissa 0x210080ff = 0x80ff ∧ toCompact (ofCompact 0x210080ff).target = 0x210080ff := by
  have wide : 0x80ffff * 2 ^ 232 ≤ max := by decide
  have form : toCompact (0x80ffff * 2 ^ 232) = 0x210080ff := by decide +kernel
  have value : rounded (0x80ffff * 2 ^ 232) = 0x80ff * 2 ^ 240 := by
    rw [rounded, form]
    decide
  obtain ⟨each, ordered, exactly⟩ := toCompact_canonical
  have lost := (each _ wide).2.2.2.1 (by decide) (by
    rw [value]
    decide)
  have below : 1 <<< 255 - 1 ≤ 0x80ffff * 2 ^ 232 := by decide
  have smaller := ordered _ _ below wide
  rw [value] at lost
  rw [form] at smaller
  exact ⟨wide, form, value, lost, below, smaller, rfl,
    exactly _ (by decide) (by decide) (by decide) (by decide) (by decide)⟩

end ScryptLedger.Target
