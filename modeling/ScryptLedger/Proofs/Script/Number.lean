import ScryptLedger.Proofs.Outcome
import ScryptLedger.Proofs.Script.Positional.Number

/-!
# The one minimal form of an integer

A byte string writes a sign and a magnitude: the highest bit of its last byte is
the sign, and everything else the magnitude, least significant byte first. A form
is minimal if its last byte holds a digit, or a sign that the byte before has no
room for. Each integer has exactly one minimal form. It is the shortest of all
its forms, and the one that is written for it.
-/

namespace ScryptLedger.ScriptNumber

open Script.Positional (ofLittleEndian_concat and_0x80_eq_zero_iff)

/-! ## The sign and the magnitude -/

/-- The magnitude that a byte string writes, split before its last byte. -/
def digits (before : Bytes) (last : UInt8) : Nat :=
  ofLittleEndian before + 2 ^ (8 * before.length) * (last.toNat % 128)

theorem toNat_and_0x7f (b : UInt8) : (b &&& 0x7f).toNat = b.toNat % 128 := by
  rw [UInt8.toNat_and]
  exact Nat.and_two_pow_sub_one_eq_mod b.toNat 7

theorem and_0x7f_bne_zero (b : UInt8) : (b &&& 0x7f != 0) = true ↔ b.toNat % 128 ≠ 0 := by
  rw [bne_iff_ne, ne_eq, ← UInt8.toNat_inj, toNat_and_0x7f]
  rfl

theorem lt_0x80_iff (b : UInt8) : b < 0x80 ↔ b.toNat < 128 :=
  UInt8.lt_iff_toNat_lt

theorem ofLittleEndian_lt_two_pow (bytes : Bytes) :
    ofLittleEndian bytes < 2 ^ (8 * bytes.length) := by
  rw [Nat.pow_mul]
  exact ofLittleEndian_lt bytes

/-- A byte string of any length stands for its magnitude, below zero if the highest bit is set. -/
theorem value_concat (before : Bytes) (last : UInt8) :
    value (before ++ [last])
      = if last.toNat < 128 then (digits before last : Int) else -(digits before last : Int) := by
  have whole := ofLittleEndian_concat before last
  have length : (before ++ [last]).length - 1 = before.length := by simp
  have byte : last.toNat < 256 := last.toNat_lt
  rw [value, List.getLast?_concat]
  dsimp only
  rw [length, whole, Nat.shiftLeft_eq]
  by_cases positive : last.toNat < 128
  · rw [if_pos ((lt_0x80_iff last).mpr positive), if_pos positive, digits,
      Nat.mod_eq_of_lt positive]
  · have rest : last.toNat = 128 + last.toNat % 128 := by omega
    have split : 2 ^ (8 * before.length) * last.toNat
        = 2 ^ (8 * before.length) * 128 + 2 ^ (8 * before.length) * (last.toNat % 128) := by
      rw [← Nat.mul_add, ← rest]
    rw [if_neg (fun less => positive ((lt_0x80_iff last).mp less)), if_neg positive, digits, split]
    push_cast
    omega

theorem natAbs_value_concat (before : Bytes) (last : UInt8) :
    (value (before ++ [last])).natAbs = digits before last := by
  rw [value_concat]
  split <;> omega

/-- The magnitude is less than what the bytes without the sign have room for. -/
theorem digits_lt (before : Bytes) (last : UInt8) :
    digits before last < 2 ^ (8 * before.length + 7) := by
  have low := ofLittleEndian_lt_two_pow before
  have high : last.toNat % 128 ≤ 127 := by omega
  calc digits before last
      < 2 ^ (8 * before.length) + 2 ^ (8 * before.length) * (last.toNat % 128) :=
        Nat.add_lt_add_right low _
    _ ≤ 2 ^ (8 * before.length) + 2 ^ (8 * before.length) * 127 :=
        Nat.add_le_add_left (Nat.mul_le_mul_left _ high) _
    _ = 2 ^ (8 * before.length + 7) := by
        rw [Nat.pow_add]
        omega

theorem digits_eq_zero_iff (before : Bytes) (last : UInt8) :
    digits before last = 0 ↔ ofLittleEndian before = 0 ∧ last.toNat % 128 = 0 := by
  have positive : 0 < 2 ^ (8 * before.length) := Nat.two_pow_pos _
  simp only [digits, Nat.add_eq_zero_iff, Nat.mul_eq_zero]
  constructor
  · rintro ⟨low, high⟩
    exact ⟨low, by omega⟩
  · rintro ⟨low, high⟩
    exact ⟨low, Or.inr high⟩

/-- Equal magnitudes of equally long byte strings have the same digits. -/
theorem digits_inj {before before' : Bytes} {last last' : UInt8}
    (length : before.length = before'.length)
    (same : digits before last = digits before' last') :
    before = before' ∧ last.toNat % 128 = last'.toNat % 128 := by
  have low := ofLittleEndian_lt_two_pow before
  have low' := ofLittleEndian_lt_two_pow before'
  have positive : 0 < 2 ^ (8 * before.length) := Nat.two_pow_pos _
  rw [digits, digits, ← length] at same
  rw [← length] at low'
  constructor
  · have ends := congrArg (· % 2 ^ (8 * before.length)) same
    simp only [Nat.add_mul_mod_self_left, Nat.mod_eq_of_lt low, Nat.mod_eq_of_lt low'] at ends
    exact eq_of_ofLittleEndian length ends
  · have starts := congrArg (· / 2 ^ (8 * before.length)) same
    simp only [Nat.add_mul_div_left _ _ positive, Nat.div_eq_of_lt low, Nat.div_eq_of_lt low',
      Nat.zero_add] at starts
    exact starts

/-! ## Minimal forms -/

theorem isMinimalForm_concat (before : Bytes) (last : UInt8) :
    isMinimalForm (before ++ [last]) = true ↔
      last.toNat % 128 ≠ 0 ∨ ∃ front second, before = front ++ [second] ∧ 128 ≤ second.toNat := by
  rcases before.eq_nil_or_concat' with rfl | ⟨front, second, rfl⟩
  · have form : isMinimalForm ([] ++ [last]) = (last &&& 0x7f != 0) := rfl
    rw [form, and_0x7f_bne_zero]
    simp
  · have form : isMinimalForm (front ++ [second] ++ [last])
        = (last &&& 0x7f != 0 || decide (0x80 ≤ second)) := by
      simp [isMinimalForm]
    rw [form, Bool.or_eq_true, and_0x7f_bne_zero, decide_eq_true_eq, UInt8.le_iff_toNat_le]
    constructor
    · rintro (digit | high)
      · exact Or.inl digit
      · exact Or.inr ⟨front, second, rfl, high⟩
    · rintro (digit | ⟨other, byte, same, high⟩)
      · exact Or.inl digit
      · obtain ⟨-, rfl⟩ := List.append_singleton_inj.mp same
        exact Or.inr high

/-- A minimal form has a digit in its last byte or in the highest bit before it. -/
theorem le_digits_of_minimal {before : Bytes} {last : UInt8}
    (minimal : isMinimalForm (before ++ [last]) = true) :
    2 ^ (8 * before.length) ≤ 2 * digits before last := by
  rcases (isMinimalForm_concat before last).mp minimal with digit | ⟨front, second, rfl, high⟩
  · have least : 1 ≤ last.toNat % 128 := by omega
    have place := Nat.mul_le_mul_left (2 ^ (8 * before.length)) least
    rw [digits]
    omega
  · have place := Nat.mul_le_mul_left (2 ^ (8 * front.length)) high
    have length : 2 ^ (8 * (front ++ [second]).length) = 2 ^ (8 * front.length) * 256 := by
      rw [List.length_append, List.length_singleton, Nat.mul_succ, Nat.pow_add]
    rw [digits, ofLittleEndian_concat, length]
    omega

/-- Only the empty byte string is a minimal form of zero. -/
theorem value_ne_zero_of_minimal {before : Bytes} {last : UInt8}
    (minimal : isMinimalForm (before ++ [last]) = true) : value (before ++ [last]) ≠ 0 := by
  have least := le_digits_of_minimal minimal
  have positive : 0 < 2 ^ (8 * before.length) := Nat.two_pow_pos _
  have magnitude := natAbs_value_concat before last
  omega

/-- A minimal form is as short as any form of the same integer. -/
theorem length_le_of_minimal {form other : Bytes} (minimal : isMinimalForm form = true)
    (same : value form = value other) : form.length ≤ other.length := by
  rcases form.eq_nil_or_concat' with rfl | ⟨before, last, rfl⟩
  · exact Nat.zero_le _
  rcases other.eq_nil_or_concat' with rfl | ⟨before', last', rfl⟩
  · exact absurd same (value_ne_zero_of_minimal minimal)
  have least := le_digits_of_minimal minimal
  have most := digits_lt before' last'
  have magnitude : digits before last = digits before' last' := by
    rw [← natAbs_value_concat, ← natAbs_value_concat, same]
  have within : 2 ^ (8 * before.length) < 2 ^ (8 * before'.length + 8) := by
    rw [Nat.pow_succ 2 (8 * before'.length + 7)]
    omega
  have places := (Nat.pow_lt_pow_iff_right (by decide)).mp within
  simp only [List.length_append, List.length_singleton]
  omega

/-- No integer has two minimal forms. -/
theorem eq_of_minimal {form other : Bytes} (minimal : isMinimalForm form = true)
    (minimal' : isMinimalForm other = true) (same : value form = value other) : form = other := by
  have length : form.length = other.length :=
    Nat.le_antisymm (length_le_of_minimal minimal same) (length_le_of_minimal minimal' same.symm)
  rcases form.eq_nil_or_concat' with rfl | ⟨before, last, rfl⟩
  · exact (List.length_eq_zero_iff.mp length.symm).symm
  rcases other.eq_nil_or_concat' with rfl | ⟨before', last', rfl⟩
  · exact absurd length (by simp)
  have nonzero := value_ne_zero_of_minimal minimal
  have magnitude : digits before last = digits before' last' := by
    rw [← natAbs_value_concat, ← natAbs_value_concat, same]
  have length : before.length = before'.length := by simpa using length
  obtain ⟨rfl, digit⟩ := digits_inj length magnitude
  -- the magnitudes agree and are not zero, so the signs do
  have byte : last.toNat < 256 := last.toNat_lt
  have byte' : last'.toNat < 256 := last'.toNat_lt
  have sign : last.toNat < 128 ↔ last'.toNat < 128 := by
    rw [value_concat, value_concat] at same
    rw [value_concat] at nonzero
    split at same <;> split at same <;> split at nonzero <;> omega
  have final : last = last' := UInt8.toNat_inj.mp (by omega)
  rw [final]

/-! ## Writing -/

/-- The bytes of a magnitude other than zero, whose last one holds a digit. -/
theorem magnitude_eq_concat {n : Nat} (positive : n ≠ 0) :
    ∃ before last, magnitude n = before ++ [last] ∧ last.toNat ≠ 0 ∧
      ofLittleEndian before + 2 ^ (8 * before.length) * last.toNat = n := by
  have room : n < 256 ^ (n.log2 / 8 + 1) := by
    rw [show 256 = 2 ^ 8 from rfl, ← Nat.pow_mul, ← Nat.log2_lt positive]
    omega
  have number := ofLittleEndian_littleEndian_of_lt room
  have length := length_littleEndian (n.log2 / 8 + 1) n
  rw [magnitude, if_neg positive]
  generalize littleEndian (n.log2 / 8 + 1) n = bytes at number length
  rcases bytes.eq_nil_or_concat' with rfl | ⟨before, last, rfl⟩
  · cases length
  rw [List.length_append, List.length_singleton] at length
  rw [ofLittleEndian_concat] at number
  refine ⟨before, last, rfl, ?_, number⟩
  intro empty
  -- without a digit in the last byte the number would be too small
  have low := ofLittleEndian_lt_two_pow before
  have least : 2 ^ (8 * before.length) ≤ n :=
    (Nat.le_log2 positive).mp (by omega)
  rw [empty] at number
  omega

theorem or_0x80 {b : UInt8} (low : b.toNat < 128) : (b ||| 0x80).toNat = b.toNat + 128 := by
  have disjoint : 2 ^ 7 * 1 + b.toNat = 2 ^ 7 * 1 ||| b.toNat := Nat.two_pow_add_eq_or_of_lt low 1
  have sign : (0x80 : UInt8).toNat = 2 ^ 7 * 1 := rfl
  rw [UInt8.toNat_or, sign, Nat.or_comm, ← disjoint]
  omega

/-- What is written for an integer is a minimal form of it. -/
theorem encode_spec (n : Int) : isMinimalForm (encode n) = true ∧ value (encode n) = n := by
  by_cases zero : n.natAbs = 0
  · obtain rfl := Int.natAbs_eq_zero.mp zero
    exact ⟨rfl, rfl⟩
  obtain ⟨before, last, bytes, digit, number⟩ := magnitude_eq_concat zero
  have byte : last.toNat < 256 := last.toNat_lt
  rw [encode, bytes, List.getLast?_concat]
  dsimp only
  by_cases roomy : last.toNat < 128
  · rw [if_pos ((lt_0x80_iff last).mpr roomy), List.dropLast_concat]
    have marked := or_0x80 roomy
    constructor
    · split
      · exact (isMinimalForm_concat _ _).mpr (Or.inl (by omega))
      · exact (isMinimalForm_concat _ _).mpr (Or.inl (by omega))
    · split
      · rw [value_concat, if_neg (by omega), digits, marked, Nat.add_mod_right,
          Nat.mod_eq_of_lt roomy, number]
        omega
      · rw [value_concat, if_pos roomy, digits, Nat.mod_eq_of_lt roomy, number]
        omega
  · rw [if_neg (fun less => roomy ((lt_0x80_iff last).mp less))]
    constructor
    · exact (isMinimalForm_concat _ _).mpr (Or.inr ⟨before, last, rfl, Nat.not_lt.mp roomy⟩)
    · rw [value_concat, digits, ofLittleEndian_concat, number]
      by_cases negative : n < 0
      · have sign : (0x80 : UInt8).toNat = 128 := rfl
        rw [if_pos negative, sign, if_neg (by decide)]
        omega
      · have sign : (0 : UInt8).toNat = 0 := rfl
        rw [if_neg negative, sign, if_pos (by decide)]
        omega

theorem isMinimalForm_encode (n : Int) : isMinimalForm (encode n) = true := (encode_spec n).1

@[simp]
theorem value_encode (n : Int) : value (encode n) = n := (encode_spec n).2

/-- The minimal forms are what is written for the integers they stand for. -/
theorem isMinimalForm_iff {form : Bytes} :
    isMinimalForm form = true ↔ form = encode (value form) := by
  constructor
  · intro minimal
    exact eq_of_minimal minimal (isMinimalForm_encode _) (value_encode _).symm
  · intro written
    rw [written]
    exact isMinimalForm_encode _

/-- No form is shorter than what is written for its integer. -/
theorem length_encode_value_le (form : Bytes) : (encode (value form)).length ≤ form.length :=
  length_le_of_minimal (isMinimalForm_encode _) (value_encode _)

/-! ## Reading -/

theorem isTrue_concat (before : Bytes) (last : UInt8) :
    isTrue (before ++ [last]) = true ↔ digits before last ≠ 0 := by
  rw [ne_eq, digits_eq_zero_iff]
  induction before with
  | nil =>
    have byte : last.toNat < 256 := last.toNat_lt
    have alone : isTrue ([] ++ [last]) = (last != 0 && last != 0x80) := rfl
    rw [alone, Bool.and_eq_true, bne_iff_ne, bne_iff_ne, ne_eq, ne_eq, ← UInt8.toNat_inj,
      ← UInt8.toNat_inj]
    have zero : (0 : UInt8).toNat = 0 := rfl
    have sign : (0x80 : UInt8).toNat = 128 := rfl
    simp only [ofLittleEndian, true_and]
    omega
  | cons b rest ih =>
    have first : isTrue (b :: rest ++ [last]) = (b != 0 || isTrue (rest ++ [last])) := by
      cases rest <;> rfl
    rw [first, Bool.or_eq_true, ih, bne_iff_ne, ne_eq, ← UInt8.toNat_inj, ofLittleEndian]
    have zero : (0 : UInt8).toNat = 0 := rfl
    omega

/-- A byte string is true if it stands for an integer other than zero. -/
theorem isTrue_iff (bytes : Bytes) : isTrue bytes = true ↔ value bytes ≠ 0 := by
  rcases bytes.eq_nil_or_concat' with rfl | ⟨before, last, rfl⟩
  · exact iff_of_false Bool.false_ne_true (fun nonzero => nonzero rfl)
  · rw [isTrue_concat, ← natAbs_value_concat, ne_eq, Int.natAbs_eq_zero]

/-- Where minimal forms are asked for, an integer is read from what is written for it alone. -/
theorem decode_minimal_eq_ok_iff {bytes : Bytes} {maxLength : Nat} {n : Int} :
    decode bytes true maxLength = .ok n ↔ bytes.length ≤ maxLength ∧ bytes = encode n := by
  rw [decode, Outcome.refuse_eq_ok_iff, Outcome.refuse_eq_ok_iff, Outcome.pure_eq_ok_iff]
  simp only [isMinimal, Bool.true_and, Bool.not_eq_true, Bool.not_eq_false', Bool.and_eq_true,
    decide_eq_true_eq, Nat.not_lt]
  constructor
  · rintro ⟨short, ⟨-, minimal⟩, rfl⟩
    exact ⟨short, isMinimalForm_iff.mp minimal⟩
  · rintro ⟨short, rfl⟩
    exact ⟨short, ⟨short, isMinimalForm_encode n⟩, value_encode n⟩

theorem decode_of_length_le {bytes : Bytes} {maxLength : Nat} (short : bytes.length ≤ maxLength) :
    decode bytes false maxLength = .ok (value bytes) :=
  if_neg (Nat.not_lt.mpr short)

/-- Up to eight bytes are read in words of 64 bits without a fault. Minimal forms and integers
correspond one to one, other forms are read as what their bits say, and a form is true unless it
stands for zero. -/
theorem decode_bijective {maxLength : Nat} (room : maxLength ≤ 8) (bytes : Bytes) :
    (∀ minimal, Script.Positional.decode bytes minimal maxLength
      = Attempt.of id (decode bytes minimal maxLength)) ∧
    (∀ n, decode bytes true maxLength = .ok n ↔ bytes.length ≤ maxLength ∧ bytes = encode n) ∧
    (bytes.length ≤ maxLength → decode bytes false maxLength = .ok (value bytes)) ∧
    (isTrue bytes = true ↔ value bytes ≠ 0) ∧
    value [] = 0 ∧ ∀ before last, value (before ++ [last])
      = if last.toNat < 128 then (digits before last : Int) else -(digits before last : Int) := by
  refine ⟨?_, ?_, decode_of_length_le, isTrue_iff bytes, rfl, value_concat⟩
  · intro minimal
    exact Script.Positional.decode_eq room
  · intro n
    exact decode_minimal_eq_ok_iff

/-- The lowest integer of eight bytes, and a negative zero of eight bytes. -/
theorem decode_of_eight_bytes :
    8 ≤ 8 ∧ decode (List.replicate 8 0xff) true 8 = .ok (-(2 ^ 63 - 1)) ∧
      Script.Positional.decode (List.replicate 8 0xff) true 8 = pure (-(2 ^ 63 - 1)) ∧
      decode (List.replicate 7 0 ++ [0x80]) false 8 = .ok 0 ∧
      isTrue (List.replicate 7 0 ++ [0x80]) = false := by
  obtain ⟨words, exactly, -, -⟩ := decode_bijective (Nat.le_refl 8) (List.replicate 8 0xff)
  obtain ⟨-, -, read, true_iff, -, parts⟩ :=
    decode_bijective (Nat.le_refl 8) (List.replicate 7 0 ++ [0x80])
  have lowest : decode (List.replicate 8 0xff) true 8 = .ok (-(2 ^ 63 - 1)) :=
    (exactly _).mpr ⟨by decide, by decide +kernel⟩
  have zero : value (List.replicate 7 0 ++ [0x80]) = 0 := parts _ _
  refine ⟨Nat.le_refl 8, lowest, ?_, ?_, ?_⟩
  · rw [words, lowest]
    rfl
  · rw [read (by decide), zero]
  · rw [← Bool.not_eq_true, true_iff, zero]
    exact fun nonzero => nonzero rfl

end ScryptLedger.ScriptNumber
