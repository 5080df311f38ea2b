import Mathlib.Data.List.Induction
import ScryptLedger.Primitives.Transparent
import ScryptLedger.Proofs.Script.Elements
import ScryptLedger.Proofs.Script.Number

/-!
# Padding keeps an integer

Byte strings of the same integer differ in their padding. One operation drops all
of it, in place and from the end, and tells whether there was any; another one
pads to a given size. Both move the sign along, and neither changes the integer:
what is left without padding is the one minimal form, and padding that is added
in between makes no difference to it.
-/

namespace ScryptLedger

namespace ScriptNumber

open Script.Positional (ofLittleEndian_concat stripZeros_concat stripZeros_concat_zero withSign
  withSign_concat minimize_concat)

/-! ## Without padding -/

/-- Where the last byte holds nothing but a sign, the magnitude stands before it. -/
theorem value_concat_of_sign {before : Bytes} {last : UInt8} (empty : last.toNat % 128 = 0) :
    value (before ++ [last])
      = if last.toNat < 128 then (ofLittleEndian before : Int)
        else -(ofLittleEndian before : Int) := by
  rw [value_concat, digits, empty, Nat.mul_zero, Nat.add_zero]

/-- Zeros at the end are no digits; what ends without them ends in a digit, or is empty. -/
theorem stripZeros_cases (bytes : Bytes) :
    (stripZeros bytes = [] ∧ ofLittleEndian bytes = 0) ∨
      ∃ front high, stripZeros bytes = front ++ [high] ∧ high.toNat ≠ 0 ∧
        ofLittleEndian (front ++ [high]) = ofLittleEndian bytes := by
  induction bytes using List.reverseRecOn with
  | nil => exact Or.inl ⟨rfl, rfl⟩
  | append_singleton before b ih =>
    by_cases zero : b = 0
    · subst zero
      have same : ofLittleEndian (before ++ [0]) = ofLittleEndian before := by
        rw [ofLittleEndian_concat]
        rfl
      rw [stripZeros_concat_zero, same]
      exact ih
    · refine Or.inr ⟨before, b, stripZeros_concat zero, ?_, rfl⟩
      intro none
      exact zero (UInt8.toNat_inj.mp none)

/-- A byte that is a sign or nothing, put into one that has room for it. -/
theorem toNat_or_sign {high sign : UInt8} (room : high.toNat < 128)
    (empty : sign.toNat % 128 = 0) : (high ||| sign).toNat = high.toNat + sign.toNat := by
  have byte : sign.toNat < 256 := sign.toNat_lt
  have either : sign = 0 ∨ sign = 0x80 := by
    have number : sign.toNat = 0 ∨ sign.toNat = 128 := by omega
    exact number.imp (fun none => UInt8.toNat_inj.mp none) fun set => UInt8.toNat_inj.mp set
  rcases either with rfl | rfl
  · rw [UInt8.or_zero]
    rfl
  · exact or_0x80 room

/-- What is left without padding is a minimal form of the same integer. -/
theorem minimize_spec (bytes : Bytes) :
    isMinimalForm (minimize bytes) = true ∧ value (minimize bytes) = value bytes := by
  rcases bytes.eq_nil_or_concat' with rfl | ⟨before, last, rfl⟩
  · exact ⟨rfl, rfl⟩
  rw [minimize_concat]
  by_cases digit : last.toNat % 128 = 0
  swap
  · have kept : last &&& 0x7f ≠ 0 := bne_iff_ne.mp ((and_0x7f_bne_zero last).mpr digit)
    rw [if_pos kept]
    exact ⟨(isMinimalForm_concat before last).mpr (Or.inl digit), rfl⟩
  have dropped : ¬ last &&& 0x7f ≠ 0 := fun kept =>
    (and_0x7f_bne_zero last).mp (bne_iff_ne.mpr kept) digit
  rw [if_neg dropped, value_concat_of_sign digit]
  rcases stripZeros_cases before with ⟨stripped, zero⟩ | ⟨front, high, stripped, nonzero, same⟩
  · rw [stripped, zero]
    constructor
    · rfl
    · split <;> rfl
  rw [stripped, withSign_concat]
  have byte : high.toNat < 256 := high.toNat_lt
  by_cases room : high.toNat < 128
  · -- the sign moves into the last digit
    have merged := toNat_or_sign room digit
    have signed : (high ||| last).toNat < 128 ↔ last.toNat < 128 := by omega
    have digits_eq : digits front (high ||| last) = ofLittleEndian before := by
      rw [digits, merged, ← same, ofLittleEndian_concat]
      congr 2
      omega
    rw [if_pos ((lt_0x80_iff high).mpr room)]
    constructor
    · exact (isMinimalForm_concat _ _).mpr (Or.inl (by omega))
    · rw [value_concat, digits_eq]
      simp only [signed]
  · -- the sign keeps a byte of its own
    rw [if_neg (fun less => room ((lt_0x80_iff high).mp less)), value_concat_of_sign digit, same]
    constructor
    · exact (isMinimalForm_concat _ _).mpr (Or.inr ⟨front, high, rfl, Nat.not_lt.mp room⟩)
    · rfl

theorem isMinimalForm_minimize (bytes : Bytes) : isMinimalForm (minimize bytes) = true :=
  (minimize_spec bytes).1

theorem value_minimize (bytes : Bytes) : value (minimize bytes) = value bytes :=
  (minimize_spec bytes).2

theorem minimize_eq_encode (bytes : Bytes) : minimize bytes = encode (value bytes) := by
  rw [← value_minimize]
  exact isMinimalForm_iff.mp (isMinimalForm_minimize bytes)

/-- Nothing is dropped from minimal forms only. -/
theorem minimize_eq_self_iff {bytes : Bytes} :
    minimize bytes = bytes ↔ isMinimalForm bytes = true := by
  rw [minimize_eq_encode, isMinimalForm_iff, eq_comm]

theorem isMinimal_length (form : Bytes) : isMinimal form form.length = isMinimalForm form := by
  simp [isMinimal]

/-! ## With more padding -/

theorem ofLittleEndian_append_replicate (bytes : Bytes) (count : Nat) :
    ofLittleEndian (bytes ++ List.replicate count 0) = ofLittleEndian bytes := by
  induction count with
  | zero => rw [List.replicate_zero, List.append_nil]
  | succ count ih =>
    have longer : bytes ++ List.replicate (count + 1) (0 : UInt8)
        = bytes ++ List.replicate count 0 ++ [0] := by
      rw [List.replicate_succ', List.append_assoc]
    have zero : (0 : UInt8).toNat = 0 := rfl
    rw [longer, ofLittleEndian_concat, ih, zero, Nat.mul_zero, Nat.add_zero]

theorem value_replicate_zero (count : Nat) : value (List.replicate count 0) = 0 := by
  cases count with
  | zero => rfl
  | succ count =>
    have digitless := ofLittleEndian_append_replicate [] count
    rw [List.nil_append] at digitless
    rw [List.replicate_succ', value_concat_of_sign rfl, digitless]
    rfl

theorem toNat_and_0x80 (b : UInt8) :
    (b &&& 0x80).toNat % 128 = 0 ∧ ((b &&& 0x80).toNat < 128 ↔ b.toNat < 128) := by
  have table : ∀ row : Fin 256, (UInt8.ofNat row &&& 0x80).toNat % 128 = 0 ∧
      ((UInt8.ofNat row &&& 0x80).toNat < 128 ↔ (UInt8.ofNat row).toNat < 128) := by
    decide +kernel
  simpa using table ⟨b.toNat, b.toNat_lt⟩

/-- A sign is moved to the end of the zeros that are put behind a magnitude. -/
theorem value_padded (before : Bytes) (last : UInt8) (count : Nat) :
    value (before ++ (last &&& 0x7f) :: List.replicate count 0 ++ [last &&& 0x80])
      = value (before ++ [last]) := by
  obtain ⟨empty, sign⟩ := toNat_and_0x80 last
  have magnitude : ofLittleEndian (before ++ (last &&& 0x7f) :: List.replicate count 0)
      = digits before last := by
    rw [List.append_cons, ofLittleEndian_append_replicate, ofLittleEndian_concat,
      toNat_and_0x7f, digits]
  rw [value_concat_of_sign empty, value_concat, magnitude]
  simp only [sign]

/-- A form of any size that has room for the minimal one stands for the same integer. -/
theorem resize_cases (bytes : Bytes) (size : Nat) :
    if (encode (value bytes)).length ≤ size then
      ∃ form, resize bytes size = .ok form ∧ value form = value bytes
    else resize bytes size = .error .impossibleEncoding := by
  rw [resize, minimize_eq_encode]
  have number := value_encode (value bytes)
  generalize encode (value bytes) = short at number
  by_cases room : short.length ≤ size
  swap
  · rw [if_neg room, if_pos (Nat.not_le.mp room)]
    rfl
  rw [if_pos room, if_neg (Nat.not_lt.mpr room)]
  rcases short.eq_nil_or_concat' with rfl | ⟨before, last, rfl⟩
  · refine ⟨List.replicate size 0, rfl, ?_⟩
    rw [value_replicate_zero, ← number]
    rfl
  rw [List.getLast?_concat, List.dropLast_concat]
  dsimp only
  by_cases exact : (before ++ [last]).length = size
  · rw [if_pos exact]
    exact ⟨_, rfl, number⟩
  · rw [if_neg exact]
    refine ⟨_, rfl, ?_⟩
    rw [value_padded, number]

end ScriptNumber

namespace Script

open ScriptNumber (minimize encode value isMinimal isMinimalForm)

/-! ## In place -/

namespace Positional

/-- Drops the padding of a byte string, and tells whether there was any. -/
def dropPadding (bytes : Bytes) : Attempt (Bool × Bytes) :=
  match bytes.getLast? with
  | none => return (false, bytes)
  | some last =>
    if last &&& 0x7f ≠ 0 then return (false, bytes)
    else if bytes.length = 1 then return (true, [])
    else do
      let before ← Attempt.item bytes (← Attempt.minus bytes.length 2)
      if before &&& 0x80 ≠ 0 then return (false, bytes)
      else return (true, ← minimizeFrom bytes last (← Attempt.minus bytes.length 1))

/-- A sign in a byte of its own is needed where the byte before has no room for it. -/
theorem isMinimalForm_of_sign {front : Bytes} {second last : UInt8}
    (empty : last.toNat % 128 = 0) :
    isMinimalForm (front ++ [second] ++ [last]) = true ↔ ¬ second < 0x80 := by
  rw [ScriptNumber.isMinimalForm_concat, ScriptNumber.lt_0x80_iff, Nat.not_lt]
  constructor
  · rintro (nonzero | ⟨other, byte, same, high⟩)
    · exact absurd empty nonzero
    · obtain ⟨-, rfl⟩ := List.append_singleton_inj.mp same
      exact high
  · intro high
    exact Or.inr ⟨front, second, rfl, high⟩

/-- There was padding exactly in forms that are not minimal. -/
theorem dropPadding_eq (bytes : Bytes) :
    dropPadding bytes = pure (!isMinimalForm bytes, ScriptNumber.minimize bytes) := by
  -- where the form is minimal nothing is dropped, and nothing is said to be
  have kept (minimal : isMinimalForm bytes = true) :
      (pure (!isMinimalForm bytes, ScriptNumber.minimize bytes) : Attempt (Bool × Bytes))
        = pure (false, bytes) := by
    rw [minimal, ScriptNumber.minimize_eq_self_iff.mpr minimal]
    rfl
  rcases bytes.eq_nil_or_concat' with rfl | ⟨before, last, rfl⟩
  · rfl
  rw [dropPadding, List.getLast?_concat]
  dsimp only
  by_cases digit : last &&& 0x7f ≠ 0
  · have minimal := (ScriptNumber.and_0x7f_bne_zero last).mp (bne_iff_ne.mpr digit)
    rw [if_pos digit, kept ((ScriptNumber.isMinimalForm_concat before last).mpr (Or.inl minimal))]
  have signOnly : last.toNat % 128 = 0 := by
    by_contra nonzero
    exact digit (bne_iff_ne.mp ((ScriptNumber.and_0x7f_bne_zero last).mpr nonzero))
  rw [if_neg digit]
  rcases before.eq_nil_or_concat' with rfl | ⟨front, second, rfl⟩
  · have padded : isMinimalForm ([] ++ [last]) = false := by
      rw [← Bool.not_eq_true, ScriptNumber.isMinimalForm_concat]
      simp [signOnly]
    rw [padded, minimize_concat, if_neg digit]
    rfl
  have longer : (front ++ [second] ++ [last]).length = front.length + 2 := by simp
  have found : Attempt.item (front ++ [second] ++ [last]) front.length = pure second :=
    Attempt.item_eq (by simp)
  have second_iff : isMinimalForm (front ++ [second] ++ [last]) = true ↔ ¬ second < 0x80 :=
    isMinimalForm_of_sign signOnly
  rw [longer, if_neg (by omega), Attempt.minus_eq (by omega), Attempt.minus_eq (by omega),
    pure_bind, Nat.add_sub_cancel, found, pure_bind, pure_bind]
  by_cases high : second < 0x80
  · have padded : isMinimalForm (front ++ [second] ++ [last]) = false := by
      rw [← Bool.not_eq_true, second_iff]
      exact not_not.mpr high
    rw [if_neg (not_not.mpr ((and_0x80_eq_zero_iff _).mpr high)), minimizeFrom_eq (by simp),
      List.take_of_length_le (by simp), padded, minimize_concat, if_neg digit]
    rfl
  · rw [if_pos ((and_0x80_eq_zero_iff _).not.mpr high), kept (second_iff.mpr high)]

end Positional

/-! ## As operations of scripts -/

section Operations

variable [Primitives]

/-- A number without padding, if it is short enough to be computed with. -/
theorem toNumber_apply (minimal : Bool) (bytes : Bytes) (s : Stack) :
    StackOp.toNumber.apply minimal (bytes :: s)
      = if (encode (value bytes)).length ≤ 4 then .ok (encode (value bytes) :: s)
        else .error .invalidNumberRange := by
  have form := ScriptNumber.isMinimalForm_encode (value bytes)
  have checked : isMinimal (encode (value bytes)) maxNumberSize
      = decide ((encode (value bytes)).length ≤ 4) := by
    rw [isMinimal, form, Bool.and_true]
    rfl
  rw [StackOp.apply, ScriptNumber.minimize_eq_encode]
  rw [checked]
  by_cases short : (encode (value bytes)).length ≤ 4
  · rw [if_pos short, if_pos (decide_eq_true short)]
    rfl
  · rw [if_neg short, if_neg (by simpa using short)]
    rfl

theorem toBinary_apply {minimal : Bool} {n : Bytes} {size : Nat} (bytes : Bytes) (s : Stack)
    (read : operand minimal n = .ok size) (within : size ≤ maxElementSize) :
    StackOp.toBinary.apply minimal (n :: bytes :: s)
      = ScriptNumber.resize bytes size >>= fun form => .ok (form :: s) := by
  have inside : ¬ ((size : Int) < 0 ∨ maxElementSize < size) := by
    omega
  simp only [StackOp.apply, read, Outcome.ok_bind, Int.toNat_natCast, if_neg inside]
  rfl

/-- Dropping padding, in place or as an operation, leaves the shortest form of an integer, and says
whether it dropped any. Padding to a size that has room for the integer gives a form of that size,
and dropping the padding again is as good as dropping the one that was there before. -/
theorem conversions_keep_value (bytes : Bytes) :
    (∃ changed, Positional.dropPadding bytes = pure (changed, minimize bytes) ∧
      (changed = true ↔ minimize bytes ≠ bytes)) ∧
    value (minimize bytes) = value bytes ∧
    isMinimal (minimize bytes) (minimize bytes).length = true ∧
    minimize (minimize bytes) = minimize bytes ∧
    minimize bytes = encode (value bytes) ∧
    (∀ form, value form = value bytes → (encode (value bytes)).length ≤ form.length) ∧
    (∀ minimal s, StackOp.toNumber.apply minimal (bytes :: s)
      = if (encode (value bytes)).length ≤ 4 then .ok (encode (value bytes) :: s)
        else .error .invalidNumberRange) ∧
    ∀ (minimal : Bool) (n : Bytes) (size : Nat) (s : Stack),
      operand minimal n = .ok size → size ≤ 520 →
      if (encode (value bytes)).length ≤ size then
        ∃ form, StackOp.toBinary.apply minimal (n :: bytes :: s) = .ok (form :: s) ∧
          form.length = size ∧ value form = value bytes ∧
          StackOp.toNumber.apply minimal (form :: s) = StackOp.toNumber.apply minimal (bytes :: s)
      else StackOp.toBinary.apply minimal (n :: bytes :: s) = .error .impossibleEncoding := by
  have isMinimalForm := ScriptNumber.isMinimalForm_minimize bytes
  refine ⟨⟨_, Positional.dropPadding_eq bytes, ?_⟩, ScriptNumber.value_minimize bytes, ?_, ?_,
    ScriptNumber.minimize_eq_encode bytes, ?_, fun minimal => toNumber_apply minimal bytes, ?_⟩
  · rw [ne_eq, ScriptNumber.minimize_eq_self_iff, Bool.not_eq_true', Bool.not_eq_true]
  · rw [ScriptNumber.isMinimal_length, isMinimalForm]
  · exact ScriptNumber.minimize_eq_self_iff.mpr isMinimalForm
  · intro form same
    rw [← same]
    exact ScriptNumber.length_encode_value_le form
  · intro minimal n size s read within
    have cases := ScriptNumber.resize_cases bytes size
    rw [toBinary_apply bytes s read within]
    by_cases room : (encode (value bytes)).length ≤ size
    · rw [if_pos room] at cases ⊢
      obtain ⟨form, done, number⟩ := cases
      refine ⟨form, by rw [done]; rfl, ScriptNumber.length_resize done, number, ?_⟩
      rw [toNumber_apply, toNumber_apply, number]
    · rw [if_neg room] at cases ⊢
      rw [cases]
      rfl

end Operations

namespace Padded

local instance : Primitives := Primitives.transparent

/-- The integer -5 in three bytes: it takes four where that is asked for, one when the padding is
dropped, and does not fit into none. -/
theorem conversions_of_five :
    value [5, 0, 0x80] = -5 ∧
      Positional.dropPadding [5, 0, 0x80] = pure (true, [0x85]) ∧
      operand true [4] = .ok 4 ∧
      (∃ form, StackOp.toBinary.apply true [[4], [5, 0, 0x80]] = .ok [form] ∧
        form.length = 4 ∧ value form = -5 ∧ StackOp.toNumber.apply true [form] = .ok [[0x85]]) ∧
      operand true [] = .ok 0 ∧
      StackOp.toBinary.apply true [[], [5, 0, 0x80]] = .error .impossibleEncoding := by
  have five : value [5, 0, 0x80] = -5 := rfl
  have short : encode (-5) = [0x85] := by decide +kernel
  have four : operand true [4] = .ok (4 : Nat) := rfl
  have none : operand true [] = .ok (0 : Nat) := rfl
  obtain ⟨⟨changed, dropped, told⟩, -, -, -, written, -, numbers, sizes⟩ :=
    conversions_keep_value [5, 0, 0x80]
  rw [five, short] at written numbers sizes
  obtain ⟨form, done, length, number, again⟩ := by
    simpa using sizes true [4] 4 [] four (by decide)
  refine ⟨five, ?_, four, ⟨form, done, length, number.trans five, ?_⟩, none, ?_⟩
  · have padded : changed = true := told.mpr (by rw [written]; decide)
    rw [dropped, written, padded]
  · rw [again, numbers]
    rfl
  · simpa using sizes true [] 0 [] none (by decide)

end Padded

end Script

end ScryptLedger
