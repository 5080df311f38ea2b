import ScryptLedger.Proofs.Outcome
import ScryptLedger.Proofs.Wire.Decoder
import ScryptLedger.Proofs.Wire.Length
import ScryptLedger.Script.StackOp

/-!
# How long elements get

Elements grow only where they are joined, padded, or computed as integers. The
first two are held to the largest size; integers that are read have four bytes,
so what is computed from them has six at most.
-/

namespace ScryptLedger

namespace ScriptNumber

theorem natAbs_value_lt (bytes : Bytes) : (value bytes).natAbs < 256 ^ bytes.length := by
  have bound := ofLittleEndian_lt bytes
  rw [value]
  cases last : bytes.getLast? with
  | none => exact Nat.pow_pos (by decide)
  | some high =>
    dsimp only
    split
    · exact bound
    · obtain ⟨before, length⟩ : ∃ before, bytes.length = before + 1 :=
        Nat.exists_eq_add_one.mpr (List.length_pos_iff.mpr (by rintro rfl; simp at last))
      have sign : 0x80 <<< (8 * (bytes.length - 1)) < 256 ^ bytes.length := by
        have places : 2 ^ (8 * before) = 256 ^ before := Nat.pow_mul 2 8 before
        have positive : 0 < 256 ^ before := Nat.pow_pos (by decide)
        rw [length, Nat.add_sub_cancel, Nat.shiftLeft_eq, places, Nat.pow_succ]
        omega
      generalize 0x80 <<< (8 * (bytes.length - 1)) = highest at sign
      omega

theorem natAbs_lt_of_decode {bytes : Bytes} {minimal : Bool} {maxLength : Nat} {n : Int}
    (read : decode bytes minimal maxLength = .ok n) : n.natAbs < 256 ^ maxLength := by
  obtain ⟨short, read⟩ := Outcome.refuse_eq_ok_iff.mp read
  obtain ⟨-, read⟩ := Outcome.refuse_eq_ok_iff.mp read
  cases Outcome.pure_eq_ok_iff.mp read
  calc (value bytes).natAbs < 256 ^ bytes.length := natAbs_value_lt bytes
    _ ≤ 256 ^ maxLength := Nat.pow_le_pow_right (by decide) (Nat.not_lt.mp short)

theorem length_resize {bytes result : Bytes} {size : Nat}
    (done : resize bytes size = .ok result) : result.length = size := by
  obtain ⟨room, done⟩ := Outcome.refuse_eq_ok_iff.mp done
  generalize minimize bytes = short at room done
  cases ends : short.getLast? with
  | none =>
    simp only [ends] at done
    cases Outcome.pure_eq_ok_iff.mp done
    exact List.length_replicate
  | some last =>
    have nonempty : 0 < short.length := List.length_pos_iff.mpr (by rintro rfl; simp at ends)
    simp only [ends] at done
    by_cases exact : short.length = size
    · rw [if_pos exact] at done
      cases Outcome.pure_eq_ok_iff.mp done
      exact exact
    · rw [if_neg exact] at done
      cases Outcome.pure_eq_ok_iff.mp done
      simp only [List.length_append, List.length_cons, List.length_dropLast,
        List.length_replicate, List.length_nil]
      omega

theorem length_ofBool_le (b : Bool) : (ofBool b).length ≤ 1 := by
  cases b <;> decide

end ScriptNumber

namespace Script

open ScriptNumber (encode)

/-- Whether every element of a stack is as short as elements have to be. -/
def Fits (stack : Stack) : Prop := ∀ element ∈ stack, element.length ≤ maxElementSize

instance (stack : Stack) : Decidable (Fits stack) :=
  inferInstanceAs (Decidable (∀ element ∈ stack, element.length ≤ maxElementSize))

namespace Fits

variable {stack : Stack} {element : Bytes}

theorem nil : Fits [] := by simp [Fits]

@[simp]
theorem cons_iff : Fits (element :: stack) ↔ element.length ≤ maxElementSize ∧ Fits stack :=
  List.forall_mem_cons

theorem of_subset {left : Stack} (kept : left ⊆ stack) (fits : Fits stack) : Fits left :=
  fun element held => fits element (kept held)

end Fits

/-- An integer of up to five bytes takes little room. -/
theorem length_encode_le_max {n : Int} (small : n.natAbs < 256 ^ 5) :
    (encode n).length ≤ maxElementSize := by
  have length := ScriptNumber.length_encode_le small
  rw [maxElementSize]
  omega

theorem length_ofBool_le_max (b : Bool) : (ScriptNumber.ofBool b).length ≤ maxElementSize :=
  (ScriptNumber.length_ofBool_le b).trans (by decide)

theorem length_hash_le [Primitives] (f : HashFunction) (data : Bytes) :
    (f.apply data).length ≤ maxElementSize := by
  cases f <;> simp [HashFunction.apply, Digest.length_bytes, maxElementSize]

theorem natAbs_operand_lt {minimal : Bool} {element : Bytes} {n : Int}
    (read : operand minimal element = .ok n) : n.natAbs < 256 ^ 4 :=
  ScriptNumber.natAbs_lt_of_decode read

theorem natAbs_truth_le (b : Bool) : (truth b).natAbs ≤ 1 := by
  cases b <;> decide

theorem natAbs_unary_lt (f : Unary) {a : Int} (small : a.natAbs < 256 ^ 4) :
    (f.apply a).natAbs < 256 ^ 5 := by
  cases f with
  | isZero => exact (natAbs_truth_le _).trans_lt (by decide)
  | isNonZero => exact (natAbs_truth_le _).trans_lt (by decide)
  | increment | decrement | negate | abs => simp only [Unary.apply]; omega

theorem natAbs_binary_lt (f : Binary) {a b result : Int} (smallA : a.natAbs < 256 ^ 4)
    (smallB : b.natAbs < 256 ^ 4) (done : f.apply a b = .ok result) :
    result.natAbs < 256 ^ 5 := by
  cases f with
  | add | sub =>
    cases Outcome.pure_eq_ok_iff.mp done
    omega
  | div =>
    obtain ⟨-, done⟩ := Outcome.refuse_eq_ok_iff.mp done
    cases Outcome.pure_eq_ok_iff.mp done
    rw [Int.natAbs_tdiv]
    exact (Nat.div_le_self _ _).trans_lt (smallA.trans (by decide))
  | mod =>
    obtain ⟨-, done⟩ := Outcome.refuse_eq_ok_iff.mp done
    cases Outcome.pure_eq_ok_iff.mp done
    rw [Int.natAbs_tmod]
    exact (Nat.mod_le _ _).trans_lt (smallA.trans (by decide))
  | min | max =>
    cases Outcome.pure_eq_ok_iff.mp done
    split <;> omega
  | both | either | equal | unequal | less | greater | lessOrEqual | greaterOrEqual =>
    cases Outcome.pure_eq_ok_iff.mp done
    exact (natAbs_truth_le _).trans_lt (by decide)

theorem Shuffle.subset_of_moved {s : Shuffle} {stack result : Stack}
    (done : s.run? stack = some result) : result ⊆ stack := by
  fun_cases Shuffle.run? s stack <;> simp only [Shuffle.run?] at done
  all_goals cases done
  all_goals
    intro element held
    simp only [List.mem_cons] at held ⊢
    tauto

namespace StackOp

variable [Primitives] {minimal : Bool} {op : StackOp} {stack result : Stack}

/-- Whether an operation leaves no elements but those that were there. -/
def isRearrangement : StackOp → Bool
  | verify | shuffle _ | ifDup | pick | roll | equalVerify | numEqualVerify => true
  | _ => false

/-- Whether an operation makes new byte strings out of those that were there. -/
def isSplice : StackOp → Bool
  | cat | split | toBinary | toNumber | reverse | bitwise _ => true
  | _ => false

theorem subset_of_apply (rearranges : op.isRearrangement = true)
    (done : op.apply minimal stack = .ok result) : result ⊆ stack := by
  cases op with
  | shuffle s =>
    cases moved : s.run? stack with
    | none => simp [apply, moved] at done
    | some left =>
      simp only [apply, moved] at done
      cases Outcome.pure_eq_ok_iff.mp done
      exact Shuffle.subset_of_moved moved
  | verify =>
    rcases stack with _ | ⟨a, left⟩
    · exact absurd done Outcome.throw_ne_ok
    obtain ⟨-, done⟩ := Outcome.require_eq_ok_iff.mp done
    cases Outcome.pure_eq_ok_iff.mp done
    exact List.subset_cons_self _ _
  | ifDup =>
    rcases stack with _ | ⟨a, left⟩
    · exact absurd done Outcome.throw_ne_ok
    cases Outcome.pure_eq_ok_iff.mp done
    split <;> simp
  | pick | roll =>
    rcases stack with _ | ⟨a, left⟩
    · exact absurd done Outcome.throw_ne_ok
    obtain ⟨n, -, done⟩ := Outcome.bind_eq_ok_iff.mp done
    cases found : left[n.toNat]? with
    | none => simp [found] at done
    | some b =>
      simp only [found] at done
      obtain ⟨-, done⟩ := Outcome.refuse_eq_ok_iff.mp done
      cases Outcome.pure_eq_ok_iff.mp done
      have held : b ∈ left := List.mem_of_getElem? found
      have kept : left.eraseIdx n.toNat ⊆ left := (List.eraseIdx_sublist _ _).subset
      grind
  | equalVerify =>
    rcases stack with _ | ⟨b, _ | ⟨a, left⟩⟩
    · exact absurd done Outcome.throw_ne_ok
    · exact absurd done Outcome.throw_ne_ok
    obtain ⟨-, done⟩ := Outcome.require_eq_ok_iff.mp done
    cases Outcome.pure_eq_ok_iff.mp done
    simp
  | numEqualVerify =>
    rcases stack with _ | ⟨b, _ | ⟨a, left⟩⟩
    · exact absurd done Outcome.throw_ne_ok
    · exact absurd done Outcome.throw_ne_ok
    obtain ⟨_, -, done⟩ := Outcome.bind_eq_ok_iff.mp done
    obtain ⟨_, -, done⟩ := Outcome.bind_eq_ok_iff.mp done
    obtain ⟨-, done⟩ := Outcome.require_eq_ok_iff.mp done
    cases Outcome.pure_eq_ok_iff.mp done
    simp
  | _ => cases rearranges

/-- Joining, splitting, padding and shortening byte strings makes none too long. -/
theorem fits_of_apply_strings (splices : op.isSplice = true) (fits : Fits stack)
    (done : op.apply minimal stack = .ok result) : Fits result := by
  cases op with
  | cat =>
    rcases stack with _ | ⟨b, _ | ⟨a, left⟩⟩
    · exact absurd done Outcome.throw_ne_ok
    · exact absurd done Outcome.throw_ne_ok
    obtain ⟨room, done⟩ := Outcome.refuse_eq_ok_iff.mp done
    cases Outcome.pure_eq_ok_iff.mp done
    simp only [Fits.cons_iff, List.length_append] at fits ⊢
    exact ⟨Nat.not_lt.mp room, fits.2.2⟩
  | split =>
    rcases stack with _ | ⟨n, _ | ⟨a, left⟩⟩
    · exact absurd done Outcome.throw_ne_ok
    · exact absurd done Outcome.throw_ne_ok
    obtain ⟨_, -, done⟩ := Outcome.bind_eq_ok_iff.mp done
    obtain ⟨-, done⟩ := Outcome.refuse_eq_ok_iff.mp done
    cases Outcome.pure_eq_ok_iff.mp done
    simp only [Fits.cons_iff, List.length_drop, List.length_take] at fits ⊢
    exact ⟨by omega, by omega, fits.2.2⟩
  | toBinary =>
    rcases stack with _ | ⟨n, _ | ⟨a, left⟩⟩
    · exact absurd done Outcome.throw_ne_ok
    · exact absurd done Outcome.throw_ne_ok
    obtain ⟨size, -, done⟩ := Outcome.bind_eq_ok_iff.mp done
    obtain ⟨room, done⟩ := Outcome.refuse_eq_ok_iff.mp done
    obtain ⟨padded, resized, done⟩ := Outcome.bind_eq_ok_iff.mp done
    cases Outcome.pure_eq_ok_iff.mp done
    have length := ScriptNumber.length_resize resized
    simp only [Fits.cons_iff] at fits ⊢
    exact ⟨by omega, fits.2.2⟩
  | toNumber =>
    rcases stack with _ | ⟨a, left⟩
    · exact absurd done Outcome.throw_ne_ok
    obtain ⟨short, done⟩ := Outcome.require_eq_ok_iff.mp done
    cases Outcome.pure_eq_ok_iff.mp done
    have length : (ScriptNumber.minimize a).length ≤ maxNumberSize := by
      simpa using (Bool.and_eq_true_iff.mp short).1
    simp only [Fits.cons_iff] at fits ⊢
    exact ⟨length.trans (by decide), fits.2⟩
  | reverse =>
    rcases stack with _ | ⟨a, left⟩
    · exact absurd done Outcome.throw_ne_ok
    cases Outcome.pure_eq_ok_iff.mp done
    simpa only [Fits.cons_iff, List.length_reverse] using fits
  | bitwise f =>
    rcases stack with _ | ⟨b, _ | ⟨a, left⟩⟩
    · exact absurd done Outcome.throw_ne_ok
    · exact absurd done Outcome.throw_ne_ok
    obtain ⟨-, done⟩ := Outcome.require_eq_ok_iff.mp done
    cases Outcome.pure_eq_ok_iff.mp done
    simp only [Fits.cons_iff, List.length_zipWith] at fits ⊢
    exact ⟨by omega, fits.2.2⟩
  | _ => cases splices

/-- What is computed is short. -/
theorem fits_of_apply_computed (rearranges : op.isRearrangement = false)
    (splices : op.isSplice = false) (modest : ∀ n, op = .number n → n.natAbs ≤ 16)
    (few : stack.length ≤ 1000) (fits : Fits stack)
    (done : op.apply minimal stack = .ok result) : Fits result := by
  cases op with
  | number n =>
    cases Outcome.pure_eq_ok_iff.mp done
    have small := modest n rfl
    exact Fits.cons_iff.mpr ⟨length_encode_le_max (by omega), fits⟩
  | depth =>
    cases Outcome.pure_eq_ok_iff.mp done
    exact Fits.cons_iff.mpr ⟨length_encode_le_max (by omega), fits⟩
  | size =>
    rcases stack with _ | ⟨a, left⟩
    · exact absurd done Outcome.throw_ne_ok
    cases Outcome.pure_eq_ok_iff.mp done
    have short := (Fits.cons_iff.mp fits).1
    rw [maxElementSize] at short
    exact Fits.cons_iff.mpr ⟨length_encode_le_max (by omega), fits⟩
  | equal =>
    rcases stack with _ | ⟨b, _ | ⟨a, left⟩⟩
    · exact absurd done Outcome.throw_ne_ok
    · exact absurd done Outcome.throw_ne_ok
    cases Outcome.pure_eq_ok_iff.mp done
    simp only [Fits.cons_iff] at fits ⊢
    exact ⟨length_ofBool_le_max _, fits.2.2⟩
  | unary f =>
    rcases stack with _ | ⟨a, left⟩
    · exact absurd done Outcome.throw_ne_ok
    obtain ⟨n, read, done⟩ := Outcome.bind_eq_ok_iff.mp done
    cases Outcome.pure_eq_ok_iff.mp done
    have small := natAbs_unary_lt f (natAbs_operand_lt read)
    exact Fits.cons_iff.mpr ⟨length_encode_le_max small, (Fits.cons_iff.mp fits).2⟩
  | binary f =>
    rcases stack with _ | ⟨b, _ | ⟨a, left⟩⟩
    · exact absurd done Outcome.throw_ne_ok
    · exact absurd done Outcome.throw_ne_ok
    obtain ⟨right, readRight, done⟩ := Outcome.bind_eq_ok_iff.mp done
    obtain ⟨first, readFirst, done⟩ := Outcome.bind_eq_ok_iff.mp done
    obtain ⟨n, computed, done⟩ := Outcome.bind_eq_ok_iff.mp done
    cases Outcome.pure_eq_ok_iff.mp done
    have small := natAbs_binary_lt f (natAbs_operand_lt readFirst) (natAbs_operand_lt readRight)
      computed
    simp only [Fits.cons_iff] at fits ⊢
    exact ⟨length_encode_le_max small, fits.2.2⟩
  | within =>
    rcases stack with _ | ⟨max, _ | ⟨min, _ | ⟨a, left⟩⟩⟩
    · exact absurd done Outcome.throw_ne_ok
    · exact absurd done Outcome.throw_ne_ok
    · exact absurd done Outcome.throw_ne_ok
    obtain ⟨_, -, done⟩ := Outcome.bind_eq_ok_iff.mp done
    obtain ⟨_, -, done⟩ := Outcome.bind_eq_ok_iff.mp done
    obtain ⟨_, -, done⟩ := Outcome.bind_eq_ok_iff.mp done
    cases Outcome.pure_eq_ok_iff.mp done
    simp only [Fits.cons_iff] at fits ⊢
    exact ⟨length_ofBool_le_max _, fits.2.2.2⟩
  | hash f =>
    rcases stack with _ | ⟨a, left⟩
    · exact absurd done Outcome.throw_ne_ok
    cases Outcome.pure_eq_ok_iff.mp done
    exact Fits.cons_iff.mpr ⟨length_hash_le f a, (Fits.cons_iff.mp fits).2⟩
  | _ => simp [isRearrangement, isSplice] at rearranges splices

/-- No operation makes an element too long. -/
theorem fits_of_apply (modest : ∀ n, op = .number n → n.natAbs ≤ 16)
    (few : stack.length ≤ 1000) (fits : Fits stack)
    (done : op.apply minimal stack = .ok result) : Fits result := by
  cases rearranges : op.isRearrangement with
  | true => exact fits.of_subset (subset_of_apply rearranges done)
  | false =>
    cases splices : op.isSplice with
    | true => exact fits_of_apply_strings splices fits done
    | false => exact fits_of_apply_computed rearranges splices modest few fits done

end StackOp

end Script

end ScryptLedger
