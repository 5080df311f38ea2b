import Mathlib.Tactic.IntervalCases
import ScryptLedger.Primitives.Transparent
import ScryptLedger.Proofs.Mining.Coinbase
import ScryptLedger.Proofs.Script.Number

/-!
# A coinbase tells one height

A height is written as a zero, as one of sixteen small integers, or as the length
of its minimal form and that form, which takes a byte more where the highest bit
is in use. What follows does not matter: the first byte says which of the three it
is and where it ends. So no height is written as the beginning of another one, and
from the height on from which coinbases have to commit to theirs, one coinbase is
good for one height only.
-/

namespace ScryptLedger.Coinbase

/-! ## Three ways to write a height -/

theorem encode_ne_nil {number : Nat} (positive : 0 < number) :
    ScriptNumber.encode number ≠ [] := by
  intro empty
  have value := ScriptNumber.value_encode number
  rw [empty] at value
  have zero : (0 : Int) = number := value
  omega

/-- A single byte that is the form of a natural number is this number, without a sign. -/
theorem toNat_of_encode {number : Nat} {b : UInt8} (form : ScriptNumber.encode number = [b]) :
    b.toNat < 128 ∧ b.toNat = number ∨ number = 0 := by
  have digit : ScriptNumber.digits [] b = b.toNat % 128 := by
    rw [ScriptNumber.digits, ofLittleEndian, List.length_nil]
    omega
  have value := ScriptNumber.value_encode number
  rw [form, ← List.nil_append [b], ScriptNumber.value_concat, digit] at value
  by_cases unsigned : b.toNat < 128
  · rw [if_pos unsigned, Nat.mod_eq_of_lt unsigned, Int.natCast_inj] at value
    exact Or.inl ⟨unsigned, value⟩
  · rw [if_neg unsigned] at value
    omega

/-- A number above the small ones is pushed behind the length of its minimal form. -/
theorem push_encode {number : Nat} (large : 16 < number)
    (short : (ScriptNumber.encode number).length ≤ 75) :
    Script.push (ScriptNumber.encode number) =
      UInt8.ofNat (ScriptNumber.encode number).length :: ScriptNumber.encode number := by
  match form : ScriptNumber.encode number with
  | [] => exact absurd form (encode_ne_nil (Nat.zero_lt_of_lt large))
  | [b] =>
    obtain ⟨unsigned, same⟩ := (toNat_of_encode form).resolve_right (Nat.ne_zero_of_lt large)
    have unlisted : ¬ (1 ≤ b ∧ b ≤ 16) := by
      rintro ⟨-, listed⟩
      rw [UInt8.le_iff_toNat_le, same] at listed
      exact Nat.not_le.mpr large listed
    have positive : b ≠ 0x81 := by
      rintro rfl
      exact absurd unsigned (by decide)
    rw [Script.push, if_neg unlisted, if_neg positive]
    rfl
  | first :: second :: rest =>
    rw [form] at short
    simp only [Script.push, if_pos short]

section Large

variable {height : Nat} (large : 16 < height) (small : height < UInt32.size)
include large small

theorem length_encode_bounds :
    1 ≤ (ScriptNumber.encode height).length ∧ (ScriptNumber.encode height).length ≤ 5 := by
  constructor
  · exact List.length_pos_iff.mpr (encode_ne_nil (Nat.zero_lt_of_lt large))
  · have four : (height : Int).natAbs < 256 ^ 4 := small
    exact ScriptNumber.length_encode_le four

theorem heightCommitment_large :
    heightCommitment height =
      UInt8.ofNat (ScriptNumber.encode height).length :: ScriptNumber.encode height := by
  have short := (length_encode_bounds large small).2
  rw [heightCommitment, Script.pushInt, if_neg (by omega), if_neg (by omega)]
  exact push_encode large (short.trans (by decide))

/-- Behind its length, the minimal form of a height is read back. -/
theorem committedHeight?_large (suffix : Bytes) :
    committedHeight? (heightCommitment height ++ suffix) = some height := by
  obtain ⟨positive, short⟩ := length_encode_bounds large small
  rw [heightCommitment_large large small, List.cons_append]
  generalize form : ScriptNumber.encode height = bytes at positive short ⊢
  have length : (UInt8.ofNat bytes.length).toNat = bytes.length :=
    UInt8.toNat_ofNat_of_lt' (Nat.lt_of_le_of_lt short (by decide))
  have first : UInt8.ofNat bytes.length ≠ 0x00 := by
    intro zero
    rw [zero] at length
    exact absurd length (Nat.ne_of_lt positive)
  have unlisted : ¬ (0x51 ≤ UInt8.ofNat bytes.length ∧ UInt8.ofNat bytes.length ≤ 0x60) := by
    rintro ⟨listed, -⟩
    rw [UInt8.le_iff_toNat_le, length] at listed
    exact absurd (listed.trans short) (by decide)
  have held : bytes.length ≤ 8 ∧ bytes.length ≤ (bytes ++ suffix).length := by
    rw [List.length_append]
    omega
  have read : ScriptNumber.decode bytes true 8 = .ok (height : Int) :=
    ScriptNumber.decode_minimal_eq_ok_iff.mpr ⟨held.1, form.symm⟩
  have range : (0 : Int) ≤ height ∧ (height : Int) < UInt32.size := by
    omega
  rw [committedHeight?, if_neg first, if_neg unlisted, length, if_pos held, List.take_left, read]
  dsimp only
  rw [if_pos range, Int.toNat_natCast]

end Large

/-- A height is read back whatever follows it. -/
theorem committedHeight?_append {height : Nat} (small : height < UInt32.size) (suffix : Bytes) :
    committedHeight? (heightCommitment height ++ suffix) = some height := by
  rcases Nat.lt_or_ge 16 height with large | listed
  · exact committedHeight?_large large small suffix
  · interval_cases height <;> rfl

/-! ## Coinbases -/

theorem check_eq_ok_iff {coinbase : Transaction} {height : Nat} {params : ChainParams} :
    check coinbase height params = .ok () ↔
      coinbase.isCoinbase = true ∧ isCoinbaseScriptSize (script coinbase).length = true ∧
        (params.bip34Height ≤ height → heightCommitment height <+: script coinbase) := by
  simp only [check, Outcome.refuse_eq_ok_iff, Bool.not_eq_true', Bool.not_eq_false,
    Bool.and_eq_true, decide_eq_true_eq, not_and, ← List.isPrefixOf_iff_prefix,
    Outcome.pure_eq_ok_iff, and_true]

/-- From the height on from which coinbases commit to theirs, one that is good for a height
commits to it. -/
theorem committedHeight?_of_check {coinbase : Transaction} {height : UInt32}
    {params : ChainParams} (late : params.bip34Height ≤ height.toNat)
    (passes : check coinbase height.toNat params = .ok ()) :
    committedHeight? (script coinbase) = some height.toNat := by
  obtain ⟨-, -, commits⟩ := check_eq_ok_iff.mp passes
  obtain ⟨suffix, whole⟩ := commits late
  rw [← whole]
  exact committedHeight?_append height.toNat_lt suffix

/-- A coinbase that is good for a height is refused at every other one, for its height. -/
theorem check_eq_coinbaseHeight {coinbase : Transaction} {height other : UInt32}
    {params : ChainParams} (late : params.bip34Height ≤ height.toNat)
    (passes : check coinbase height.toNat params = .ok ())
    (late' : params.bip34Height ≤ other.toNat) (different : other ≠ height) :
    check coinbase other.toNat params = .error .coinbaseHeight := by
  obtain ⟨kind, length, -⟩ := check_eq_ok_iff.mp passes
  have tells := committedHeight?_of_check late passes
  have apart : (heightCommitment other.toNat).isPrefixOf (script coinbase) = false := by
    rw [Bool.eq_false_iff, Ne, List.isPrefixOf_iff_prefix]
    rintro ⟨suffix, whole⟩
    rw [← whole, committedHeight?_append other.toNat_lt, Option.some_inj] at tells
    exact different (UInt32.toNat_inj.mp tells)
  simp only [check, kind, length, apart, late', Bool.not_true, Bool.false_eq_true, if_false,
    decide_true, Bool.not_false, Bool.and_self, if_true]
  rfl

/-- A height is read back from what is written for it and any bytes that follow. So no height is
written as the beginning of another; and a coinbase that has to tell its height and is good for one
tells it, and is refused for its height at every other. -/
theorem heights_told :
    (∀ (height : UInt32) (suffix : Bytes),
      committedHeight? (heightCommitment height.toNat ++ suffix) = some height.toNat) ∧
    (∀ height other : UInt32,
      heightCommitment height.toNat <+: heightCommitment other.toNat → height = other) ∧
    ∀ (coinbase : Transaction) (height : UInt32) (params : ChainParams),
      params.bip34Height ≤ height.toNat → check coinbase height.toNat params = .ok () →
      committedHeight? (script coinbase) = some height.toNat ∧
        ∀ other : UInt32, params.bip34Height ≤ other.toNat → other ≠ height →
          check coinbase other.toNat params = .error .coinbaseHeight := by
  refine ⟨fun height suffix => committedHeight?_append height.toNat_lt suffix, ?_, ?_⟩
  · rintro height other ⟨suffix, longer⟩
    have tells := committedHeight?_append height.toNat_lt suffix
    have tells' := committedHeight?_append other.toNat_lt []
    rw [List.append_nil, ← longer, tells, Option.some_inj] at tells'
    exact UInt32.toNat_inj.mp tells'
  · intro coinbase height params late passes
    refine ⟨committedHeight?_of_check late passes, ?_⟩
    intro other late' different
    exact check_eq_coinbaseHeight late passes late' different

namespace SignByte

local instance : Primitives := Primitives.transparent

/-- The lowest height whose form has a byte for the sign alone, and the height below it. -/
theorem heights_told_with_sign_byte :
    committedHeight? (script (build 0x80000000 [])) = some 0x80000000 ∧
      check (build 0x80000000 []) 0x80000000 ChainParams.main = .ok () ∧
      check (build 0x80000000 []) 0x7fffffff ChainParams.main = .error .coinbaseHeight ∧
      ¬ heightCommitment 0x7fffffff <+: heightCommitment 0x80000000 := by
  have passes : check (build 0x80000000 []) 0x80000000 ChainParams.main = .ok () := by
    decide +kernel
  obtain ⟨-, separate, told⟩ := heights_told
  obtain ⟨tells, refused⟩ := told (build 0x80000000 []) 0x80000000 ChainParams.main (by decide)
    passes
  refine ⟨tells, passes, refused 0x7fffffff (by decide) (by decide), ?_⟩
  intro longer
  exact absurd (separate 0x7fffffff 0x80000000 longer) (by decide)

end SignByte

end ScryptLedger.Coinbase
