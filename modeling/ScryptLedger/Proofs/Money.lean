import Mathlib.Algebra.Ring.Int.Defs
import ScryptLedger.Money

/-!
# Amounts in words

A word keeps a number up to multiples of 2^64. So a sum that is formed in words is
the word of the exact sum, whatever happened to the sums before it, and it is exact
where the exact sum is in the range of a word. Amounts that are not negative never
come to more in a word than they are.
-/

namespace ScryptLedger

theorem inMoneyRange_iff {value : Int} :
    inMoneyRange value = true ↔ 0 ≤ value ∧ value ≤ maxMoney := by
  simp [inMoneyRange]

namespace Money

theorem total_eq_sum (amounts : List Int) : total amounts = amounts.sum := by
  induction amounts with
  | nil => rfl
  | cons amount rest ih => rw [total_cons, List.sum_cons, ih]

/-- No amount is more than the sum, where none is negative. -/
theorem le_total {amounts : List Int} (positive : ∀ amount ∈ amounts, 0 ≤ amount) :
    0 ≤ total amounts ∧ ∀ amount ∈ amounts, amount ≤ total amounts := by
  induction amounts with
  | nil => exact ⟨Int.le_refl 0, fun _ held => nomatch held⟩
  | cons first rest ih =>
    obtain ⟨here, others⟩ := List.forall_mem_cons.mp positive
    obtain ⟨sum, each⟩ := ih others
    rw [total_cons]
    refine ⟨by omega, List.forall_mem_cons.mpr ⟨by omega, fun amount later => ?_⟩⟩
    have := each amount later
    omega

/-! ## Words -/

theorem wrap_bounds (amount : Int) : -2 ^ 63 ≤ wrap amount ∧ wrap amount < 2 ^ 63 := by
  unfold wrap
  omega

/-- The numbers in its range, and no others, are what a word holds exactly. -/
theorem wrap_eq_self_iff {amount : Int} :
    wrap amount = amount ↔ -2 ^ 63 ≤ amount ∧ amount < 2 ^ 63 := by
  unfold wrap
  omega

/-- A word holds what two amounts of money come to. -/
theorem wrap_add_of_ranged {a b : Int} (first : inMoneyRange a = true)
    (second : inMoneyRange b = true) : wrap (a + b) = a + b := by
  have wide : 2 * maxMoney < 2 ^ 63 := by decide
  rw [inMoneyRange_iff] at first second
  exact wrap_eq_self_iff.mpr (by omega)

theorem wrap_of_ranged {amount : Int} (ranged : inMoneyRange amount = true) :
    wrap amount = amount := by
  have whole := wrap_add_of_ranged ranged (by decide : inMoneyRange 0 = true)
  rwa [Int.add_zero] at whole

@[simp]
theorem wrap_wrap (amount : Int) : wrap (wrap amount) = wrap amount :=
  wrap_eq_self_iff.mpr (wrap_bounds amount)

theorem wrap_le_self {amount : Int} (positive : 0 ≤ amount) : wrap amount ≤ amount := by
  unfold wrap
  omega

theorem wrap_wrap_add (a b : Int) : wrap (wrap a + b) = wrap (a + b) := by
  unfold wrap
  omega

theorem wrap_add_wrap (a b : Int) : wrap (a + wrap b) = wrap (a + b) := by
  unfold wrap
  omega

theorem wrap_wrap_sub (a b : Int) : wrap (wrap a - b) = wrap (a - b) := by
  unfold wrap
  omega

theorem wrap_sub_wrap (a b : Int) : wrap (a - wrap b) = wrap (a - b) := by
  unfold wrap
  omega

theorem toInt_ofInt (amount : Int) : (Int64.ofInt amount).toInt = wrap amount := by
  have size : Int64.size = 2 ^ 64 := rfl
  rw [Int64.toInt_ofInt, Int.bmod_def, wrap, size]
  split <;> omega

/-! ## Sums -/

/-- Whatever happens on the way, a sum that is formed in words is the word of the exact sum. -/
theorem sum_eq_wrap (amounts : List Int) : sum amounts = wrap (total amounts) := by
  have fold (amounts : List Int) (start : Int) :
      amounts.foldl (fun sum amount => wrap (sum + amount)) (wrap start)
        = wrap (start + total amounts) := by
    induction amounts generalizing start with
    | nil => rw [total_nil, Int.add_zero, List.foldl_nil]
    | cons amount rest ih =>
      rw [List.foldl_cons, wrap_wrap_add, ih, total_cons, Int.add_assoc]
  have zero : wrap 0 = 0 := by decide
  have whole := fold amounts 0
  rwa [zero, Int.zero_add] at whole

/-- Taking amounts away one after the other takes their sum away. -/
theorem wrap_foldl_sub (amounts : List Int) (start : Int) :
    wrap (amounts.foldl (fun rest amount => wrap (rest - amount)) start)
      = wrap (start - total amounts) := by
  induction amounts generalizing start with
  | nil => rw [total_nil, Int.sub_zero, List.foldl_nil]
  | cons amount rest ih =>
    rw [List.foldl_cons, ih, wrap_wrap_sub, total_cons, Int.sub_sub]

end Money

end ScryptLedger
