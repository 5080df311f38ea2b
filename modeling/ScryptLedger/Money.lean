/-!
# Amounts of money

Amounts are counted in the smallest unit, in signed words of 64 bits. A sum, a
difference or a product that its word does not hold wraps around. Exact sums are
what the words are compared with.
-/

namespace ScryptLedger

def unitsPerCoin : Int := 100000000

/-- The most money there can be: ten thousand million coins. -/
def maxMoney : Int := 10000000000 * unitsPerCoin

/-- Whether an amount is neither negative nor more than all the money there can be. -/
def inMoneyRange (value : Int) : Bool :=
  0 ≤ value && value ≤ maxMoney

namespace Money

/-- What a signed word of 64 bits keeps of a number. -/
def wrap (amount : Int) : Int :=
  (amount + 0x8000000000000000) % 0x10000000000000000 - 0x8000000000000000

/-- Adds amounts up in a word, one after the other. -/
def sum (amounts : List Int) : Int := amounts.foldl (fun sum amount => wrap (sum + amount)) 0

/-- The exact sum of some amounts. -/
def total : List Int → Int
  | [] => 0
  | amount :: rest => amount + total rest

@[simp]
theorem total_nil : total [] = 0 := rfl

@[simp]
theorem total_cons (amount : Int) (rest : List Int) :
    total (amount :: rest) = amount + total rest :=
  rfl

@[simp]
theorem total_append (first second : List Int) :
    total (first ++ second) = total first + total second := by
  induction first with
  | nil => exact (Int.zero_add _).symm
  | cons amount rest ih => rw [List.cons_append, total_cons, total_cons, ih, Int.add_assoc]

end Money

end ScryptLedger
