import Mathlib.Data.FinEnum
import Mathlib.Order.Interval.Finset.Nat
import ScryptLedger.Proofs.Pow.Words
import ScryptLedger.Subsidy

/-!
# Drawing a number uniformly

The words of 32 bits are cut into as many equal parts as a draw has results, and
a few words are left over. A word stands for the result whose part it lies in, and
a draw passes over the words that are left over. So as many words stand for one
result as for any other, and at least half of all words stand for some result.

A machine forms sizes and quotients in words of 64 bits and the result in one of
32. It treats the one range apart whose size 32 bits do not hold.
-/

namespace ScryptLedger

/-- The next words of a generator. -/
def Twister.outputs : (count : Nat) → Twister → List UInt32
  | 0, _ => []
  | count + 1, twister => twister.next.1 :: outputs count twister.next.2

namespace UniformDraw

/-- The words that stand for a result. -/
def accepted (low high result : Nat) : Finset UInt32 :=
  Finset.univ.filter fun word => result? low high word = some result

/-- The words that stand for some result. -/
def acceptedAny (low high : Nat) : Finset UInt32 :=
  Finset.univ.filter fun word => (result? low high word).isSome

/-! ## The parts that the words are cut into -/

theorem succ_div_succ (a range : Nat) :
    (a + 1) / (range + 1) = a / (range + 1) + if a % (range + 1) = range then 1 else 0 := by
  have exact : range + 1 ∣ a + 1 ↔ a % (range + 1) = range := by
    rw [Nat.dvd_iff_mod_eq_zero]
    exact Nat.succ_mod_succ_eq_zero_iff
  simp only [Nat.succ_div, exact]

/-- As many words go into each part as there is room for. -/
theorem bucketSize_eq (range : Nat) : bucketSize range = 2 ^ 32 / (range + 1) :=
  (succ_div_succ 0xffffffff range).symm

section Parts

variable {range : Nat} (small : range < 2 ^ 32)

include small

theorem bucketSize_pos : 0 < bucketSize range := by
  rw [bucketSize_eq]
  exact Nat.div_pos small (Nat.succ_pos range)

omit small in
/-- The parts do not reach beyond the words. -/
theorem buckets_le (range : Nat) : (range + 1) * bucketSize range ≤ 2 ^ 32 := by
  rw [bucketSize_eq]
  exact Nat.mul_div_le (2 ^ 32) (range + 1)

/-- Fewer words are left over than there are parts, and so fewer than the parts hold. -/
theorem half_le_buckets : 2 ^ 31 ≤ (range + 1) * bucketSize range := by
  have held : range + 1 ≤ (range + 1) * bucketSize range :=
    Nat.le_mul_of_pos_right (range + 1) (bucketSize_pos small)
  have left : 2 ^ 32 % (range + 1) < range + 1 := Nat.mod_lt _ (Nat.succ_pos range)
  have all : (range + 1) * (2 ^ 32 / (range + 1)) + 2 ^ 32 % (range + 1) = 2 ^ 32 :=
    Nat.div_add_mod (2 ^ 32) (range + 1)
  rw [← bucketSize_eq] at all
  omega

end Parts

/-- As many words lie between two bounds as numbers do. -/
theorem card_words_between {start stop : Nat} (inside : stop ≤ 2 ^ 32) :
    (Finset.univ.filter fun word : UInt32 => start ≤ word.toNat ∧ word.toNat < stop).card
      = stop - start := by
  have numbers : (Finset.univ.filter fun word : UInt32 =>
      start ≤ word.toNat ∧ word.toNat < stop).image UInt32.toNat = Finset.Ico start stop := by
    ext n
    simp only [Finset.mem_image, Finset.mem_filter, Finset.mem_univ, true_and, Finset.mem_Ico]
    constructor
    · rintro ⟨word, between, rfl⟩
      exact between
    · intro between
      have same : (UInt32.ofNat n).toNat = n :=
        UInt32.toNat_ofNat_of_lt' (Nat.lt_of_lt_of_le between.2 inside)
      exact ⟨UInt32.ofNat n, by rwa [same], same⟩
  have distinct : Function.Injective UInt32.toNat := fun _ _ => UInt32.toNat_inj.mp
  rw [← Finset.card_image_of_injective _ distinct, numbers, Nat.card_Ico]

section Results

variable {low high : Nat} (small : high - low < 2 ^ 32)

include small

/-- A word stands for the result whose part it lies in. -/
theorem result?_eq_some_iff {word : UInt32} {result : Nat} :
    result? low high word = some result ↔
      low ≤ result ∧ result - low ≤ high - low ∧
        (result - low) * bucketSize (high - low) ≤ word.toNat ∧
        word.toNat < (result - low + 1) * bucketSize (high - low) := by
  have positive := bucketSize_pos small
  have part : word.toNat / bucketSize (high - low) = result - low ↔
      (result - low) * bucketSize (high - low) ≤ word.toNat ∧
        word.toNat < (result - low + 1) * bucketSize (high - low) := by
    rw [Nat.div_eq_iff positive, Nat.add_mul, Nat.one_mul]
    omega
  rw [← part, result?]
  constructor
  · intro stands
    split at stands
    case isTrue within =>
      cases stands
      rw [Nat.add_sub_cancel]
      exact ⟨Nat.le_add_left low _, within, rfl⟩
    case isFalse => cases stands
  · rintro ⟨least, most, found⟩
    rw [found, if_pos most, Nat.sub_add_cancel least]

theorem isSome_result?_iff {word : UInt32} :
    (result? low high word).isSome = true ↔
      word.toNat < (high - low + 1) * bucketSize (high - low) := by
  rw [← Nat.div_lt_iff_lt_mul (bucketSize_pos small), result?, Nat.lt_succ_iff]
  by_cases within : word.toNat / bucketSize (high - low) ≤ high - low
  · simp [within]
  · simp [within]

/-- As many words stand for one result as for any other. -/
theorem card_accepted {result : Nat} (least : low ≤ result) (most : result - low ≤ high - low) :
    (accepted low high result).card = bucketSize (high - low) := by
  have inside : (result - low + 1) * bucketSize (high - low) ≤ 2 ^ 32 :=
    (Nat.mul_le_mul_right _ (Nat.succ_le_succ most)).trans (buckets_le (high - low))
  simp only [accepted, result?_eq_some_iff small, least, most, true_and]
  rw [card_words_between inside, ← Nat.sub_mul, Nat.add_sub_cancel_left, Nat.one_mul]

theorem card_acceptedAny :
    (acceptedAny low high).card = (high - low + 1) * bucketSize (high - low) := by
  have between (word : UInt32) : (result? low high word).isSome = true ↔
      0 ≤ word.toNat ∧ word.toNat < (high - low + 1) * bucketSize (high - low) := by
    simp [isSome_result?_iff small]
  simp only [acceptedAny, between]
  exact card_words_between (buckets_le (high - low))

end Results

/-! ## The draw -/

/-- A draw gives the result of the first word that stands for one. -/
theorem draw?_eq_findSome? (low high tries : Nat) (twister : Twister) :
    draw? low high tries twister = (twister.outputs tries).findSome? (result? low high) := by
  induction tries generalizing twister with
  | zero => rfl
  | succ tries ih =>
    rw [draw?, Twister.outputs, List.findSome?_cons, ← ih]
    generalize twister.next = following
    obtain ⟨word, later⟩ := following
    dsimp only
    cases result? low high word <;> rfl

theorem exists_output_of_draw? {low high tries result : Nat} {twister : Twister}
    (drawn : draw? low high tries twister = some result) :
    ∃ word ∈ twister.outputs tries, result? low high word = some result := by
  rw [draw?_eq_findSome?] at drawn
  exact List.exists_of_findSome?_eq_some drawn

/-- Whatever is drawn, it is one of the results. -/
theorem bounds_of_draw? {low high tries result : Nat} {twister : Twister}
    (small : high - low < 2 ^ 32) (drawn : draw? low high tries twister = some result) :
    low ≤ result ∧ result - low ≤ high - low := by
  obtain ⟨word, -, stands⟩ := exists_output_of_draw? drawn
  obtain ⟨least, most, -⟩ := (result?_eq_some_iff small).mp stands
  exact ⟨least, most⟩

/-! ## The draw in words -/

namespace Words

open Attempt
open Retarget.Words (ratio ratio_eq)

/-- How many words each result gets, where the range is not the full one. -/
def bucketSize (range : Nat) : Attempt Nat := do
  let buckets ← unsigned 64 (range + 1)
  let full ← ratio 0xffffffff buckets
  -- The remainder is by the same divisor as the quotient.
  if 0xffffffff % buckets = range then unsigned 64 (full + 1) else return full

/-- The result a word stands for. The quotient is cut off to 32 bits. -/
def result? (low range bucket : Nat) (word : UInt32) : Attempt (Option Nat) := do
  let result ← ratio word.toNat bucket
  if result ≤ range then return some (← unsigned 32 (result % 2 ^ 32 + low)) else return none

/-- The first result among the next words. -/
def drawFrom (low range bucket : Nat) : (tries : Nat) → Twister → Attempt (Option Nat)
  | 0, _ => return none
  | tries + 1, twister => do
    match ← result? low range bucket twister.next.1 with
    | some result => return some result
    | none => drawFrom low range bucket tries twister.next.2

/-- A draw. Over the full range a word is its own result. -/
def draw? (low high tries : Nat) (twister : Twister) : Attempt (Option Nat) := do
  let range ← minus high low
  if range = 0xffffffff then return ((twister.outputs tries).head?).map UInt32.toNat
  else drawFrom low range (← bucketSize range) tries twister

theorem bucketSize_eq {range : Nat} (small : range < 2 ^ 32) :
    bucketSize range = pure (UniformDraw.bucketSize range) := by
  have whole : 0xffffffff / (range + 1) ≤ 0xffffffff := Nat.div_le_self _ _
  have buckets : unsigned 64 (range + 1) = pure (range + 1) := unsigned_eq (by omega)
  have next : unsigned 64 (0xffffffff / (range + 1) + 1) = pure (0xffffffff / (range + 1) + 1) :=
    unsigned_eq (by omega)
  rw [bucketSize, buckets, pure_bind, ratio_eq (Nat.succ_ne_zero range), pure_bind, next,
    UniformDraw.bucketSize]
  by_cases exact : 0xffffffff % (range + 1) = range
  · rw [if_pos exact, if_pos exact]
  · rw [if_neg exact, if_neg exact]
    rfl

section Ranges

variable {low high : Nat} (ordered : low ≤ high) (most : high < 2 ^ 32)

include ordered most

theorem result?_eq (word : UInt32) :
    result? low (high - low) (UniformDraw.bucketSize (high - low)) word
      = pure (UniformDraw.result? low high word) := by
  have positive : 0 < UniformDraw.bucketSize (high - low) := bucketSize_pos (by omega)
  rw [result?, UniformDraw.result?, ratio_eq positive.ne', pure_bind]
  generalize word.toNat / UniformDraw.bucketSize (high - low) = result
  by_cases within : result ≤ high - low
  · have kept : result % 2 ^ 32 = result := Nat.mod_eq_of_lt (by omega)
    rw [if_pos within, if_pos within, kept, unsigned_eq (by omega), pure_bind]
  · rw [if_neg within, if_neg within]

theorem drawFrom_eq (tries : Nat) (twister : Twister) :
    drawFrom low (high - low) (UniformDraw.bucketSize (high - low)) tries twister
      = pure (UniformDraw.draw? low high tries twister) := by
  induction tries generalizing twister with
  | zero => rfl
  | succ tries ih =>
    rw [drawFrom, result?_eq ordered most, pure_bind, UniformDraw.draw?]
    dsimp only
    cases UniformDraw.result? low high twister.next.1 with
    | some result => rfl
    | none => exact ih twister.next.2

/-- Over the full range each word stands for itself. -/
theorem result?_of_full (full : high - low = 0xffffffff) (word : UInt32) :
    UniformDraw.result? low high word = some word.toNat := by
  have single : UniformDraw.bucketSize 0xffffffff = 1 := by decide
  have inside : word.toNat < 2 ^ 32 := word.toNat_lt
  refine (result?_eq_some_iff (by omega)).mpr ?_
  rw [full, single]
  omega

theorem draw?_eq (tries : Nat) (twister : Twister) :
    draw? low high tries twister = pure (UniformDraw.draw? low high tries twister) := by
  rw [draw?, minus_eq ordered, pure_bind]
  by_cases full : high - low = 0xffffffff
  · rw [if_pos full, draw?_eq_findSome?]
    cases tries with
    | zero => rfl
    | succ tries =>
      rw [Twister.outputs, List.findSome?_cons, result?_of_full ordered most full]
      rfl
  · rw [if_neg full, bucketSize_eq (by omega), pure_bind, drawFrom_eq ordered most]

end Ranges

end Words

/-! ## The result -/

/-- A draw divides by no zero and leaves no word; what it gives is the result of the first word
that stands for one, and lies in the range. As many words stand for one result as for any other,
and at least half of all words stand for some result. -/
theorem draws_uniformly {low high : Nat} (ordered : low ≤ high) (most : high < 2 ^ 32) :
    0 < bucketSize (high - low) ∧
      (∀ tries twister,
        Words.draw? low high tries twister = pure (draw? low high tries twister) ∧
          ¬ (Words.draw? low high tries twister).Faults) ∧
      (∀ tries twister,
        draw? low high tries twister = (twister.outputs tries).findSome? (result? low high)) ∧
      (∀ tries twister result, draw? low high tries twister = some result →
        low ≤ result ∧ result ≤ high) ∧
      (∀ result, low ≤ result → result ≤ high →
        (accepted low high result).card = bucketSize (high - low)) ∧
      2 ^ 31 ≤ (acceptedAny low high).card := by
  have small : high - low < 2 ^ 32 := by omega
  refine ⟨bucketSize_pos small, fun tries twister => ?_, draw?_eq_findSome? low high, ?_, ?_, ?_⟩
  · have succeeds := Words.draw?_eq ordered most tries twister
    exact ⟨succeeds, Attempt.not_faults_of_eq_pure succeeds⟩
  · intro tries twister result drawn
    obtain ⟨least, within⟩ := bounds_of_draw? small drawn
    omega
  · intro result least within
    exact card_accepted small least (Nat.sub_le_sub_right within low)
  · rw [card_acceptedAny small]
    exact half_le_buckets small

/-- One more result than half of the words: nearly as many words are left over. -/
theorem draws_uniformly_above_half : 1 ≤ 0x80000001 ∧ 0x80000001 < 2 ^ 32 ∧
    bucketSize (0x80000001 - 1) = 1 ∧ (accepted 1 0x80000001 7).card = 1 ∧
    2 ^ 31 ≤ (acceptedAny 1 0x80000001).card := by
  have single : bucketSize (0x80000001 - 1) = 1 := by decide
  obtain ⟨-, -, -, -, even, half⟩ :=
    draws_uniformly (by decide : 1 ≤ 0x80000001) (by decide : 0x80000001 < 2 ^ 32)
  exact ⟨by decide, by decide, single, single ▸ even 7 (by decide) (by decide), half⟩

end UniformDraw

end ScryptLedger
