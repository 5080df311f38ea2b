import ScryptLedger.Chain.Update
import ScryptLedger.Proofs.Outcome

/-!
# Where a block fits

What it takes for a block to stand on the tip of a chain, as far as its place,
its time and its compact target go. A block is late enough when it is later
than each of the latest blocks, although it need not be.
-/

namespace ScryptLedger.Chain

/-- There is a middle one as soon as there are any. -/
theorem getElem?_median {times : List Nat} (nonempty : times ≠ []) :
    (times.mergeSort (· ≤ ·))[times.length / 2]? = some (median times) := by
  have middle : times.length / 2 < (times.mergeSort (· ≤ ·)).length := by
    rw [List.length_mergeSort]
    exact Nat.div_lt_self (List.length_pos_iff.mpr nonempty) Nat.one_lt_two
  rw [median, List.getD_eq_getElem?_getD, List.getElem?_eq_getElem middle, Option.getD_some]

theorem median_mem {times : List Nat} (some : times ≠ []) : median times ∈ times :=
  List.mem_mergeSort.mp (List.mem_of_getElem? (getElem?_median some))

theorem latest_ne_nil (chain : Chain) : chain.entries.take medianTimeSpan ≠ [] := by
  rw [entries, medianTimeSpan]
  cases chain.above <;> simp

theorem medianTimePast_lt {chain : Chain} {bound : Nat}
    (early : ∀ entry ∈ chain.entries, entry.block.header.time.toNat < bound) :
    chain.medianTimePast < bound := by
  obtain ⟨entry, held, time⟩ :=
    List.mem_map.mp (median_mem (mt List.map_eq_nil_iff.mp chain.latest_ne_nil))
  rw [medianTimePast, ← time]
  exact early entry (List.mem_of_mem_take held)

variable [Primitives]

/-- A block fits on the tip when it is new, names the tip, is late enough and has the target
that the tip asks for. -/
theorem checkPosition_eq_ok_iff {chain : Chain} {block : Block} :
    chain.checkPosition block = .ok () ↔
      chain.contains block.hash = false ∧ chain.invalid.contains block.hash = false ∧
        block.header.previous = chain.tip.hash ∧
        chain.medianTimePast < block.header.time.toNat ∧
        chain.nextWork block.header.time.toNat = .ok block.header.bits := by
  simp only [checkPosition, Outcome.throw_bind, Outcome.refuse_eq_ok_iff, Bool.or_eq_true, not_or,
    Bool.not_eq_true, and_assoc]
  refine and_congr_right fun _ => and_congr_right fun _ => ?_
  by_cases onTip : block.header.previous = chain.tip.hash
  · rw [if_neg (not_not_intro onTip), Outcome.refuse_eq_ok_iff, Nat.not_le]
    constructor
    · rintro ⟨late, work⟩
      refine ⟨onTip, late, ?_⟩
      cases target : chain.nextWork block.header.time.toNat with
      | error cause => simp [target] at work
      | ok bits =>
        rw [target] at work
        have same := Decidable.not_not.mp (Outcome.refuse_eq_ok_iff.mp work).1
        rw [same]
    · rintro ⟨_, late, work⟩
      exact ⟨late, by simp [work]⟩
  · rw [if_pos onTip]
    refine ⟨fun refused => ?_, fun fits => absurd fits.1 onTip⟩
    split at refused <;> exact absurd refused Outcome.throw_ne_ok

end ScryptLedger.Chain
