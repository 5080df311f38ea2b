import Mathlib.Algebra.Order.Ring.Nat
import Mathlib.Data.List.Nodup
import ScryptLedger.Block.Check
import ScryptLedger.Mining.Assembly
import ScryptLedger.Proofs.Pow.Retarget

/-!
# What a new block takes

A new block takes some of the candidates, in the order given, as long as their
sizes fit; each leaves a fee. Sorting keeps them all, and puts different
identities in strictly increasing order.
-/

namespace ScryptLedger

namespace Assembly

section Select

variable (chain : Chain) (sizeLimit : Nat)

theorem select_sublist (used : Nat) (candidates : List Transaction) :
    List.Sublist ((select chain sizeLimit used candidates).map Prod.fst) candidates := by
  induction candidates generalizing used with
  | nil => exact List.Sublist.refl []
  | cons tx rest ih =>
    rw [select]
    split
    · exact (ih used).cons tx
    split
    · exact (ih (used + tx.size)).cons_cons tx
    · exact (ih used).cons tx

/-- What is taken is no coinbase and leaves a fee. -/
theorem fee_of_mem_select {used : Nat} {candidates : List Transaction} :
    ∀ taken ∈ select chain sizeLimit used candidates, taken.1.isCoinbase = false ∧
      taken.1.fee chain.coins.view chain.rules.params (chain.height + 1) = .ok taken.2 := by
  induction candidates generalizing used with
  | nil => exact fun _ held => nomatch held
  | cons tx rest ih =>
    rw [select]
    split
    · exact ih
    rename_i room
    simp only [Bool.or_eq_true, not_or, Bool.not_eq_true] at room
    split
    · rename_i fee left
      exact List.forall_mem_cons.mpr ⟨⟨room.1, left⟩, ih⟩
    · exact ih

/-- What is taken fits. -/
theorem size_select_le {used : Nat} (fits : used ≤ sizeLimit) (candidates : List Transaction) :
    used + ((select chain sizeLimit used candidates).map fun taken => taken.1.size).sum
      ≤ sizeLimit := by
  induction candidates generalizing used with
  | nil => exact fits
  | cons tx rest ih =>
    rw [select]
    split
    · exact ih fits
    rename_i room
    simp only [Bool.or_eq_true, decide_eq_true_eq, not_or, Nat.not_lt] at room
    split
    · rw [List.map_cons, List.sum_cons, ← Nat.add_assoc]
      exact ih room.2
    · exact ih fits

/-- Whether a block of bounded size cannot take a transaction when some room is used already: it
is a coinbase, its coins are not there for it, or it does not fit any more. -/
def Refuses (used : Nat) (tx : Transaction) : Prop :=
  tx.isCoinbase = true ∨
    (∃ error, tx.fee chain.coins.view chain.rules.params (chain.height + 1) = .error error) ∨
    sizeLimit < used + tx.size

end Select

variable [Primitives]

/-- Sorting loses nothing and adds nothing. -/
theorem sort_perm (selected : List (Transaction × Int)) : (sort selected).Perm selected := by
  have order := (List.mergeSort_perm (selected.map fun spend => (spend.1.txid, spend))
    fun a b => (compare a.1 b.1).isLE).map Prod.snd
  rwa [List.map_map, List.map_id''] at order
  exact fun _ => rfl

omit [Primitives] in
theorem isStrictlyIncreasing_of_pairwise {hashes : List Hash}
    (increasing : hashes.Pairwise fun a b => compare a b = .lt) :
    isStrictlyIncreasing hashes = true := by
  induction hashes with
  | nil => rfl
  | cons first rest ih =>
    obtain ⟨least, others⟩ := List.pairwise_cons.mp increasing
    cases rest with
    | nil => rfl
    | cons second rest =>
      rw [isStrictlyIncreasing, least second List.mem_cons_self, ih others]
      rfl

/-- Sorting puts different identities in strictly increasing order. -/
theorem isStrictlyIncreasing_sort {selected : List (Transaction × Int)}
    (distinct : (selected.map fun spend => spend.1.txid).Nodup) :
    isStrictlyIncreasing ((sort selected).map fun spend => spend.1.txid) = true := by
  refine isStrictlyIncreasing_of_pairwise ?_
  have ordered (a b c : Hash × (Transaction × Int)) :
      (compare a.1 b.1).isLE = true → (compare b.1 c.1).isLE = true →
        (compare a.1 c.1).isLE = true := Std.TransOrd.isLE_trans
  have total (a b : Hash × (Transaction × Int)) :
      ((compare a.1 b.1).isLE || (compare b.1 a.1).isLE) = true := by
    have swapped : compare b.1 a.1 = (compare a.1 b.1).swap := Std.OrientedOrd.eq_swap
    rw [swapped, Ordering.isLE_swap]
    cases compare a.1 b.1 <;> rfl
  have sorted : ((selected.map fun spend => (spend.1.txid, spend)).mergeSort
      fun a b => (compare a.1 b.1).isLE).Pairwise fun a b => (compare a.1 b.1).isLE = true :=
    List.pairwise_mergeSort ordered total _
  have apart : (sort selected).Pairwise fun a b => a.1.txid ≠ b.1.txid :=
    List.pairwise_map.mp (((sort_perm selected).map _).nodup_iff.mpr distinct)
  -- Each transaction is sorted by the identity that stands beside it.
  have keyed : ∀ pair ∈ (selected.map fun spend => (spend.1.txid, spend)).mergeSort
      (fun a b => (compare a.1 b.1).isLE), pair.1 = pair.2.1.txid := by
    intro pair held
    obtain ⟨spend, -, rfl⟩ := List.mem_map.mp (List.mem_mergeSort.mp held)
    rfl
  rw [sort, List.pairwise_map] at apart
  rw [sort, List.map_map, List.pairwise_map]
  refine (sorted.and apart).imp_of_mem fun {a b} first second ⟨ordered, different⟩ => ?_
  rw [keyed a first, keyed b second] at ordered
  rw [Function.comp_apply, Function.comp_apply]
  cases order : compare a.2.1.txid b.2.1.txid with
  | lt => rfl
  | eq => exact absurd (Std.compare_eq_iff_eq.mp order) different
  | gt =>
    rw [order] at ordered
    cases ordered

end Assembly

end ScryptLedger
