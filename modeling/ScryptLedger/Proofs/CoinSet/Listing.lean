import Mathlib.Data.List.Nodup
import Mathlib.Data.List.Perm.Subperm
import ScryptLedger.Proofs.CoinSet.Lookup

/-!
# Listing coins and collecting them again

A coin set is listed in the order of outpoints, each outpoint once. Such a list
says no more than the set: any list with the same coins makes the same set, and
becomes the listing of that set when it is put in order. A list that is not in
order, or names an outpoint twice, makes a set that is listed differently.
-/

namespace ScryptLedger.CoinSet

/-- Whether coins are listed in the order of outpoints, each outpoint once. -/
def Ascending (entries : List (OutPoint × Coin)) : Prop :=
  entries.Pairwise fun earlier later => compare earlier.1 later.1 = .lt

instance (entries : List (OutPoint × Coin)) : Decidable (Ascending entries) :=
  inferInstanceAs (Decidable (List.Pairwise _ entries))

variable {coins : CoinSet} {entries : List (OutPoint × Coin)}

theorem ascending_toList (coins : CoinSet) : Ascending coins.toList :=
  Std.ExtTreeMap.ordered_keys_toList

theorem Ascending.distinct (ascending : Ascending entries) : (entries.map Prod.fst).Nodup := by
  refine List.pairwise_map.mpr (ascending.imp fun {earlier later} before same => ?_)
  rw [same, Std.compare_self] at before
  cases before

theorem mem_of_mem_toList_create {entry : OutPoint × Coin}
    (held : entry ∈ (create ∅ entries).toList) : entry ∈ entries := by
  rw [mem_toList_iff, view_create, view_empty, Option.or_none] at held
  exact mem_of_latest held

theorem mem_toList_create_iff (distinct : (entries.map Prod.fst).Nodup) (entry : OutPoint × Coin) :
    entry ∈ (create ∅ entries).toList ↔ entry ∈ entries := by
  rw [mem_toList_iff, view_create, view_empty, Option.or_none, latest_eq_some_iff distinct]

/-- Where no outpoint is listed twice, the set that is made has all coins of the list. -/
theorem toList_create_perm (distinct : (entries.map Prod.fst).Nodup) :
    (create ∅ entries).toList.Perm entries := by
  have listed : (create ∅ entries).toList.Nodup :=
    List.Nodup.of_map Prod.fst (ascending_toList _).distinct
  have given : entries.Nodup := List.Nodup.of_map Prod.fst distinct
  exact (List.perm_ext_iff_of_nodup listed given).mpr (mem_toList_create_iff distinct)

theorem ascending_eq_of_perm {others : List (OutPoint × Coin)} (first : Ascending entries)
    (second : Ascending others) (same : entries.Perm others) : entries = others := by
  refine same.eq_of_pairwise (fun a b _ _ before after => ?_) first second
  exact absurd after (Std.OrientedCmp.not_lt_of_lt before)

/-- What is listed in order is listed in the same way by the set that it makes. -/
theorem toList_create_eq_iff : (create ∅ entries).toList = entries ↔ Ascending entries := by
  constructor
  · intro same
    rw [← same]
    exact ascending_toList _
  · intro ascending
    exact ascending_eq_of_perm (ascending_toList _) ascending
      (toList_create_perm ascending.distinct)

/-- The coins of a set make the same set again in any order. -/
theorem create_of_perm (same : entries.Perm coins.toList) : create ∅ entries = coins := by
  have distinct : (entries.map Prod.fst).Nodup :=
    (same.map Prod.fst).nodup_iff.mpr (ascending_toList coins).distinct
  exact Std.ExtTreeMap.ext_toList ((toList_create_perm distinct).trans same)

/-- The coins of a set, put in the order of outpoints, are listed as the set lists them. -/
theorem mergeSort_of_perm (same : entries.Perm coins.toList) :
    entries.mergeSort (fun a b => (compare a.1 b.1).isLE) = coins.toList := by
  have reordered := (List.mergeSort_perm entries fun a b => (compare a.1 b.1).isLE).trans same
  refine reordered.eq_of_pairwise ?_ (List.pairwise_mergeSort ?_ ?_ entries) ?_
  · -- Two coins of the set whose outpoints are not apart are the same coin.
    intro a b held held' before after
    have key : a.1 = b.1 :=
      Std.LawfulEqCmp.eq_of_compare (Std.OrientedCmp.isLE_antisymm before after)
    have coin := mem_toList_iff.mp (reordered.mem_iff.mp held)
    have coin' := mem_toList_iff.mp held'
    rw [key, coin'] at coin
    exact Prod.ext key (Option.some.inj coin).symm
  · intro a b c before after
    exact Std.TransCmp.isLE_trans before after
  · intro a b
    rw [← Std.OrientedCmp.isGE_eq_isLE]
    cases compare b.1 a.1 <;> rfl
  · exact (ascending_toList coins).imp fun before => by rw [before]; rfl

/-- The set that is made has as many coins as are listed exactly when no outpoint is listed
twice. -/
theorem size_create_eq_iff :
    (create ∅ entries).size = entries.length ↔ (entries.map Prod.fst).Nodup := by
  rw [← Std.ExtTreeMap.length_toList]
  constructor
  · intro count
    have listed := (ascending_toList (create ∅ entries)).distinct
    have within : (create ∅ entries).toList.map Prod.fst ⊆ entries.map Prod.fst :=
      List.map_subset Prod.fst fun entry held => mem_of_mem_toList_create held
    have many : ((create ∅ entries).toList.map Prod.fst).length =
        (entries.map Prod.fst).length := by
      rw [List.length_map, List.length_map, count]
    exact ((listed.subperm within).perm_of_length_le (Nat.le_of_eq many.symm)).nodup_iff.mp listed
  · intro distinct
    exact (toList_create_perm distinct).length_eq

end ScryptLedger.CoinSet
