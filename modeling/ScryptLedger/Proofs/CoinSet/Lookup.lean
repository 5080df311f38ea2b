import ScryptLedger.Block.Coins

/-!
# Looking coins up

Every operation on a coin set is told by what it does to the lookups. Adding
coins overrides the set by the last coin of each outpoint; taking coins out
yields each coin that was there once, in the order in which it was asked for.
Coin sets are compared by inclusion: a set within another holds the same coins
wherever it holds any.
-/

namespace ScryptLedger

namespace CoinSet

/-- The coin that a list holds at an outpoint; of several, the last. -/
def latest (created : List (OutPoint × Coin)) (outpoint : OutPoint) : Option Coin :=
  created.reverse.lookup outpoint

theorem latest_cons (entry : OutPoint × Coin) (rest : List (OutPoint × Coin))
    (outpoint : OutPoint) :
    latest (entry :: rest) outpoint =
      (latest rest outpoint).or (if outpoint = entry.1 then some entry.2 else none) := by
  obtain ⟨key, coin⟩ := entry
  rw [latest, List.reverse_cons, List.lookup_append, latest]
  by_cases here : outpoint = key
  · subst here
    rw [List.lookup_cons_self, if_pos rfl]
  · have other : (outpoint == key) = false := beq_eq_false_iff_ne.mpr here
    rw [List.lookup_cons, other, if_neg here, List.lookup_nil]

theorem mem_of_latest {created : List (OutPoint × Coin)} {outpoint : OutPoint} {coin : Coin}
    (found : latest created outpoint = some coin) : (outpoint, coin) ∈ created := by
  obtain ⟨before, after, split, _⟩ := List.lookup_eq_some_iff.mp found
  have held : (outpoint, coin) ∈ created.reverse := by
    rw [split]
    exact List.mem_append_right before List.mem_cons_self
  exact List.mem_reverse.mp held

theorem latest_eq_none_iff {created : List (OutPoint × Coin)} {outpoint : OutPoint} :
    latest created outpoint = none ↔ outpoint ∉ created.map Prod.fst := by
  simp only [latest, List.lookup_eq_none_iff, List.mem_reverse, bne_iff_ne, List.mem_map]
  constructor
  · rintro other ⟨entry, held, rfl⟩
    exact other entry held rfl
  · rintro absent entry held rfl
    exact absent ⟨entry, held, rfl⟩

/-- Where no outpoint is listed twice, each entry is the last one of its outpoint. -/
theorem latest_eq_some_iff {created : List (OutPoint × Coin)}
    (distinct : (created.map Prod.fst).Nodup) {outpoint : OutPoint} {coin : Coin} :
    latest created outpoint = some coin ↔ (outpoint, coin) ∈ created := by
  refine ⟨mem_of_latest, fun held => ?_⟩
  induction created with
  | nil => cases held
  | cons first rest ih =>
    rw [List.map_cons, List.nodup_cons] at distinct
    rw [latest_cons]
    rcases List.mem_cons.mp held with rfl | later
    · rw [latest_eq_none_iff.mpr distinct.1, Option.none_or, if_pos rfl]
    · rw [ih distinct.2 later, Option.some_or]

/-- Adding coins overrides what was there. -/
theorem view_create (coins : CoinSet) (created : List (OutPoint × Coin)) (outpoint : OutPoint) :
    (coins.create created).view outpoint = (latest created outpoint).or (coins.view outpoint) := by
  induction created generalizing coins with
  | nil => rfl
  | cons first rest ih =>
    rw [create_cons, ih, view_insert, latest_cons]
    by_cases here : outpoint = first.1
    · rw [if_pos here, if_pos here, Option.or_assoc, Option.some_or]
    · rw [if_neg here, if_neg here, Option.or_none]

theorem view_empty (outpoint : OutPoint) : CoinSet.view ∅ outpoint = none :=
  Std.ExtTreeMap.getElem?_empty

theorem mem_toList_iff {coins : CoinSet} {outpoint : OutPoint} {coin : Coin} :
    (outpoint, coin) ∈ coins.toList ↔ coins.view outpoint = some coin :=
  Std.ExtTreeMap.mem_toList_iff_getElem?_eq_some

/-- What is taken out are the coins that were there. -/
theorem mem_takeOut (coins : CoinSet) (outpoints : List OutPoint) (outpoint : OutPoint)
    (coin : Coin) :
    (outpoint, coin) ∈ (coins.takeOut outpoints).2 ↔
      outpoint ∈ outpoints ∧ coins.view outpoint = some coin := by
  induction outpoints generalizing coins with
  | nil => simp [takeOut]
  | cons first rest ih =>
    cases found : coins.view first with
    | none =>
      simp only [takeOut, found, ih, List.mem_cons]
      refine ⟨fun taken => ⟨Or.inr taken.1, taken.2⟩, ?_⟩
      rintro ⟨rfl | later, there⟩
      · rw [found] at there; cases there
      · exact ⟨later, there⟩
    | some there =>
      simp only [takeOut, found, List.mem_cons, ih, view_erase, Prod.mk.injEq]
      by_cases here : outpoint = first
      · subst here
        simp [found, eq_comm]
      · simp [here]

/-- Nothing is taken out twice. -/
theorem nodup_takeOut (coins : CoinSet) (outpoints : List OutPoint) :
    ((coins.takeOut outpoints).2.map Prod.fst).Nodup := by
  induction outpoints generalizing coins with
  | nil => exact List.nodup_nil
  | cons first rest ih =>
    cases found : coins.view first with
    | none => simpa only [takeOut, found] using ih coins
    | some coin =>
      simp only [takeOut, found, List.map_cons, List.nodup_cons]
      refine ⟨?_, ih _⟩
      intro again
      obtain ⟨⟨_, other⟩, taken, rfl⟩ := List.mem_map.mp again
      have gone := ((mem_takeOut _ _ _ _).mp taken).2
      rw [view_erase, if_pos rfl] at gone
      cases gone

/-- Inclusion: one set holds what the other one holds, or nothing. -/
def Within (smaller larger : CoinSet) : Prop :=
  ∀ outpoint coin, smaller.view outpoint = some coin → larger.view outpoint = some coin

theorem Within.refl (coins : CoinSet) : coins.Within coins :=
  fun _ _ held => held

theorem Within.trans {a b c : CoinSet} (first : a.Within b) (second : b.Within c) : a.Within c :=
  fun outpoint coin held => second outpoint coin (first outpoint coin held)

theorem Within.remove {smaller larger : CoinSet} (within : smaller.Within larger)
    (outpoints : List OutPoint) : (smaller.remove outpoints).Within (larger.remove outpoints) := by
  intro outpoint coin held
  rw [view_remove] at held ⊢
  split at held
  · cases held
  · rename_i kept
    rw [if_neg kept]
    exact within outpoint coin held

theorem Within.create {smaller larger : CoinSet} (within : smaller.Within larger)
    (created : List (OutPoint × Coin)) :
    (smaller.create created).Within (larger.create created) := by
  intro outpoint coin held
  rw [view_create] at held ⊢
  rcases Option.or_eq_some_iff.mp held with new | ⟨untouched, old⟩
  · rw [new, Option.some_or]
  · rw [untouched, Option.none_or]
    exact within outpoint coin old

end CoinSet

end ScryptLedger
