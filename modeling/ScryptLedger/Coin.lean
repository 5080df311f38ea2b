import Std.Data.ExtTreeMap
import ScryptLedger.Transaction.Basic

/-!
# Coins

A coin is an output that has not been spent, with the height of the block that
created it. The coin set maps outpoints to coins; it is determined by its
lookups alone, and is listed in the order of outpoints.
-/

namespace ScryptLedger

/-- An unspent output. -/
structure Coin where
  value : Int64
  scriptPubKey : Bytes
  height : Nat
  isCoinbase : Bool
deriving DecidableEq, Repr

abbrev CoinSet := Std.ExtTreeMap OutPoint Coin compare

/-- Where a check looks coins up. -/
abbrev CoinView := OutPoint → Option Coin

/-- Coins that were spent, in the order of the inputs that spent them. -/
abbrev Undo := List (OutPoint × Coin)

def CoinSet.view (coins : CoinSet) : CoinView := fun outpoint => coins[outpoint]?

namespace CoinSet

/-- A coin set is determined by its lookups. -/
theorem ext_view {a b : CoinSet} (same : ∀ outpoint, a.view outpoint = b.view outpoint) :
    a = b :=
  Std.ExtTreeMap.ext_getElem? same

theorem view_insert (coins : CoinSet) (spent outpoint : OutPoint) (coin : Coin) :
    CoinSet.view (coins.insert spent coin) outpoint =
      if outpoint = spent then some coin else coins.view outpoint := by
  simp only [view, Std.ExtTreeMap.getElem?_insert, Std.compare_eq_iff_eq, @eq_comm _ outpoint]

theorem view_erase (coins : CoinSet) (spent outpoint : OutPoint) :
    CoinSet.view (coins.erase spent) outpoint =
      if outpoint = spent then none else coins.view outpoint := by
  simp only [view, Std.ExtTreeMap.getElem?_erase, Std.compare_eq_iff_eq, @eq_comm _ outpoint]

end CoinSet

end ScryptLedger
