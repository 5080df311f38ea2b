import ScryptLedger.Block.Codec
import ScryptLedger.Coin

/-!
# Blocks and the coin set

Applying a block first adds every output it creates and then removes every
coin it spends, so that the order of its transactions does not matter. The
coins that were there before the block are kept as its undo record; undoing
removes all that the block created and brings the record back.
-/

namespace ScryptLedger

namespace CoinSet

/-- Adds coins; a later one replaces an earlier one at the same outpoint. -/
def create (coins : CoinSet) (created : List (OutPoint × Coin)) : CoinSet :=
  created.foldl (fun coins (outpoint, coin) => coins.insert outpoint coin) coins

def remove (coins : CoinSet) (outpoints : List OutPoint) : CoinSet :=
  outpoints.foldl (fun coins outpoint => coins.erase outpoint) coins

/-- Takes the coins at some outpoints out, in order, and passes over what is not there. -/
def takeOut (coins : CoinSet) : List OutPoint → CoinSet × Undo
  | [] => (coins, [])
  | outpoint :: rest =>
    match coins.view outpoint with
    | none => takeOut coins rest
    | some coin =>
      let (left, taken) := takeOut (coins.erase outpoint) rest
      (left, (outpoint, coin) :: taken)

theorem create_cons (coins : CoinSet) (first : OutPoint × Coin) (rest : List (OutPoint × Coin)) :
    coins.create (first :: rest) = create (coins.insert first.1 first.2) rest := rfl

theorem remove_cons (coins : CoinSet) (first : OutPoint) (rest : List OutPoint) :
    coins.remove (first :: rest) = remove (coins.erase first) rest := rfl

theorem view_remove (coins : CoinSet) (outpoints : List OutPoint) (outpoint : OutPoint) :
    (coins.remove outpoints).view outpoint =
      if outpoint ∈ outpoints then none else coins.view outpoint := by
  induction outpoints generalizing coins with
  | nil => simp [remove]
  | cons first rest ih =>
    rw [remove_cons, ih, view_erase]
    by_cases here : outpoint = first <;> simp [here]

theorem fst_takeOut (coins : CoinSet) (outpoints : List OutPoint) :
    (coins.takeOut outpoints).1 = coins.remove outpoints := by
  induction outpoints generalizing coins with
  | nil => rfl
  | cons first rest ih =>
    cases found : coins.view first with
    | none =>
      have absent : coins.erase first = coins := by
        refine ext_view fun outpoint => ?_
        rw [view_erase]
        split
        · subst outpoint; exact found.symm
        · rfl
      simp only [takeOut, found]
      rw [ih, remove_cons, absent]
    | some coin =>
      simp only [takeOut, found]
      rw [ih, remove_cons]

end CoinSet

namespace Transaction

variable [Primitives]

def outpoints (tx : Transaction) : List OutPoint :=
  let txid := tx.txid
  (List.range tx.outputs.length).map fun index => ⟨txid, UInt32.ofNat index⟩

/-- The coins that the outputs become at a height. -/
def created (tx : Transaction) (height : Nat) : List (OutPoint × Coin) :=
  tx.outpoints.zip
    (tx.outputs.map fun output => ⟨output.value, output.scriptPubKey, height, tx.isCoinbase⟩)

omit [Primitives] in
/-- The outpoints that are spent; a coinbase spends none. -/
def spent (tx : Transaction) : List OutPoint :=
  if tx.isCoinbase then [] else tx.inputs.map TxInput.outpoint

/-- Applies one transaction to a coin set: its inputs first, then its outputs. -/
def apply (tx : Transaction) (coins : CoinSet) (height : Nat) : CoinSet × Undo :=
  let (left, undo) := coins.takeOut tx.spent
  (left.create (tx.created height), undo)

end Transaction

namespace Block

def spent (block : Block) : List OutPoint :=
  block.transactions.flatMap Transaction.spent

variable [Primitives]

def created (block : Block) (height : Nat) : List (OutPoint × Coin) :=
  block.transactions.flatMap (·.created height)

def outpoints (block : Block) : List OutPoint :=
  block.transactions.flatMap Transaction.outpoints

/-- Applies a block to a coin set, whether it is valid or not. What is not there is not spent. -/
def apply (block : Block) (coins : CoinSet) (height : Nat) : CoinSet × Undo :=
  let (left, taken) := (coins.create (block.created height)).takeOut block.spent
  let txids := block.txids
  (left, taken.filter fun (outpoint, _) => !txids.contains outpoint.hash)

def unapply (block : Block) (coins : CoinSet) (undo : Undo) : CoinSet :=
  (coins.remove block.outpoints).create undo

end Block

end ScryptLedger
