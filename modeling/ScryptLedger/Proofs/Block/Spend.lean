import Mathlib.Algebra.Order.Ring.Nat
import ScryptLedger.Mempool.Basic
import ScryptLedger.Proofs.Block.Connect

/-!
# The same coins through another view

Of a coin that is spent, the checks read the amount, the script and whether it
may be spent. Transactions that were checked against a coin set pass through
the view of a block with the same fees and the same signature checks, as long
as the view shows coins that are alike and no outpoint is named twice.
-/

namespace ScryptLedger

/-- What a script sees of the coin it guards. -/
def Coin.face (coin : Coin) : Int64 × Bytes := (coin.value, coin.scriptPubKey)

/-- Whether a view shows, at an outpoint, a coin like the one that another view shows there, which
may be spent at a height if that one may. -/
def CoinView.Shows (view base : CoinView) (params : ChainParams) (height : Nat)
    (outpoint : OutPoint) : Prop :=
  ∃ seen coin, view outpoint = some seen ∧ base outpoint = some coin ∧ seen.face = coin.face ∧
    (coin.isSpendableAt params height = true → seen.isSpendableAt params height = true)

namespace CoinView

variable {view base : CoinView} {params : ChainParams} {height : Nat}

theorem Shows.value {outpoint : OutPoint} (shows : view.Shows base params height outpoint) :
    view.value outpoint = base.value outpoint := by
  obtain ⟨seen, coin, there, known, same, -⟩ := shows
  have amount : seen.value = coin.value := congrArg Prod.fst same
  rw [value_of_some there, value_of_some known, amount]

theorem Shows.canSpend {outpoint : OutPoint} (shows : view.Shows base params height outpoint)
    (can : base.CanSpend params height outpoint) : view.CanSpend params height outpoint := by
  obtain ⟨seen, coin, there, known, same, spendable⟩ := shows
  obtain ⟨found, known', mature, ranged⟩ := can
  obtain rfl := Option.some.inj (known.symm.trans known')
  have amount : seen.value = coin.value := congrArg Prod.fst same
  exact ⟨seen, there, spendable mature, by rwa [amount]⟩

end CoinView

namespace Transaction

section Fee

variable {view base : CoinView} {params : ChainParams} {height : Nat} {tx : Transaction}
variable (shows : ∀ outpoint ∈ tx.inputs.map TxInput.outpoint,
  view.Shows base params height outpoint)

include shows

theorem fee_of_shows {fee : Int} (paid : tx.fee base params height = .ok fee) :
    tx.fee view params height = .ok fee := by
  have same : view.total (tx.inputs.map TxInput.outpoint)
      = base.total (tx.inputs.map TxInput.outpoint) := by
    have each := List.map_congr_left fun outpoint named => (shows outpoint named).value
    exact congrArg Money.total each
  obtain ⟨can, bounded, covered, left⟩ := fee_eq_ok_iff.mp paid
  refine fee_eq_ok_iff.mpr ⟨fun outpoint named => ?_, ?_, ?_, ?_⟩
  · exact (shows outpoint named).canSpend (can outpoint named)
  · rwa [same]
  · rwa [same]
  · rwa [same]

theorem spentCoins_of_shows : ∃ coins, tx.spentCoins view = some coins ∧
    coins.map Coin.face =
      (tx.inputs.filterMap fun input => base input.outpoint).map Coin.face := by
  rw [spentCoins]
  generalize tx.inputs = inputs at shows
  induction inputs with
  | nil => exact ⟨[], rfl, rfl⟩
  | cons input rest ih =>
    obtain ⟨⟨seen, coin, there, known, same, -⟩, others⟩ := List.forall_mem_cons.mp shows
    obtain ⟨coins, found, faces⟩ := ih others
    refine ⟨seen :: coins, by simp [List.mapM_cons, there, found], ?_⟩
    simp only [List.filterMap_cons, known, List.map_cons, faces, same]

end Fee

section Scripts

variable [Primitives] {tx : Transaction} {flags : ScriptFlags}

theorem verifyInputs_congr (midstate : Sighash.Midstate) (index : Nat) (inputs : List TxInput)
    {coins others : List Coin} (same : coins.map Coin.face = others.map Coin.face) :
    verifyInputs tx midstate flags index (inputs.zip coins)
      = verifyInputs tx midstate flags index (inputs.zip others) := by
  induction inputs generalizing index coins others with
  | nil => rfl
  | cons input rest ih =>
    match coins, others with
    | [], [] => rfl
    | [], _ :: _ => cases same
    | _ :: _, [] => cases same
    | coin :: coins, other :: others =>
      obtain ⟨face, same⟩ := List.cons.inj same
      have amount : coin.value = other.value := congrArg Prod.fst face
      have script : coin.scriptPubKey = other.scriptPubKey := congrArg Prod.snd face
      simp only [List.zip_cons_cons, verifyInputs, amount, script, ih (index + 1) same]

/-- Scripts see no more of the coins than their faces. -/
theorem verifyScripts_congr {coins others : List Coin}
    (same : coins.map Coin.face = others.map Coin.face) :
    tx.verifyScripts coins flags = tx.verifyScripts others flags := by
  have length : coins.length = others.length := by
    rw [← List.length_map Coin.face, same, List.length_map]
  rw [verifyScripts, verifyScripts, length, verifyInputs_congr _ 0 tx.inputs same]

end Scripts

end Transaction

namespace Block

variable [Primitives] {params : ChainParams} {height : Nat} {flags : ScriptFlags}

/-- Transactions whose fees and scripts were checked against a coin set pass through a view that
shows all the coins they spend. -/
theorem spendAll_of_shows {base : CoinView} {entries : List MempoolEntry} {view : BlockView}
    (funded : ∀ entry ∈ entries, entry.tx.fee base params height = .ok entry.fee)
    (scripts : ∀ entry ∈ entries,
      entry.tx.verifyScripts (entry.tx.inputs.filterMap fun input => base input.outpoint) flags
        = .ok entry.sigChecks)
    (shows : ∀ outpoint ∈ Transaction.named (entries.map MempoolEntry.tx),
      view.coin.Shows base params height outpoint)
    (distinct : (Transaction.named (entries.map MempoolEntry.tx)).Nodup) :
    ∃ spends, spendAll params height view (entries.map MempoolEntry.tx) = .ok spends ∧
      spends.map (fun (_, fee, _) => fee) = entries.map MempoolEntry.fee ∧
      verifyScripts flags spends = .ok (entries.map MempoolEntry.sigChecks).sum := by
  induction entries generalizing view with
  | nil => exact ⟨[], rfl, rfl, rfl⟩
  | cons entry rest ih =>
    obtain ⟨fee, funded⟩ := List.forall_mem_cons.mp funded
    obtain ⟨passed, scripts⟩ := List.forall_mem_cons.mp scripts
    rw [List.map_cons, Transaction.named_cons] at shows distinct
    obtain ⟨-, distinct, apart⟩ := List.nodup_append.mp distinct
    have first := fun outpoint named => shows outpoint (List.mem_append_left _ named)
    obtain ⟨coins, found, faces⟩ := Transaction.spentCoins_of_shows first
    -- What the first transaction spends is named by none of the others, so that they still see
    -- their coins.
    have still : ∀ outpoint ∈ Transaction.named (rest.map MempoolEntry.tx),
        (view.spend (entry.tx.inputs.map TxInput.outpoint)).coin.Shows base params height
          outpoint := by
      intro outpoint named
      have unspent : outpoint ∉ entry.tx.inputs.map TxInput.outpoint := fun spent =>
        apart outpoint spent outpoint named rfl
      obtain ⟨seen, coin, there, known⟩ := shows outpoint (List.mem_append_right _ named)
      exact ⟨seen, coin, by rwa [BlockView.coin_spend, if_neg unspent], known⟩
    obtain ⟨spends, later, fees, checks⟩ := ih funded scripts still distinct
    refine ⟨(entry.tx, entry.fee, coins) :: spends, ?_, ?_, ?_⟩
    · simp only [List.map_cons, spendAll, Transaction.fee_of_shows first fee, found, later]
      rfl
    · rw [List.map_cons, List.map_cons, fees]
    · rw [verifyScripts, Transaction.verifyScripts_congr faces, passed]
      simp only [checks]
      rfl

end Block

end ScryptLedger
