import ScryptLedger.Proofs.Script.Relaxed
import ScryptLedger.RuleSet
import ScryptLedger.Transaction.Inputs

/-!
# The rules of relay are stricter than those of blocks

The flags a relayed transaction obeys are the strict side of the flags of every
block, at whatever heights the two stand: relay asks already for the rules that
join later, and the flags that choose a meaning never change within a rule set.
A transaction that passes the rules of relay passes those of any block, and
counts for the same signature checks.
-/

namespace ScryptLedger

open Outcome (Implies)

/-- What has joined by any height is asked of relayed transactions from the start. -/
theorem RuleSet.blockFlags_relaxes (rules : RuleSet) (params : ChainParams) (height later : Nat) :
    (rules.blockFlags params later).Relaxes (rules.relayFlags params height) := by
  cases rules <;> constructor <;>
    simp [relayFlags, standard, blockFlags, mandatory, deployed, ScriptFlags.union,
      ScriptFlags.none]

namespace Transaction

variable [Primitives] {weak strict : ScriptFlags} (relaxed : weak.Relaxes strict)
  (tx : Transaction)

include relaxed

theorem verifyInputs_implies (midstate : Sighash.Midstate) (index : Nat)
    (spends : List (TxInput × Coin)) :
    Implies (verifyInputs tx midstate strict index spends)
      (verifyInputs tx midstate weak index spends) := by
  induction spends generalizing index with
  | nil => exact .refl _
  | cons pair rest ih =>
    obtain ⟨input, coin⟩ := pair
    exact .bind (Script.verify_implies relaxed _ _ _) fun checks =>
      .bind (ih (index + 1)) fun others => .refl _

theorem verifyScripts_implies (coins : List Coin) :
    Implies (tx.verifyScripts coins strict) (tx.verifyScripts coins weak) :=
  .refuse id (.bind (verifyInputs_implies relaxed tx _ 0 _) fun _ =>
    .asked relaxed.enforceSigChecks (.refl _))

end Transaction

end ScryptLedger
