import ScryptLedger.Proofs.MergeMining.SingleUse

/-!
# Why a proof is refused

Each error that a proof is refused with says what is wrong with it. Where that is
not so, the proof is not refused with this error, whatever else may be wrong.
-/

namespace ScryptLedger.MergeMining

variable [Primitives]

/-- What is wrong with a proof that is refused with some error. -/
inductive Refuses (auxpow : AuxPow) (hash : Hash) (chainId : Nat) (params : ChainParams) :
    AuxPowError → Prop
  | index (nonzero : auxpow.index ≠ 0) : Refuses auxpow hash chainId params .nonZeroIndex
  | parent (strict : params.strictChainId = true)
      (ours : Version.chainId auxpow.parent.version = chainId) :
    Refuses auxpow hash chainId params .parentHasOurChainId
  | depth (deep : maxChainBranch < auxpow.chainBranch.length) :
    Refuses auxpow hash chainId params .chainMerkleBranchTooLong
  | root (apart : Merkle.rootOfBranch auxpow.coinbase.txid auxpow.coinbaseBranch
        auxpow.index.toInt ≠ auxpow.parent.merkleRoot) :
    Refuses auxpow hash chainId params .merkleRootIncorrect
  | input (none : auxpow.coinbase.inputs = []) :
    Refuses auxpow hash chainId params .coinbaseMissingInput
  | script {cause : AuxPowError}
      (fails : Fails (Coinbase.script auxpow.coinbase) (chainRoot auxpow hash) cause) :
    Refuses auxpow hash chainId params cause
  | size {found : Commitment}
      (committed : commitment (Coinbase.script auxpow.coinbase) (chainRoot auxpow hash)
        = .ok found)
      (apart : found.treeSize ≠ 1 <<< auxpow.chainBranch.length) :
    Refuses auxpow hash chainId params .merkleBranchSizeMismatch
  | leaf {found : Commitment}
      (committed : commitment (Coinbase.script auxpow.coinbase) (chainRoot auxpow hash)
        = .ok found)
      (apart : auxpow.chainIndex.toUInt32.toNat ≠
        expectedIndex found.nonce (UInt32.ofNat chainId) auxpow.chainBranch.length) :
    Refuses auxpow hash chainId params .wrongChainIndex

section Refused

variable {auxpow : AuxPow} {hash : Hash} {chainId : Nat} {params : ChainParams}
  {cause : AuxPowError}

omit [Primitives] in
theorem fails_of_commitment {script : Bytes} {root : Hash}
    (refused : commitment script root = .error cause) : Fails script root cause := by
  have decides := decides_commitment script root
  rw [refused] at decides
  cases decides with
  | fails first => exact first.holds

theorem refuses_of_check (refused : check auxpow hash chainId params = .error cause) :
    Refuses auxpow hash chainId params cause := by
  rw [check] at refused
  simp only [Outcome.throw_bind, Outcome.refuse_eq_error_iff, Bool.and_eq_true, beq_iff_eq,
    gt_iff_lt] at refused
  rcases refused with ⟨nonzero, rfl⟩ | ⟨-, ⟨⟨strict, ours⟩, rfl⟩ | ⟨-, ⟨deep, rfl⟩ | ⟨-, rest⟩⟩⟩
  · exact .index nonzero
  · exact .parent strict ours
  · exact .depth deep
  rcases rest with ⟨apart, rfl⟩ | ⟨-, rest⟩
  · exact .root apart
  cases inputs : auxpow.coinbase.inputs with
  | nil =>
    rw [inputs] at rest
    cases rest
    exact .input inputs
  | cons input others =>
    have script : Coinbase.script auxpow.coinbase = input.scriptSig := by
      rw [Coinbase.script, inputs]
    rw [inputs] at rest
    simp only [← script, Outcome.bind_eq_error_iff, Outcome.refuse_eq_error_iff] at rest
    rcases rest with refused | ⟨found, committed, ⟨apart, rfl⟩ | ⟨-, ⟨apart, rfl⟩ | ⟨-, ⟨⟩⟩⟩⟩
    · exact .script (fails_of_commitment refused)
    · exact .size committed apart
    · exact .leaf committed apart

/-- A coinbase whose branch leads to the parent's root passes the comparison of the two. -/
theorem check_ne_merkleRootIncorrect
    (leads : Merkle.rootOfBranch auxpow.coinbase.txid auxpow.coinbaseBranch auxpow.index.toInt =
      auxpow.parent.merkleRoot) :
    check auxpow hash chainId params ≠ .error .merkleRootIncorrect := by
  intro refused
  cases refuses_of_check refused with
  | root apart => exact apart leads
  | script fails => cases fails

omit [Primitives] in
/-- A tree of one chain has its only leaf for every chain. -/
theorem expectedIndex_zero (nonce chainId : UInt32) : expectedIndex nonce chainId 0 = 0 :=
  Nat.mod_one _

theorem check_ne_wrongChainIndex (alone : auxpow.chainBranch = [])
    (first : auxpow.chainIndex = 0) :
    check auxpow hash chainId params ≠ .error .wrongChainIndex := by
  intro refused
  cases refuses_of_check refused with
  | script fails => cases fails
  | leaf committed apart =>
    rw [alone, first, List.length_nil, expectedIndex_zero] at apart
    exact apart rfl

end Refused

end ScryptLedger.MergeMining
