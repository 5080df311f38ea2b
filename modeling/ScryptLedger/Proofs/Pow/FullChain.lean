import ScryptLedger.Primitives.Transparent
import ScryptLedger.Proofs.Pow.Window
import ScryptLedger.Proofs.Pow.Words

/-!
# Difficulty on a full chain

On every network, whatever its easiest target and its digishield height, a chain
with one header at each height tells the target of the next block at any time. A
machine finds it without a fault, it is an old target or a new one within the
limit, and the last round of headers is enough to find it.
-/

namespace ScryptLedger

/-- The constants of a network with another limit and another digishield height. -/
def ChainParams.retuned [Primitives] (network : Network) (limit digishield : Nat) : ChainParams :=
  { ofNetwork network with powLimit := limit, digishieldHeight := digishield }

namespace Retarget

/-- Whether headers are all that a chain has: one at each height from zero on, with heights and
times of 32 bits. -/
structure IsFull (headers : List HeaderInfo) : Prop where
  nonempty : headers ≠ []
  numbered : Numbered headers
  fits : ∀ header ∈ headers, header.FitsWords

section General

variable [Primitives] {headers : List HeaderInfo}

theorem targetSpacing_retuned (network : Network) (limit digishield : Nat) :
    0 < (ChainParams.retuned network limit digishield).targetSpacing ∧
      (ChainParams.retuned network limit digishield).targetSpacing ≤ 4 * 60 * 60 := by
  cases network with
  | main => exact ⟨by change 0 < 60; decide, by change 60 ≤ 4 * 60 * 60; decide⟩
  | test => exact ⟨by change 0 < 600; decide, by change 600 ≤ 4 * 60 * 60; decide⟩
  | regtest => exact ⟨by change 0 < 600; decide, by change 600 ≤ 4 * 60 * 60; decide⟩

/-- The target after a full chain is known, comes from the chain or the limit, and does not depend
on the headers before the last round. -/
theorem next_of_full (full : IsFull headers) (network : Network) (limit digishield : Nat)
    (time : Int) :
    ∃ bits,
      next headers time (.retuned network limit digishield) = .ok bits ∧
      Words.next headers time (.retuned network limit digishield) = pure (.ok bits) ∧
      ((∃ header ∈ headers, header.bits = bits) ∨
        ∃ target ≤ limit, bits = Target.toCompact target) ∧
      ∀ suffix, suffix <:+ headers →
        min headers.length ((ChainParams.retuned network limit digishield).retargetInterval
          (headers.length - 1) + 1) ≤ suffix.length →
        next suffix time (.retuned network limit digishield) = .ok bits ∧
          Words.next suffix time (.retuned network limit digishield) = pure (.ok bits) := by
  obtain ⟨positive, spacing⟩ := targetSpacing_retuned network limit digishield
  have within : (ChainParams.retuned network limit digishield).powLimit = limit := rfl
  generalize ChainParams.retuned network limit digishield = params at positive spacing within ⊢
  obtain ⟨bits, known⟩ := next_succeeds full.nonempty full.numbered time params
  have origin := origin_of_next known
  rw [within] at origin
  refine ⟨bits, known, ?_, origin, ?_⟩
  · rw [Words.next_eq positive spacing full.fits, known]
  · rintro suffix ⟨dropped, rfl⟩ enough
    have interval := Words.retargetInterval_pos positive spacing
      ((dropped ++ suffix).length - 1)
    have same : next suffix time params = .ok bits :=
      (next_append full.numbered full.nonempty interval enough).trans known
    refine ⟨same, ?_⟩
    have fits : ∀ header ∈ suffix, header.FitsWords := by
      intro header found
      exact full.fits header (List.mem_append_right dropped found)
    rw [Words.next_eq positive spacing fits, same]

end General

namespace Paused

local instance : Primitives := Primitives.transparent

/-- Thirty headers ten minutes apart, the last five with the easiest target. -/
def headers : List HeaderInfo :=
  (List.range 30).map fun height =>
    ⟨height, 1391503289 + 600 * height, if 24 < height then 0x1e0fffff else 0x1d00ffff⟩

theorem full_headers : IsFull headers where
  nonempty := by decide
  numbered := by
    intro height header found
    obtain ⟨_, inside, rfl⟩ := Option.map_eq_some_iff.mp (List.getElem?_map.symm.trans found)
    obtain ⟨_, same⟩ := List.getElem?_eq_some_iff.mp inside
    exact ((List.getElem_range _).symm.trans same).symm
  fits := by
    intro header found
    obtain ⟨height, inside, rfl⟩ := List.mem_map.mp found
    have small := List.mem_range.mp inside
    exact ⟨by dsimp only; omega, by dsimp only; omega, by dsimp only; omega⟩

/-- The last target that is not the easiest one stands at the start of the round, and is found with
one round of headers and one more. -/
theorem next_paused :
    IsFull headers ∧
      next headers 1391521289 (.retuned .test (2 ^ 236 - 1) 145000) = .ok 0x1d00ffff ∧
      headers.drop 5 <:+ headers ∧
      min headers.length ((ChainParams.retuned .test (2 ^ 236 - 1) 145000).retargetInterval
        (headers.length - 1) + 1) ≤ (headers.drop 5).length ∧
      Words.next (headers.drop 5) 1391521289 (.retuned .test (2 ^ 236 - 1) 145000)
        = pure (.ok 0x1d00ffff) := by
  obtain ⟨bits, known, -, -, enough⟩ :=
    next_of_full full_headers .test (2 ^ 236 - 1) 145000 1391521289
  have found : next headers 1391521289 (.retuned .test (2 ^ 236 - 1) 145000) = .ok 0x1d00ffff := rfl
  have same : bits = 0x1d00ffff := Except.ok.inj (known.symm.trans found)
  have suffix : headers.drop 5 <:+ headers := List.drop_suffix 5 headers
  have long : min headers.length ((ChainParams.retuned .test (2 ^ 236 - 1) 145000).retargetInterval
      (headers.length - 1) + 1) ≤ (headers.drop 5).length := by decide
  refine ⟨full_headers, found, suffix, long, ?_⟩
  rw [← same]
  exact (enough _ suffix long).2

end Paused

end Retarget

end ScryptLedger
