import ScryptLedger.Chain.Basic
import ScryptLedger.Proofs.Outcome

/-!
# The next target is always known

A chain holds a header at every height up to its tip, and a round of difficulty
never starts below the genesis block. So the target of the next block can be
told on top of every chain, at every time.
-/

namespace ScryptLedger

namespace Retarget

/-- Whether each header of a list stands at the place its height says. -/
def Numbered (headers : List HeaderInfo) : Prop :=
  ∀ (height : Nat) (header : HeaderInfo), headers[height]? = some header → header.height = height

theorem headerAt_of_lt {headers : List HeaderInfo} (numbered : Numbered headers) {height : Nat}
    (inside : height < headers.length) : headerAt headers height = .ok headers[height] := by
  have lowest : (headers.head?.map HeaderInfo.height).getD 0 = 0 := by
    cases first : headers.head? with
    | none => rfl
    | some header =>
      rw [List.head?_eq_getElem?] at first
      exact numbered 0 header first
  simp only [headerAt, lowest, Nat.not_lt_zero, if_false, Nat.sub_zero,
    List.getElem?_eq_getElem inside, pure, Except.pure]

/-- Where a round ends, it started at the genesis block or above it. -/
theorem back_le {parent interval : Nat} (ends : (parent + 1) % interval = 0) :
    (if parent + 1 = interval then interval - 1 else interval) ≤ parent := by
  obtain ⟨rounds, multiple⟩ := Nat.dvd_of_mod_eq_zero ends
  by_cases first : parent + 1 = interval
  · rw [if_pos first]
    omega
  · rw [if_neg first]
    rcases rounds with _ | _ | more
    · omega
    · omega
    · have several : interval * 2 ≤ interval * (more + 1 + 1) := Nat.mul_le_mul_left _ (by omega)
      omega

theorem next_succeeds {headers : List HeaderInfo} (nonempty : headers ≠ [])
    (numbered : Numbered headers) (time : Int) (params : ChainParams) :
    ∃ bits, next headers time params = .ok bits := by
  rw [next]
  cases shape : headers.reverse with
  | nil => exact absurd (List.reverse_eq_nil_iff.mp shape) nonempty
  | cons parent earlier =>
    have above : headers = earlier.reverse ++ [parent] := by
      rw [← List.reverse_reverse headers, shape, List.reverse_cons]
    have top : parent.height = earlier.length := by
      refine numbered earlier.length parent ?_
      rw [above, List.getElem?_append_right (by simp)]
      simp
    have known : ∀ back, ∃ header, headerAt headers (parent.height - back) = .ok header := by
      intro back
      have inside : parent.height - back < headers.length := by
        rw [above, List.length_append, List.length_reverse, List.length_singleton]
        omega
      exact ⟨_, headerAt_of_lt numbered inside⟩
    dsimp only
    generalize params.targetTimespan parent.height / params.targetSpacing = round
    generalize (if (rulesAt params parent.height).digishield then 1 else round) = interval
    by_cases fixed : params.noRetargeting = true
    · exact ⟨_, if_pos fixed⟩
    rw [if_neg fixed]
    split
    · exact ⟨_, rfl⟩
    by_cases ends : (parent.height + 1) % interval = 0
    · obtain ⟨first, found⟩ :=
        known (if parent.height + 1 = interval then interval - 1 else interval)
      rw [if_neg (by simp [ends]), if_neg (Nat.not_lt.mpr (back_le ends)), found]
      exact ⟨_, rfl⟩
    · rw [if_pos (by simp [ends])]
      split <;> exact ⟨_, rfl⟩

end Retarget

namespace Chain

theorem numbered_headers (chain : Chain) : Retarget.Numbered chain.headers := by
  intro height header found
  obtain ⟨entry, -, rfl⟩ := Option.map_eq_some_iff.mp (List.getElem?_mapIdx.symm.trans found)
  rfl

/-- The target of the next block can be told on top of every chain. -/
theorem nextWork_succeeds (chain : Chain) (time : Int) :
    ∃ bits, chain.nextWork time = .ok bits := by
  have nonempty : chain.headers ≠ [] := by simp [headers, entries]
  exact Retarget.next_succeeds nonempty chain.numbered_headers time chain.rules.params

/-- Where the target is fixed, the next block has that of the latest one. -/
theorem nextWork_of_fixed {chain : Chain} (fixed : chain.rules.params.noRetargeting = true)
    (time : Int) : chain.nextWork time = .ok chain.tipEntry.block.header.bits := by
  have latest : ∃ parent earlier, chain.headers.reverse = parent :: earlier ∧
      parent.bits = chain.tipEntry.block.header.bits := by
    rw [headers, entries, tipEntry]
    cases chain.above with
    | nil => exact ⟨_, _, rfl, rfl⟩
    | cons entry below => simp [List.mapIdx_append]
  obtain ⟨parent, earlier, shape, bits⟩ := latest
  rw [nextWork, Retarget.next, shape]
  simp only [fixed, if_true, bits]
  rfl

end Chain

end ScryptLedger
