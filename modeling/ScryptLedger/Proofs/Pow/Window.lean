import Mathlib.Data.List.Chain
import ScryptLedger.Proofs.Pow.Retarget
import ScryptLedger.Proofs.Pow.Transition

/-!
# How far back difficulty looks

The next target is the one of some header before, or a new one within the limit.
To find it, difficulty looks back over one round at most: to the header where the
round started, or through easiest targets, and these are not followed past the
start of the round. So the headers before the round make no difference.
-/

namespace ScryptLedger.Retarget

variable {params : ChainParams} {headers dropped suffix : List HeaderInfo} {time : Int}

/-! ## Where a target comes from -/

theorem lastHardBits_mem (limitBits : UInt32) (round : Nat) (latest : HeaderInfo)
    (earlier : List HeaderInfo) :
    ∃ header ∈ latest :: earlier, header.bits = lastHardBits limitBits round latest earlier := by
  induction earlier generalizing latest with
  | nil => exact ⟨latest, List.mem_cons_self, rfl⟩
  | cons before earlier ih =>
    rw [lastHardBits]
    split
    · exact ⟨latest, List.mem_cons_self, rfl⟩
    · obtain ⟨header, found, same⟩ := ih before
      exact ⟨header, List.mem_cons_of_mem latest found, same⟩

/-- The next target is that of a header before it, or a new one within the limit. -/
theorem origin_of_next {bits : UInt32} (known : next headers time params = .ok bits) :
    (∃ header ∈ headers, header.bits = bits) ∨
      ∃ target ≤ params.powLimit, bits = Target.toCompact target := by
  rw [next] at known
  cases shape : headers.reverse with
  | nil =>
    rw [shape] at known
    exact absurd known Outcome.throw_ne_ok
  | cons parent earlier =>
    have held : ∀ header ∈ parent :: earlier, header ∈ headers := by
      intro header found
      rw [← shape] at found
      exact List.mem_reverse.mp found
    rw [shape] at known
    dsimp only at known
    generalize (if (rulesAt params parent.height).digishield then 1
      else params.targetTimespan parent.height / params.targetSpacing) = interval at known
    split at known
    · cases Outcome.pure_eq_ok_iff.mp known
      exact Or.inl ⟨parent, held parent List.mem_cons_self, rfl⟩
    split at known
    · cases Outcome.pure_eq_ok_iff.mp known
      exact Or.inr ⟨params.powLimit, Nat.le_refl _, rfl⟩
    split at known
    · split at known
      · cases Outcome.pure_eq_ok_iff.mp known
        obtain ⟨header, found, same⟩ := lastHardBits_mem (Target.toCompact params.powLimit)
          (params.targetTimespan parent.height / params.targetSpacing) parent earlier
        exact Or.inl ⟨header, held header found, same⟩
      · cases Outcome.pure_eq_ok_iff.mp known
        exact Or.inl ⟨parent, held parent List.mem_cons_self, rfl⟩
    · obtain ⟨-, known⟩ := Outcome.refuse_eq_ok_iff.mp known
      obtain ⟨first, -, known⟩ := Outcome.bind_eq_ok_iff.mp known
      exact Or.inr ⟨_, scale_le_powLimit .., (Outcome.pure_eq_ok_iff.mp known).symm⟩

/-! ## What is looked at -/

/-- Two lists of headers with the same latest one give the same target, if the run of easiest
targets ends alike and the round starts alike. -/
theorem next_congr {others earlier earlier' : List HeaderInfo} {parent : HeaderInfo}
    (shape : headers.reverse = parent :: earlier) (shape' : others.reverse = parent :: earlier')
    (walk : (parent.height + 1) % params.retargetInterval parent.height ≠ 0 →
      ∀ limitBits, lastHardBits limitBits (params.targetTimespan parent.height
          / params.targetSpacing) parent earlier
        = lastHardBits limitBits (params.targetTimespan parent.height / params.targetSpacing)
          parent earlier')
    (start : (parent.height + 1) % params.retargetInterval parent.height = 0 →
      ∀ back ≤ params.retargetInterval parent.height,
        headerAt headers (parent.height - back) = headerAt others (parent.height - back)) :
    next headers time params = next others time params := by
  rw [next, next, shape, shape']
  dsimp only
  rw [← interval_rulesAt] at walk start
  generalize (if (rulesAt params parent.height).digishield then 1
    else params.targetTimespan parent.height / params.targetSpacing) = interval at walk start ⊢
  by_cases ends : (parent.height + 1) % interval = 0
  · have back : (if parent.height + 1 = interval then interval - 1 else interval) ≤ interval := by
      split <;> omega
    rw [start ends _ back]
    simp [ends]
  · rw [walk ends]
    simp [ends]

/-- A run of easiest targets is not followed past the start of the round. -/
theorem lastHardBits_append {limitBits : UInt32} {round : Nat} (positive : 0 < round)
    {latest : HeaderInfo} {later : List HeaderInfo} (more : List HeaderInfo)
    (descends : (latest :: later).IsChain fun above below => above.height = below.height + 1)
    (reaches : latest.height % round ≤ later.length) :
    lastHardBits limitBits round latest (later ++ more)
      = lastHardBits limitBits round latest later := by
  induction later generalizing latest with
  | nil =>
    have starts : latest.height % round = 0 := Nat.le_zero.mp reaches
    cases more with
    | nil => rfl
    | cons before more => simp [lastHardBits, positive, starts]
  | cons before later ih =>
    obtain ⟨above, descends⟩ := List.isChain_cons_cons.mp descends
    rw [List.cons_append, lastHardBits, lastHardBits]
    by_cases starts : latest.height % round = 0
    · simp [positive, starts]
    · -- one block further down the same round
      have lower : before.height % round + 1 = latest.height % round := by
        have below := Nat.mod_lt before.height positive
        rw [above, ← Nat.mod_add_mod] at starts ⊢
        by_cases last : before.height % round + 1 = round
        · exact absurd (by rw [last, Nat.mod_self]) starts
        · rw [Nat.mod_eq_of_lt (show before.height % round + 1 < round by omega)]
      rw [List.length_cons] at reaches
      rw [ih descends (by omega)]

theorem descends_of_numbered (numbered : Numbered headers) :
    headers.reverse.IsChain fun above below => above.height = below.height + 1 := by
  rw [List.isChain_reverse, List.isChain_iff_getElem]
  intro height inside
  have lower := numbered height _ (List.getElem?_eq_getElem (by omega))
  have upper := numbered (height + 1) _ (List.getElem?_eq_getElem inside)
  omega

/-- The headers from some height on show the same headers. -/
theorem headerAt_append (numbered : Numbered (dropped ++ suffix)) {height : Nat}
    (above : dropped.length ≤ height) (inside : height < (dropped ++ suffix).length) :
    headerAt suffix height = headerAt (dropped ++ suffix) height := by
  have nonempty : suffix ≠ [] := by
    rintro rfl
    rw [List.append_nil] at inside
    omega
  have lowest : (suffix.head?.map HeaderInfo.height).getD 0 = dropped.length := by
    cases suffix with
    | nil => exact absurd rfl nonempty
    | cons header rest => exact numbered dropped.length header (by simp)
  have found : suffix[height - dropped.length]? = some (dropped ++ suffix)[height] := by
    rw [← List.getElem?_append_right above, List.getElem?_eq_getElem]
  rw [headerAt_of_lt numbered inside, headerAt, lowest, if_neg (Nat.not_lt.mpr above), found]
  rfl

/-- Inside of a round the interval is not one, so it is the round that is walked through. -/
theorem round_of_inside {height : Nat}
    (inside : (height + 1) % params.retargetInterval height ≠ 0) :
    params.targetTimespan height / params.targetSpacing = params.retargetInterval height := by
  rw [ChainParams.retargetInterval] at inside ⊢
  by_cases single : params.isDigishield height = true
  · rw [if_pos single] at inside
    exact absurd (Nat.mod_one _) inside
  · rw [if_neg single]

/-- One round of headers and one more tell the next target. -/
theorem next_append (numbered : Numbered (dropped ++ suffix)) (nonempty : dropped ++ suffix ≠ [])
    (positive : 0 < params.retargetInterval ((dropped ++ suffix).length - 1))
    (enough : min (dropped ++ suffix).length
        (params.retargetInterval ((dropped ++ suffix).length - 1) + 1) ≤ suffix.length) :
    next suffix time params = next (dropped ++ suffix) time params := by
  have some : 0 < (dropped ++ suffix).length := List.length_pos_iff.mpr nonempty
  rcases suffix.eq_nil_or_concat' with rfl | ⟨before, parent, rfl⟩
  · rw [List.length_nil] at enough
    omega
  have length : (dropped ++ (before ++ [parent])).length = dropped.length + before.length + 1 := by
    simp [Nat.add_assoc]
  have top : parent.height = dropped.length + before.length := by
    refine numbered (dropped.length + before.length) parent ?_
    simp
  have parts : (before ++ [parent]).length = before.length + 1 := by simp
  rw [length, Nat.add_sub_cancel, ← top] at positive enough
  rw [parts] at enough
  have shape : (before ++ [parent]).reverse = parent :: before.reverse := by simp
  have shape' : (dropped ++ (before ++ [parent])).reverse
      = parent :: (before.reverse ++ dropped.reverse) := by simp
  refine next_congr shape shape' ?_ ?_
  · intro inside limitBits
    have descends := descends_of_numbered numbered
    rw [shape', ← List.cons_append] at descends
    rw [round_of_inside inside, lastHardBits_append positive _ descends.left_of_append]
    rw [List.length_reverse]
    have below := Nat.mod_lt parent.height positive
    have most := Nat.mod_le parent.height (params.retargetInterval parent.height)
    omega
  · intro _ back within
    refine headerAt_append numbered ?_ ?_
    · omega
    · omega

end ScryptLedger.Retarget
