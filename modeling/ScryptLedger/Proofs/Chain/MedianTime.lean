import Mathlib.Data.List.Sort
import ScryptLedger.Proofs.Chain.Lookup
import ScryptLedger.Proofs.Chain.Position
import ScryptLedger.Proofs.Chain.Provenance
import ScryptLedger.Proofs.Chain.Replay

/-!
# The median time never falls

The median of some times reaches a bound when at most half of them lie below the
bound. The time of a new block lies above the median, and the time that leaves the
window for it, if one does, can only make those below it fewer. So each block lifts
the median or leaves it where it is, also while the window fills up, and every block
is later than the median at each of its ancestors, although it need not be later
than they are.
-/

namespace ScryptLedger.Chain

/-! ## Medians -/

/-- In an ordered list a bound is reached at a place when the list has no more below the bound than
stand before the place. -/
theorem le_iff_countP_le {ordered : List Nat} (rising : ordered.Pairwise (· ≤ ·))
    {place value bound : Nat} (there : ordered[place]? = some value) :
    bound ≤ value ↔ ordered.countP (· < bound) ≤ place := by
  obtain ⟨inside, rfl⟩ := List.getElem?_eq_some_iff.mp there
  have split : ordered = ordered.take place ++ ordered[place] :: ordered.drop (place + 1) := by
    rw [List.getElem_cons_drop, List.take_append_drop]
  have count : ordered.countP (· < bound) = (ordered.take place).countP (· < bound) +
      (ordered[place] :: ordered.drop (place + 1)).countP (· < bound) := by
    rw [← List.countP_append, ← split]
  have length := List.length_take_of_le (Nat.le_of_lt inside)
  rw [split, List.pairwise_append, List.pairwise_cons] at rising
  obtain ⟨-, ⟨after, -⟩, before⟩ := rising
  rw [count]
  constructor
  · intro reached
    have none : (ordered[place] :: ordered.drop (place + 1)).countP (· < bound) = 0 := by
      simp only [List.countP_eq_zero, decide_eq_true_eq, Nat.not_lt]
      intro value held
      rcases List.mem_cons.mp held with rfl | later
      · exact reached
      · exact Nat.le_trans reached (after value later)
    have few := List.countP_le_length (p := fun value => decide (value < bound))
      (l := ordered.take place)
    omega
  · intro few
    by_contra short
    have all : (ordered.take place).countP (· < bound) = (ordered.take place).length := by
      simp only [List.countP_eq_length, decide_eq_true_eq]
      intro value held
      exact Nat.lt_of_le_of_lt (before value held _ List.mem_cons_self) (Nat.not_le.mp short)
    have one : 0 < (ordered[place] :: ordered.drop (place + 1)).countP (· < bound) :=
      List.countP_pos_iff.mpr ⟨_, List.mem_cons_self, decide_eq_true (Nat.not_le.mp short)⟩
    omega

/-- A median reaches a bound when at most half of the times lie below it. -/
theorem le_median_iff {times : List Nat} (some : times ≠ []) {bound : Nat} :
    bound ≤ median times ↔ times.countP (· < bound) ≤ times.length / 2 := by
  have rising : (times.mergeSort (· ≤ ·)).Pairwise (· ≤ ·) :=
    List.pairwise_mergeSort' (· ≤ ·) times
  rw [le_iff_countP_le rising (getElem?_median some), (List.mergeSort_perm times _).countP_eq]

/-- A time at or above the median of a window leaves the median of the next window no lower,
whether or not it drives another time out. -/
theorem median_le_of_le {times : List Nat} (some : times ≠ []) {span time : Nat}
    (late : median (times.take (span + 1)) ≤ time) :
    median (times.take (span + 1)) ≤ median ((time :: times).take (span + 1)) := by
  have window : times.take (span + 1) ≠ [] := by
    rw [Ne, List.take_eq_nil_iff]
    exact fun empty => empty.elim (Nat.succ_ne_zero span) some
  have below := (le_median_iff window).mp (Nat.le_refl _)
  have fewer := (List.take_sublist_take_left (l := times) (Nat.le_succ span)).countP_le
    (p := fun value => decide (value < median (times.take (span + 1))))
  rw [List.take_succ_cons, le_median_iff (List.cons_ne_nil _ _),
    List.countP_cons_of_neg (by simpa using late)]
  have longer : (times.take (span + 1)).length ≤ (time :: times.take span).length := by
    rw [List.length_cons, List.length_take, List.length_take]
    omega
  exact Nat.le_trans (Nat.le_trans fewer below) (Nat.div_le_div_right longer)

/-! ## The blocks of a chain -/

/-- The median of the latest times of some blocks, latest first. -/
def latestMedian (entries : List ChainEntry) : Nat :=
  median ((entries.take medianTimeSpan).map (·.block.header.time.toNat))

/-- The median of the latest times up to a height. -/
def medianTimeAt (chain : Chain) (height : Nat) : Nat :=
  latestMedian (chain.entries.drop (chain.height - height))

theorem medianTimeAt_height (chain : Chain) :
    chain.medianTimeAt chain.height = chain.medianTimePast := by
  rw [medianTimeAt, Nat.sub_self, List.drop_zero]
  rfl

theorem latestMedian_le_cons {entry : ChainEntry} {below : List ChainEntry} (some : below ≠ [])
    (late : latestMedian below ≤ entry.block.header.time.toNat) :
    latestMedian below ≤ latestMedian (entry :: below) := by
  rw [latestMedian, List.map_take] at late
  rw [latestMedian, latestMedian, List.map_take, List.map_take, List.map_cons]
  exact median_le_of_le (mt List.map_eq_nil_iff.mp some) late

/-- Whether each of some blocks, latest first, is later than the median of those below it. The
lowest has none below it. -/
inductive EachLate : List ChainEntry → Prop
  | lowest (entry : ChainEntry) : EachLate [entry]
  | above {entry : ChainEntry} {below : List ChainEntry}
      (late : latestMedian below < entry.block.header.time.toNat) (rest : EachLate below) :
      EachLate (entry :: below)

namespace EachLate

variable {upper lower : List ChainEntry}

theorem ne_nil (each : EachLate upper) : upper ≠ [] := by
  cases each with
  | lowest => exact List.cons_ne_nil _ _
  | above => exact List.cons_ne_nil _ _

/-- The blocks from any one down to the lowest are late as well, and their median is no higher. -/
theorem of_suffix (each : EachLate upper) (some : lower ≠ []) (within : lower <:+ upper) :
    EachLate lower ∧ latestMedian lower ≤ latestMedian upper := by
  induction each with
  | lowest entry =>
    rcases List.suffix_cons_iff.mp within with rfl | none
    · exact ⟨.lowest entry, Nat.le_refl _⟩
    · exact absurd (List.suffix_nil.mp none) some
  | above late rest ih =>
    rcases List.suffix_cons_iff.mp within with rfl | within
    · exact ⟨.above late rest, Nat.le_refl _⟩
    · obtain ⟨each, kept⟩ := ih within
      exact ⟨each, Nat.le_trans kept (latestMedian_le_cons rest.ne_nil (Nat.le_of_lt late))⟩

theorem late_of_split {later earlier : List ChainEntry} {entry : ChainEntry}
    (each : EachLate (later ++ entry :: earlier)) (some : earlier ≠ []) :
    latestMedian earlier < entry.block.header.time.toNat := by
  have each := (each.of_suffix (List.cons_ne_nil entry earlier) (List.suffix_append _ _)).1
  cases each with
  | lowest => exact absurd rfl some
  | above late => exact late

end EachLate

section Heights

variable {chain : Chain}

theorem upTo_ne_nil (chain : Chain) (height : Nat) :
    chain.entries.drop (chain.height - height) ≠ [] := by
  rw [Ne, List.drop_eq_nil_iff, length_entries]
  omega

theorem medianTimeAt_mono (each : EachLate chain.entries) {low high : Nat} (lower : low ≤ high) :
    chain.medianTimeAt low ≤ chain.medianTimeAt high := by
  have upTo := (each.of_suffix (chain.upTo_ne_nil high) (List.drop_suffix _ _)).1
  have within : chain.entries.drop (chain.height - low) <:+
      chain.entries.drop (chain.height - high) :=
    List.drop_suffix_drop_left _ (Nat.sub_le_sub_left lower _)
  exact (upTo.of_suffix (chain.upTo_ne_nil low) within).2

/-- A block is later than the median at each of its ancestors. -/
theorem medianTimeAt_lt (each : EachLate chain.entries) {height : Nat} {entry : ChainEntry}
    (there : chain.entryAt? height = some entry) {ancestor : Nat} (lower : ancestor < height) :
    chain.medianTimeAt ancestor < entry.block.header.time.toNat := by
  obtain ⟨parent, rfl⟩ := Nat.exists_eq_succ_of_ne_zero (Nat.ne_zero_of_lt lower)
  obtain ⟨later, earlier, above, rfl⟩ := split_of_entryAt? there
  have split : chain.entries = later ++ entry :: (earlier ++ [chain.genesis]) := by
    rw [entries, above, List.append_assoc, List.cons_append]
  have below : earlier ++ [chain.genesis] ≠ [] := by simp
  have underneath : earlier ++ [chain.genesis] <:+ chain.entries := by
    rw [split]
    exact (List.suffix_cons entry _).trans (List.suffix_append _ _)
  have within : chain.entries.drop (chain.height - ancestor) <:+ earlier ++ [chain.genesis] := by
    refine List.suffix_of_suffix_length_le (List.drop_suffix _ _) underneath ?_
    rw [List.length_drop, length_entries, List.length_append, List.length_singleton]
    omega
  have parents := (each.of_suffix below underneath).1
  have kept := (parents.of_suffix (chain.upTo_ne_nil ancestor) within).2
  rw [split] at each
  exact Nat.lt_of_le_of_lt kept (each.late_of_split below)

end Heights

/-! ## Runs -/

section Runs

variable [Primitives] {chain : Chain}

theorem Extends.late {block : Block} {connected : Connected}
    (fits : chain.Extends block connected) :
    latestMedian chain.entries < block.header.time.toNat := by
  obtain ⟨-, -, -, late, -⟩ := checkPosition_eq_ok_iff.mp fits.placed
  exact late

/-- Connecting a block keeps each block later than the median below it. -/
theorem EachLate.grow (each : EachLate chain.entries) {block : Block} {connected : Connected}
    (fits : chain.Extends block connected) : EachLate (chain.grow block connected).entries :=
  .above fits.late each

theorem EachLate.retreat {longer shorter : Chain} (each : EachLate longer.entries)
    (move : Retreat longer shorter) : EachLate shorter.entries := by
  have some : shorter.entries ≠ [] :=
    List.append_ne_nil_of_right_ne_nil _ (List.cons_ne_nil _ _)
  exact (each.of_suffix some move.entries_suffix).1

theorem eachLate_run (rules : Rules) (requests : List ChainRequest) :
    EachLate ((Chain.new rules).run requests).entries := by
  refine run_induction (Chain.new rules) (P := fun chain => EachLate chain.entries) ?_ ?_ ?_
    requests
  · exact .lowest _
  · intro chain block connected each fits
    exact each.grow fits
  · intro longer shorter each move
    exact each.retreat move

/-- Connecting a block does not lower the median time of a chain. Along the blocks of every chain
that a run leads to, the median does not fall with the height, and each block is later than the
median at each of its ancestors. -/
theorem median_never_falls (rules : Rules) (requests : List ChainRequest) :
    (∀ (block : Block) (update : ChainUpdate),
      ((Chain.new rules).run requests).connect block = .ok update →
      ((Chain.new rules).run requests).medianTimePast ≤ update.chain.medianTimePast) ∧
    (∀ low high, low ≤ high → high ≤ ((Chain.new rules).run requests).height →
      ((Chain.new rules).run requests).medianTimeAt low ≤
        ((Chain.new rules).run requests).medianTimeAt high) ∧
    (∀ height entry, ((Chain.new rules).run requests).entryAt? height = some entry →
      ∀ ancestor < height, ((Chain.new rules).run requests).medianTimeAt ancestor <
        entry.block.header.time.toNat) ∧
    ((Chain.new rules).run requests).medianTimeAt ((Chain.new rules).run requests).height =
      ((Chain.new rules).run requests).medianTimePast := by
  have each := eachLate_run rules requests
  refine ⟨?_, ?_, ?_, medianTimeAt_height _⟩
  · intro block update done
    obtain ⟨connected, fits, rfl⟩ := connect_eq_ok_iff.mp done
    exact latestMedian_le_cons each.ne_nil (Nat.le_of_lt fits.late)
  · intro low high lower _
    exact medianTimeAt_mono each lower
  · intro height entry there ancestor lower
    exact medianTimeAt_lt each there lower

end Runs

namespace Backdated

local instance : Primitives := Primitives.transparent

def early : Block := Twins.block Twins.rules.params.genesisHash 1296688610

def late : Block := Twins.block early.hash 1296688700

/-- A block that is earlier than its parent. -/
def back : Block := Twins.block late.hash 1296688611

def single : Chain := (Chain.new Twins.rules).run [.connect early]

/-- What connecting the second block yields. -/
def connected : Connected :=
  match late.connect single.rules (single.height + 1) (single.stakingWinner? single.tip.hash)
    single.coins with
  | .ok connected => connected
  | .error _ => ⟨∅, [], 0, 0⟩

def pair : Chain := single.grow late connected

theorem late_fits : single.Extends late connected := by
  constructor
  · refine checkPosition_eq_ok_iff.mpr ⟨?_, ?_, ?_, medianTimePast_lt ?_, ?_⟩
    · decide +kernel
    · decide +kernel
    · decide +kernel
    · decide +kernel
    · decide +kernel
  · have succeeds : (late.connect single.rules (single.height + 1)
        (single.stakingWinner? single.tip.hash) single.coins).isOk = true := by decide +kernel
    obtain ⟨outcome, accepted⟩ := Outcome.eq_ok_of_isOk succeeds
    rw [connected, accepted]

theorem back_fits : ∃ connected, pair.Extends back connected := by
  have placed : pair.checkPosition back = .ok () := by
    refine checkPosition_eq_ok_iff.mpr ⟨?_, ?_, ?_, ?_, ?_⟩
    · decide +kernel
    · decide +kernel
    · decide +kernel
    · rw [← Nat.not_le]
      refine mt (le_median_iff ?_).mp ?_
      · decide +kernel
      · decide +kernel
    · decide +kernel
  have succeeds : (back.connect pair.rules (pair.height + 1)
      (pair.stakingWinner? pair.tip.hash) pair.coins).isOk = true := by decide +kernel
  obtain ⟨connected, accepted⟩ := Outcome.eq_ok_of_isOk succeeds
  exact ⟨connected, placed, accepted⟩

theorem run_pair : (Chain.new Twins.rules).run [.connect early, .connect late] = pair :=
  after_connect late_fits

/-- A block may be earlier than its parent, but not so early that the median falls. -/
theorem median_kept_by_backdated :
    ∃ update, pair.connect back = .ok update ∧ back.header.time < late.header.time ∧
      pair.medianTimePast ≤ update.chain.medianTimePast ∧
      pair.medianTimeAt 1 ≤ pair.medianTimeAt 2 ∧
      pair.medianTimeAt 0 < late.header.time.toNat := by
  obtain ⟨above, fits⟩ := back_fits
  have done := connect_eq_ok_iff.mpr ⟨above, fits, rfl⟩
  obtain ⟨kept, rising, later, -⟩ :=
    median_never_falls Twins.rules [.connect early, .connect late]
  rw [run_pair] at kept rising later
  have high : 2 ≤ pair.height := by decide +kernel
  have two : single.entries.length = 2 := by decide +kernel
  have there : pair.entryAt? 2 = some ⟨late.hash, late, connected.undo⟩ := by
    have top : pair.entries = [] ++ ⟨late.hash, late, connected.undo⟩ :: single.entries := rfl
    rw [← two]
    exact entryAt?_of_split top
  exact ⟨_, done, by decide, kept back _ done, rising 1 2 (by decide) high,
    later 2 _ there 0 (by decide)⟩

end Backdated

end ScryptLedger.Chain
