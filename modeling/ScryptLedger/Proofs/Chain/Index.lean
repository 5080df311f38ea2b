import Mathlib.Data.List.Basic
import ScryptLedger.Chain.Index
import ScryptLedger.Proofs.Outcome

/-!
# What is stored beside the blocks

A stored chain is exact when everything in it says what the blocks say, and
when each block above the genesis block stands where it does by right. Storing
a block that fits keeps a chain exact, and so does taking the tip off: what a
block added to each part is what leaves with it.
-/

namespace ScryptLedger

namespace ChainIndex

/-- What difficulty looks at in some blocks, in order of height. -/
def headersOf (entries : List IndexEntry) : List HeaderInfo :=
  entries.mapIdx fun height entry =>
    ⟨height, entry.block.header.time.toNat, entry.block.header.bits⟩

/-- The number of transactions in some blocks. -/
def txCountOf (entries : List IndexEntry) : Nat :=
  (entries.flatMap (·.block.transactions)).length

/-- Whether the identities that have a height are those of some blocks, each with its own. -/
def Locates (heights : Std.ExtTreeMap Hash Nat compare) (entries : List IndexEntry) : Prop :=
  ∀ hash height, heights[hash]? = some height ↔
    ∃ entry : IndexEntry, entries[height]? = some entry ∧ entry.hash = hash

/-- Whether a block names the latest of the blocks below it, is late enough after them, and has
the target that they ask for. -/
structure Follows (params : ChainParams) (below : List IndexEntry) (header : BlockHeader) :
    Prop where
  linked : below.getLast?.map (·.hash) = some header.previous
  late : ∃ median, medianTime? (headersOf below) = some median ∧ median < header.time.toNat
  worked : Retarget.next (headersOf below) header.time.toNat params = .ok header.bits

/-- Whether everything that is stored says what the blocks say, and each block stands where it
does by right. -/
structure Exact [Primitives] (index : ChainIndex) : Prop where
  /-- The lowest block is the genesis block. -/
  genesis : ∃ entry, index.active.head? = some entry ∧ entry.block = index.rules.params.genesis
  /-- Every block is stored under its identity. -/
  named : ∀ entry ∈ index.active, entry.hash = entry.block.hash
  /-- Every other block follows the blocks below it. -/
  follows : ∀ below entry above, index.active = below ++ entry :: above → below ≠ [] →
    Follows index.rules.params below entry.block.header
  /-- There is one header for each block, with its height, time and target. -/
  headers : index.headers = headersOf index.active
  /-- Each block, and nothing else, has a height: its own. -/
  heights : Locates index.heights index.active
  /-- The number of transactions at a block counts it and all blocks below it. -/
  counted : ∀ below entry above, index.active = below ++ entry :: above →
    entry.txCount = txCountOf (below ++ [entry])
  /-- No block was ruled out. -/
  valid : ∀ entry ∈ index.active, index.invalid.contains entry.hash = false
  /-- A height up to which blocks are permanent is the height of a block. -/
  permanent : ∀ finalized, index.finalized = some finalized → finalized < index.active.length

theorem headersOf_concat (entries : List IndexEntry) (entry : IndexEntry) :
    headersOf (entries ++ [entry]) = headersOf entries ++
      [⟨entries.length, entry.block.header.time.toNat, entry.block.header.bits⟩] :=
  List.mapIdx_concat

theorem txCountOf_concat (entries : List IndexEntry) (entry : IndexEntry) :
    txCountOf (entries ++ [entry]) = txCountOf entries + entry.block.transactions.length := by
  rw [txCountOf, List.flatMap_append, List.length_append, List.flatMap_singleton]
  rfl

/-- A block among some blocks and one more is the last one, or among the others. -/
theorem split_concat {entries below above : List IndexEntry} {last entry : IndexEntry}
    (split : entries ++ [last] = below ++ entry :: above) :
    (below = entries ∧ entry = last) ∨ ∃ rest, entries = below ++ entry :: rest := by
  rcases List.eq_nil_or_concat above with rfl | ⟨rest, top, rfl⟩
  · obtain ⟨same, top⟩ := List.append_inj' split rfl
    exact Or.inl ⟨same.symm, (List.singleton_inj.mp top).symm⟩
  · refine Or.inr ⟨rest, (List.append_inj' (?_ : _ ++ [last] = _ ++ [top]) rfl).1⟩
    rw [split, List.concat_eq_append, List.append_assoc, List.cons_append]

theorem getElem?_concat_eq_some_iff {entries : List IndexEntry} {last entry : IndexEntry}
    {height : Nat} : (entries ++ [last])[height]? = some entry ↔
      entries[height]? = some entry ∨ (height = entries.length ∧ last = entry) := by
  rcases Nat.lt_trichotomy height entries.length with inside | rfl | outside
  · rw [List.getElem?_append_left inside]
    exact ⟨Or.inl, fun there => there.resolve_right fun top => absurd top.1 (Nat.ne_of_lt inside)⟩
  · rw [List.getElem?_concat_length, List.getElem?_eq_none (Nat.le_refl _), Option.some_inj]
    simp
  · rw [List.getElem?_eq_none (by simp; omega), List.getElem?_eq_none (Nat.le_of_lt outside)]
    simp [Nat.ne_of_gt outside]

namespace Locates

variable {heights : Std.ExtTreeMap Hash Nat compare} {entries : List IndexEntry}

/-- No identity stands at two heights. -/
theorem unique (locates : Locates heights entries) {height other : Nat} {entry twin : IndexEntry}
    (there : entries[height]? = some entry) (here : entries[other]? = some twin)
    (same : entry.hash = twin.hash) : height = other := by
  have found := (locates entry.hash height).mpr ⟨entry, there, rfl⟩
  have again := (locates entry.hash other).mpr ⟨twin, here, same.symm⟩
  exact Option.some.inj (found.symm.trans again)

theorem ne_of_fresh (locates : Locates heights entries) {hash : Hash}
    (fresh : heights[hash]? = none) {entry : IndexEntry} (held : entry ∈ entries) :
    entry.hash ≠ hash := by
  rintro rfl
  obtain ⟨height, there⟩ := List.mem_iff_getElem?.mp held
  rw [(locates entry.hash height).mpr ⟨entry, there, rfl⟩] at fresh
  cases fresh

/-- A new block gets the next height. -/
theorem insert (locates : Locates heights entries) (last : IndexEntry)
    (fresh : heights[last.hash]? = none) :
    Locates (heights.insert last.hash entries.length) (entries ++ [last]) := by
  intro hash height
  simp only [Std.ExtTreeMap.getElem?_insert, Std.compare_eq_iff_eq, getElem?_concat_eq_some_iff]
  by_cases new : last.hash = hash
  · rw [if_pos new]
    constructor
    · intro top
      exact ⟨last, Or.inr ⟨(Option.some.inj top).symm, rfl⟩, new⟩
    · rintro ⟨entry, old | ⟨rfl, _⟩, same⟩
      · exact absurd (same.trans new.symm) (locates.ne_of_fresh fresh (List.mem_of_getElem? old))
      · rfl
  · rw [if_neg new, locates hash height]
    constructor
    · rintro ⟨entry, there, same⟩
      exact ⟨entry, Or.inl there, same⟩
    · rintro ⟨entry, there | ⟨_, rfl⟩, same⟩
      · exact ⟨entry, there, same⟩
      · exact absurd same new

/-- The latest block takes its height along. -/
theorem erase {last : IndexEntry} (locates : Locates heights (entries ++ [last])) :
    Locates (heights.erase last.hash) entries := by
  intro hash height
  simp only [Std.ExtTreeMap.getElem?_erase, Std.compare_eq_iff_eq]
  have inside : ∀ {entry : IndexEntry}, entries[height]? = some entry →
      (entries ++ [last])[height]? = some entry :=
    fun there => getElem?_concat_eq_some_iff.mpr (Or.inl there)
  by_cases gone : last.hash = hash
  · rw [if_pos gone]
    refine ⟨(by rintro ⟨⟩), ?_⟩
    rintro ⟨entry, there, same⟩
    have top := locates.unique (inside there) List.getElem?_concat_length (same.trans gone.symm)
    have := (List.getElem?_eq_some_iff.mp there).1
    omega
  · rw [if_neg gone, locates hash height]
    constructor
    · rintro ⟨entry, there, same⟩
      rcases getElem?_concat_eq_some_iff.mp there with there | ⟨_, rfl⟩
      · exact ⟨entry, there, same⟩
      · exact absurd same gone
    · rintro ⟨entry, there, same⟩
      exact ⟨entry, inside there, same⟩

end Locates

variable [Primitives] {index : ChainIndex}

/-- The chain without its tip, whose entry and the entries below are given. -/
def shrink (index : ChainIndex) (below : List IndexEntry) (entry : IndexEntry) : ChainIndex :=
  { index with
    active := below
    headers := index.headers.dropLast
    heights := index.heights.erase entry.hash
    coins := entry.block.unapply index.coins entry.undo }

theorem pop?_eq_some {below : List IndexEntry} {entry : IndexEntry}
    (shape : index.active = below ++ [entry]) (based : below ≠ []) :
    index.pop? = some (entry, index.shrink below entry) := by
  have several : ¬ index.active.length ≤ 1 := by
    rw [shape, List.length_append, List.length_singleton]
    have := List.length_pos_iff.mpr based
    omega
  rw [pop?, if_neg several, shape, List.getLast?_concat, List.dropLast_concat]
  rfl

namespace Exact

theorem nonempty (exact : index.Exact) : index.active ≠ [] := by
  intro empty
  obtain ⟨entry, lowest, _⟩ := exact.genesis
  rw [empty] at lowest
  cases lowest

/-- The number of transactions at the tip counts all blocks. -/
theorem txCount_eq (exact : index.Exact) : index.txCount = txCountOf index.active := by
  rcases List.eq_nil_or_concat index.active with empty | ⟨below, last, shape⟩
  · exact absurd empty exact.nonempty
  · rw [List.concat_eq_append] at shape
    have counted := exact.counted below last [] shape
    rw [txCount, shape, List.getLast?_concat]
    exact counted

theorem new (rules : Rules) : (ChainIndex.new rules).Exact where
  genesis := ⟨_, rfl, rfl⟩
  named := List.forall_mem_singleton.mpr rfl
  follows below entry above split based := by
    rcases split_concat (split : [] ++ [_] = _) with ⟨rfl, _⟩ | ⟨rest, inside⟩
    · exact absurd rfl based
    · simp at inside
  headers := rfl
  heights := by
    have empty : Locates ∅ [] := fun hash height => by simp
    exact empty.insert ⟨⟨rules.params.genesisHash, rules.params.genesis, []⟩, _⟩
      Std.ExtTreeMap.getElem?_empty
  counted below entry above split := by
    rcases split_concat (split : [] ++ [_] = _) with ⟨rfl, rfl⟩ | ⟨rest, inside⟩
    · rw [txCountOf_concat]
      rfl
    · simp at inside
  valid _ _ := Std.ExtTreeSet.contains_empty
  permanent _ noted := by cases noted

/-- A block that is new and follows the others is stored. -/
theorem push (exact : index.Exact) {block : Block} (undo : Undo) (coins : CoinSet)
    (fresh : index.heights[block.hash]? = none)
    (allowed : index.invalid.contains block.hash = false)
    (follows : Follows index.rules.params index.active block.header) :
    ({ index with coins := coins }.push block.hash block undo).Exact where
  genesis := by
    obtain ⟨entry, lowest, same⟩ := exact.genesis
    exact ⟨entry, by simp [ChainIndex.push, lowest], same⟩
  named entry held := by
    rcases List.mem_append.mp held with old | new
    · exact exact.named entry old
    · rw [List.mem_singleton.mp new]
  follows below entry above split based := by
    rcases split_concat split with ⟨rfl, rfl⟩ | ⟨rest, inside⟩
    · exact follows
    · exact exact.follows below entry rest inside based
  headers := by
    change index.headers ++ [_] = headersOf (index.active ++ [_])
    rw [headersOf_concat, exact.headers]
  heights := exact.heights.insert ⟨⟨block.hash, block, undo⟩, _⟩ fresh
  counted below entry above split := by
    rcases split_concat split with ⟨rfl, rfl⟩ | ⟨rest, inside⟩
    · rw [txCountOf_concat, ← exact.txCount_eq]
      rfl
    · exact exact.counted below entry rest inside
  valid entry held := by
    rcases List.mem_append.mp held with old | new
    · exact exact.valid entry old
    · rw [List.mem_singleton.mp new]
      exact allowed
  permanent finalized noted := by
    have below := exact.permanent finalized noted
    change _ < (index.active ++ [_]).length
    rw [List.length_append]
    omega

/-- The tip is taken off, as long as that is not permanent. -/
theorem shrink (exact : index.Exact) {below : List IndexEntry} {entry : IndexEntry}
    (shape : index.active = below ++ [entry]) (based : below ≠ [])
    (free : ∀ finalized, index.finalized = some finalized → finalized < below.length) :
    (index.shrink below entry).Exact where
  genesis := by
    obtain ⟨lowest, first, same⟩ := exact.genesis
    rw [shape, List.head?_append_of_ne_nil _ based] at first
    exact ⟨lowest, first, same⟩
  named other held := exact.named other (by rw [shape]; exact List.mem_append_left _ held)
  follows lower other upper split := by
    refine exact.follows lower other (upper ++ [entry]) ?_
    rw [shape, show below = _ from split, List.append_assoc, List.cons_append]
  headers := by
    change index.headers.dropLast = headersOf below
    rw [exact.headers, shape, headersOf_concat, List.dropLast_concat]
  heights := by
    have locates := exact.heights
    rw [shape] at locates
    exact locates.erase
  counted lower other upper split := by
    refine exact.counted lower other (upper ++ [entry]) ?_
    rw [shape, show below = _ from split, List.append_assoc, List.cons_append]
  valid other held := exact.valid other (by rw [shape]; exact List.mem_append_left _ held)
  permanent := free

/-- A block that is not there can be ruled out. -/
theorem ruleOut (exact : index.Exact) {hash : Hash} (gone : index.heights[hash]? = none) :
    (index.ruleOut hash).Exact :=
  { exact with
    valid := by
      intro entry held
      have other := exact.heights.ne_of_fresh gone held
      change (index.invalid.insert hash).contains entry.hash = false
      rw [Std.ExtTreeSet.contains_insert, exact.valid entry held]
      simp [Ne.symm other] }

/-- The blocks up to one that is there can be made permanent. -/
theorem finalize (exact : index.Exact) {highest : Nat} (there : highest < index.active.length) :
    ({ index with finalized := some highest } : ChainIndex).Exact :=
  { exact with
    permanent := by
      rintro _ ⟨⟩
      exact there }

theorem setStakingWinner (exact : index.Exact) (hash : Hash) (script : Bytes) :
    (index.setStakingWinner hash script).Exact :=
  { exact with }

end Exact

end ChainIndex

end ScryptLedger
