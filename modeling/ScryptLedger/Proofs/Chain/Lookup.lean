import ScryptLedger.Proofs.Chain.Run

/-!
# Where a block is found

A block that a chain finds by its identity splits the blocks of the chain: those
above it, and as many below it as its height says. What the chain tells about
the block is what stands there.
-/

namespace ScryptLedger.Chain

variable {chain : Chain} {hash : Hash}

theorem length_entries (chain : Chain) : chain.entries.length = chain.height + 1 :=
  List.length_append

theorem contains_iff : chain.contains hash = true ↔ hash ∈ chain.entries.map ChainEntry.hash := by
  simp only [contains, heightOf?, Option.isSome_map, List.findIdx?_isSome, List.any_eq_true,
    List.mem_map, beq_iff_eq]

/-- A block that is found at a height has that many blocks below it. -/
theorem split_of_heightOf? {height : Nat} (known : chain.heightOf? hash = some height) :
    ∃ later entry earlier, chain.entries = later ++ entry :: earlier ∧ entry.hash = hash ∧
      earlier.length = height := by
  obtain ⟨place, first, rfl⟩ := Option.map_eq_some_iff.mp known
  obtain ⟨inside, same, _⟩ := List.findIdx?_eq_some_iff_getElem.mp first
  refine ⟨chain.entries.take place, chain.entries[place], chain.entries.drop (place + 1), ?_,
    eq_of_beq same, ?_⟩
  · rw [List.getElem_cons_drop, List.take_append_drop]
  · have length := chain.length_entries
    rw [List.length_drop]
    omega

theorem entryAt?_of_split {later earlier : List ChainEntry} {entry : ChainEntry}
    (split : chain.entries = later ++ entry :: earlier) :
    chain.entryAt? earlier.length = some entry := by
  have upward : chain.entries.reverse = earlier.reverse ++ entry :: later.reverse := by
    rw [split, List.reverse_append, List.reverse_cons, List.append_assoc, List.singleton_append]
  rw [entryAt?, upward, List.getElem?_append_right (Nat.le_of_eq List.length_reverse),
    List.length_reverse, Nat.sub_self, List.getElem?_cons_zero]

/-- What is told about a block that is found. -/
theorem split_of_locate {info : BlockInfo} (found : chain.locate hash = .ok info) :
    ∃ later entry earlier, chain.entries = later ++ entry :: earlier ∧ entry.hash = hash ∧
      chain.heightOf? hash = some earlier.length ∧
      info = ⟨hash, earlier.length, entry.block.header.time⟩ := by
  obtain ⟨height, known, there⟩ := Option.bind_eq_some_iff.mp (locate_eq_ok_iff.mp found)
  obtain ⟨later, entry, earlier, split, named, rfl⟩ := split_of_heightOf? known
  rw [infoAt?, entryAt?_of_split split, Option.map_some, named] at there
  exact ⟨later, entry, earlier, split, named, known, (Option.some.inj there).symm⟩

/-- A block that is not the lowest one stands above the genesis block. -/
theorem above_eq_of_split {later earlier : List ChainEntry} {entry : ChainEntry}
    (split : chain.entries = later ++ entry :: earlier) (positive : earlier.length ≠ 0) :
    ∃ below, chain.above = later ++ entry :: below ∧ earlier.length = below.length + 1 := by
  rcases List.eq_nil_or_concat earlier with rfl | ⟨below, lowest, rfl⟩
  · exact absurd rfl positive
  · rw [List.concat_eq_append, ← List.cons_append, ← List.append_assoc] at split
    refine ⟨below, (List.append_inj' split rfl).1, ?_⟩
    rw [List.concat_eq_append, List.length_append, List.length_singleton]

/-- A new block changes nothing about where the others are found. -/
theorem locate_grow_of_ne [Primitives] {block : Block} (other : hash ≠ block.hash)
    (connected : Connected) :
    (chain.grow block connected).locate hash = chain.locate hash := by
  have shape : (chain.grow block connected).entries
      = ⟨block.hash, block, connected.undo⟩ :: chain.entries := rfl
  have heights : (chain.grow block connected).heightOf? hash = chain.heightOf? hash := by
    have missed : ¬ (block.hash == hash) = true := fun same => other (eq_of_beq same).symm
    have shift : (fun place => (chain.grow block connected).height - place) ∘ (· + 1)
        = fun place => chain.height - place :=
      funext fun place => Nat.add_sub_add_right chain.height 1 place
    rw [heightOf?, heightOf?, shape, List.findIdx?_cons, if_neg missed, Option.map_map, shift]
  rw [locate, locate, heights]
  cases known : chain.heightOf? hash with
  | none => rfl
  | some height =>
    obtain ⟨above, entry, below, split, -, rfl⟩ := split_of_heightOf? known
    have longer : (chain.grow block connected).entries
        = (⟨block.hash, block, connected.undo⟩ :: above) ++ entry :: below := by
      rw [shape, split, List.cons_append]
    simp only [Option.bind_some, infoAt?, entryAt?_of_split split, entryAt?_of_split longer]

end ScryptLedger.Chain
