import Mathlib.Algebra.Order.Ring.Nat
import Mathlib.Data.Finset.Card
import ScryptLedger.Proofs.Chain.Lookup
import ScryptLedger.Proofs.Chain.Position
import ScryptLedger.Proofs.Wire.Decoder

/-!
# How high a chain can be

No two blocks of a chain have the same identity, since a block that is there
already is refused. As there are only so many identities, the height of a chain
is bounded, although far above any height that matters.
-/

namespace ScryptLedger

namespace Digest

theorem toNat_lt {size : Nat} (digest : Digest size) : digest.toNat < 256 ^ size := by
  have bound := ofLittleEndian_lt digest.bytes
  rwa [digest.length_bytes] at bound

theorem toNat_injective {size : Nat} : Function.Injective (toNat : Digest size → Nat) := by
  intro a b same
  exact ext_bytes (eq_of_ofLittleEndian (a.length_bytes.trans b.length_bytes.symm) same)

/-- A list without repetitions holds no more digests than there are. -/
theorem length_le_of_nodup {size : Nat} {digests : List (Digest size)} (distinct : digests.Nodup) :
    digests.length ≤ 256 ^ size := by
  have numbers : (digests.map toNat).Nodup := distinct.map toNat_injective
  have inside : (digests.map toNat).toFinset ⊆ Finset.range (256 ^ size) := by
    intro number held
    obtain ⟨digest, -, rfl⟩ := List.mem_map.mp (List.mem_toFinset.mp held)
    exact Finset.mem_range.mpr digest.toNat_lt
  have card := Finset.card_le_card inside
  rwa [List.toFinset_card_of_nodup numbers, List.length_map, Finset.card_range] at card

end Digest

namespace Chain

variable [Primitives]

/-- No two blocks of a chain have the same identity. -/
theorem nodup_hashes_run (rules : Rules) (requests : List ChainRequest) :
    (((Chain.new rules).run requests).entries.map ChainEntry.hash).Nodup := by
  refine run_induction (Chain.new rules)
    (P := fun chain => (chain.entries.map ChainEntry.hash).Nodup) ?_ ?_ ?_ requests
  · exact List.nodup_singleton _
  · intro chain block connected distinct fits
    refine List.nodup_cons.mpr ⟨fun again => ?_, distinct⟩
    have fresh := (checkPosition_eq_ok_iff.mp fits.placed).1
    rw [contains_iff.mpr again] at fresh
    cases fresh
  · intro longer shorter distinct move
    exact distinct.sublist (move.entries_suffix.sublist.map _)

theorem height_lt_run (rules : Rules) (requests : List ChainRequest) :
    ((Chain.new rules).run requests).height < 256 ^ 32 := by
  have few := Digest.length_le_of_nodup (nodup_hashes_run rules requests)
  rw [List.length_map, entries, List.length_append, List.length_singleton] at few
  exact few

end Chain

end ScryptLedger
