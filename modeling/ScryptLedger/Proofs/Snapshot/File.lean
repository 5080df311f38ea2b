import ScryptLedger.Primitives.Transparent
import ScryptLedger.Proofs.Snapshot.Records
import ScryptLedger.Snapshot.File

/-!
# Snapshots and back

A snapshot that is read again yields the base block and the coins it was made
of, and the hash that stands for them. Reading asks for no order, however: a
file whose records are not in the order of outpoints, or that holds two records
for an outpoint, is read as well. Its hash is that of its records as they stand,
and these are not the records of the coins that were read.
-/

namespace ScryptLedger.Snapshot

open CoinSet

/-- A file with the records of some coins in the given order. -/
def file (params : ChainParams) (base : Hash) (entries : List (OutPoint × Coin)) : Bytes :=
  header params base entries.length ++ entries.flatMap record

variable {params : ChainParams} {bytes rest : Bytes} {base : Hash} {count : Nat} {coins : CoinSet}

theorem encode_eq_file (params : ChainParams) (base : Hash) (coins : CoinSet) :
    encode params base coins = file params base coins.toList := by
  rw [encode, file, Std.ExtTreeMap.length_toList, records]

/-- Which bytes stand before the records of a file of the same network. -/
theorem headerDecoder_eq_ok_iff :
    (headerDecoder params).apply bytes = (.ok (some (base, count)), rest) ↔
      params.diskMagic.length = 4 ∧ count < 256 ^ 8 ∧
        bytes = header params base count ++ rest := by
  simp only [headerDecoder, header, (Decoder.take_reads _).bind_eq_ok_iff,
    Decoder.uint16_reads.bind_eq_ok_iff, Decoder.apply_refuse_eq_ok_iff, List.append_assoc]
  constructor
  · rintro ⟨start, _, -, rfl, marked, found, _, -, rfl, current, magic, _, four, rfl, done⟩
    obtain rfl := not_not.mp marked
    rw [not_not.mp current]
    by_cases own : magic = params.diskMagic
    · rw [if_neg (not_not.mpr own)] at done
      simp only [Decoder.hash_reads.bind_eq_ok_iff, Decoder.uint64_reads.bind_eq_ok_iff,
        Decoder.apply_pure_eq_ok_iff] at done
      obtain ⟨_, _, -, rfl, number, _, -, rfl, ⟨⟩, rfl⟩ := done
      exact ⟨own ▸ four, number.toNat_lt, by rw [own]; rfl⟩
    · rw [if_pos own] at done
      cases done
  · rintro ⟨four, few, rfl⟩
    have number : (UInt64.ofNat count).toNat = count := UInt64.toNat_ofNat_of_lt few
    refine ⟨mark, _, rfl, rfl, not_not.mpr rfl, 2, _, trivial, rfl, not_not.mpr rfl,
      params.diskMagic, _, four, rfl, ?_⟩
    rw [if_neg (not_not.mpr rfl)]
    simp only [Decoder.hash_reads.bind_eq_ok_iff, Decoder.uint64_reads.bind_eq_ok_iff,
      Decoder.apply_pure_eq_ok_iff]
    refine ⟨base, _, trivial, rfl, UInt64.ofNat count, rest, trivial, ?_, ?_, rfl⟩
    · rw [number]
    · rw [number]

variable [Primitives] {loaded : Loaded}

/-- Which files are read, and as what. -/
theorem load_eq_ok_iff : load bytes params = .ok loaded ↔
    params.diskMagic.length = 4 ∧ ∃ entries, entries.length < 256 ^ 8 ∧
      (∀ entry ∈ entries, entry.2.Fits) ∧ bytes = file params loaded.base entries ∧
      loaded = ⟨loaded.base, create ∅ entries, sha256d (entries.flatMap record)⟩ := by
  constructor
  · intro done
    rw [load] at done
    split at done
    · cases done
    · cases done
    rename_i base count rest begun
    obtain ⟨four, few, rfl⟩ := headerDecoder_eq_ok_iff.mp begun
    split at done
    · cases done
    rename_i entries read
    obtain ⟨⟨rfl, fits⟩, rfl⟩ := (recordDecoder_reads.replicate count).whole_eq_ok_iff.mp read
    cases done
    exact ⟨four, entries, few, fits, rfl, rfl⟩
  · rintro ⟨four, entries, few, fits, rfl, same⟩
    have begun := headerDecoder_eq_ok_iff.mpr ⟨four, few, @rfl _ (file params loaded.base entries)⟩
    have read := (recordDecoder_reads.replicate entries.length).whole_eq_ok_iff.mpr
      ⟨⟨rfl, fits⟩, rfl⟩
    simp only [load, begun, read]
    exact congrArg Except.ok same.symm

/-- Coins are read whatever order their records are in. -/
theorem load_file (base : Hash) {entries : List (OutPoint × Coin)}
    (magic : params.diskMagic.length = 4) (few : entries.length < 256 ^ 8)
    (fits : ∀ entry ∈ entries, entry.2.Fits) :
    load (file params base entries) params =
      .ok ⟨base, create ∅ entries, sha256d (entries.flatMap record)⟩ :=
  load_eq_ok_iff.mpr ⟨magic, entries, few, fits, rfl, rfl⟩

theorem load_written (base : Hash) (magic : params.diskMagic.length = 4)
    (few : coins.size < 2 ^ 64) (fits : ∀ entry ∈ coins.toList, entry.2.Fits) :
    load (encode params base coins) params = .ok ⟨base, coins, contentHash coins⟩ := by
  have count : coins.toList.length < 256 ^ 8 := by
    rw [Std.ExtTreeMap.length_toList]
    exact few
  rw [encode_eq_file, load_file base magic count fits, create_of_perm (List.Perm.refl _),
    contentHash, records]

/-- A snapshot of a coin set whose scripts are not too long is read as that set, on the base block
it names and with the hash that stands for the set. Its records depend on nothing but the set: the
coins make the set again in any order, and have its records when they are put in the order of
outpoints. No other set has the same records, whatever its scripts. -/
theorem load_encode (base : Hash) (magic : params.diskMagic.length = 4) (few : coins.size < 2 ^ 64)
    (fits : ∀ entry ∈ coins.toList, entry.2.Fits) :
    load (encode params base coins) params = .ok ⟨base, coins, contentHash coins⟩ ∧
    (∀ order : List (OutPoint × Coin), order.Perm coins.toList → create ∅ order = coins ∧
      (order.mergeSort fun a b => (compare a.1 b.1).isLE).flatMap record = records coins) ∧
    ∀ others : CoinSet, (∀ entry ∈ others.toList, entry.2.Sized) →
      records others = records coins → others = coins := by
  refine ⟨load_written base magic few fits, fun order same => ⟨create_of_perm same, ?_⟩, ?_⟩
  · rw [mergeSort_of_perm same, records]
  · intro others sized same
    exact eq_of_records sized (fun entry held => (fits entry held).sized) same

/-- A file is read whatever the order of its records. They are the records of the coins that were
read exactly when they are in the order of outpoints, each outpoint once; only then is the hash the
one that stands for these coins, unless other records share it. The records are as many as the coins
exactly when no outpoint comes twice. -/
theorem canonical_iff_ascending (accepted : load bytes params = .ok loaded) :
    ∃ entries, (∀ entry ∈ entries, entry.2.Fits) ∧ bytes = file params loaded.base entries ∧
      loaded.coins = create ∅ entries ∧
      (entries.flatMap record = records loaded.coins ↔ Ascending entries) ∧
      (loaded.contentHash = contentHash loaded.coins ↔ Ascending entries ∨
        entries.flatMap record ≠ records loaded.coins ∧
          sha256d (entries.flatMap record) = sha256d (records loaded.coins)) ∧
      (entries.length = loaded.coins.size ↔ (entries.map Prod.fst).Nodup) := by
  obtain ⟨-, entries, few, fits, written, read⟩ := load_eq_ok_iff.mp accepted
  have coins : loaded.coins = create ∅ entries := congrArg Loaded.coins read
  have hash : loaded.contentHash = sha256d (entries.flatMap record) :=
    congrArg Loaded.contentHash read
  have canonical : entries.flatMap record = records loaded.coins ↔ Ascending entries := by
    rw [← toList_create_eq_iff, ← coins]
    constructor
    · intro same
      refine (eq_of_flatMap_record (fun entry held => (fits entry held).sized) ?_ same).symm
      intro entry held
      rw [coins] at held
      exact (fits entry (mem_of_mem_toList_create held)).sized
    · intro listed
      rw [records, listed]
  refine ⟨entries, fits, written, coins, canonical, ?_, ?_⟩
  · rw [hash, contentHash, ← canonical]
    by_cases same : entries.flatMap record = records loaded.coins
    · simp [same]
    · simp [same]
  · rw [eq_comm, coins, size_create_eq_iff]

end ScryptLedger.Snapshot

namespace ScryptLedger.Snapshot.Shuffled

open CoinSet

local instance : Primitives := Primitives.transparent

def early : OutPoint × Coin :=
  (⟨Digest.zero, 0⟩, ⟨5000000000, [0x51], 1, true⟩)

def late : OutPoint × Coin :=
  (⟨Digest.zero, 1⟩, ⟨-7, [], 300, false⟩)

/-- The set of the two coins. -/
def pair : CoinSet :=
  create ∅ [early, late]

theorem toList_pair : pair.toList = [early, late] :=
  toList_create_eq_iff.mpr (by decide)

theorem fits_early : early.2.Fits :=
  ⟨by decide, by decide⟩

theorem fits_late : late.2.Fits :=
  ⟨by decide, by decide⟩

theorem few_pair : pair.size < 2 ^ 64 := by
  rw [← Std.ExtTreeMap.length_toList, toList_pair]
  decide

theorem fits_pair : ∀ entry ∈ pair.toList, entry.2.Fits := by
  rw [toList_pair]
  simp [fits_early, fits_late]

theorem load_encode_pair :
    ChainParams.regtest.diskMagic.length = 4 ∧ pair.size < 2 ^ 64 ∧
      (∀ entry ∈ pair.toList, entry.2.Fits) ∧
      load (encode ChainParams.regtest Digest.zero pair) ChainParams.regtest =
        .ok ⟨Digest.zero, pair, contentHash pair⟩ :=
  ⟨rfl, few_pair, fits_pair, (load_encode Digest.zero rfl few_pair fits_pair).1⟩

/-- A file with the two records the wrong way round. -/
def shuffled : Bytes :=
  file ChainParams.regtest Digest.zero [late, early]

theorem load_shuffled : load shuffled ChainParams.regtest =
    .ok ⟨Digest.zero, pair, sha256d ([late, early].flatMap record)⟩ := by
  have same : create ∅ [late, early] = pair :=
    create_of_perm (by rw [toList_pair]; exact List.Perm.swap early late [])
  rw [shuffled, load_file Digest.zero rfl (by decide) (by simp [fits_early, fits_late]), same]

/-- What can be said of this file, which is read as the set of the two coins. -/
theorem canonical_of_shuffled :
    ∃ loaded, load shuffled ChainParams.regtest = .ok loaded ∧ loaded.coins = pair ∧
      ∃ entries, shuffled = file ChainParams.regtest loaded.base entries ∧
        (entries.flatMap record = records loaded.coins ↔ Ascending entries) := by
  obtain ⟨entries, -, written, -, canonical, -⟩ := canonical_iff_ascending load_shuffled
  exact ⟨_, load_shuffled, rfl, entries, written, canonical⟩

/-- This file and the snapshot of the two coins are read as the same set and have different hashes,
of which only one stands for the set. In a file that holds a record twice, the number of coins is
not the one that it announces. -/
theorem not_canonical :
    (∃ first second,
      load (encode ChainParams.regtest Digest.zero pair) ChainParams.regtest = .ok first ∧
      load shuffled ChainParams.regtest = .ok second ∧ second.coins = first.coins ∧
      second.contentHash ≠ contentHash second.coins ∧ second.contentHash ≠ first.contentHash) ∧
    ∃ third, load (file ChainParams.regtest Digest.zero [early, early]) ChainParams.regtest =
      .ok third ∧ third.coins.size ≠ [early, early].length := by
  constructor
  · have differ : sha256d ([late, early].flatMap record) ≠ contentHash pair := by
      rw [contentHash, records, toList_pair]
      decide +kernel
    have ordered := load_written Digest.zero (by rfl : ChainParams.regtest.diskMagic.length = 4)
      few_pair fits_pair
    exact ⟨_, _, ordered, load_shuffled, rfl, differ, differ⟩
  · refine ⟨_, load_file Digest.zero rfl (by decide) (by simp [fits_early]), ?_⟩
    rw [Ne, size_create_eq_iff]
    decide

end ScryptLedger.Snapshot.Shuffled
