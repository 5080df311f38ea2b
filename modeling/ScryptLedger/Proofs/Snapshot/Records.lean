import ScryptLedger.Proofs.CoinSet.Listing
import ScryptLedger.Proofs.Transaction.Codec
import ScryptLedger.Proofs.Wire.Separation
import ScryptLedger.Snapshot.Records

/-!
# Coin records and back

The record of a coin can be told from what follows it, although records have no
fixed length and nothing stands between them. So the records of a list of coins
say which coins they are and in which order, and the records of a coin set say
which set it is. Reading is stricter than writing only about long scripts.
-/

namespace ScryptLedger

/-- Whether the numbers of a coin fit into the room that its record has for them. -/
structure Coin.Sized (coin : Coin) : Prop where
  height : coin.height < UInt32.size
  script : coin.scriptPubKey.length < 256 ^ 8

/-- Whether the record of a coin can be read: the script must not be longer than any vector may
be. -/
structure Coin.Fits (coin : Coin) : Prop where
  height : coin.height < UInt32.size
  script : coin.scriptPubKey.length ≤ maxVectorSize

theorem Coin.Fits.sized {coin : Coin} (fits : coin.Fits) : coin.Sized :=
  ⟨fits.height, Nat.lt_of_le_of_lt fits.script (by decide)⟩

namespace Snapshot

/-- The height and the origin of a coin can be told from their code. -/
theorem originCode_decoded (coin : Coin) :
    originCode coin / 2 = coin.height ∧ (originCode coin % 2 == 1) = coin.isCoinbase := by
  rw [originCode]
  cases coin.isCoinbase with
  | false =>
    simp only [Bool.false_eq_true, if_false, beq_eq_false_iff_ne]
    omega
  | true =>
    simp only [if_true, beq_iff_eq]
    omega

theorem originCode_of_parts (value : Int64) (script : Bytes) (code : Nat) :
    originCode ⟨value, script, code / 2, code % 2 == 1⟩ = code := by
  rw [originCode]
  by_cases odd : code % 2 = 1
  · simp only [odd, beq_self_eq_true, if_true]
    omega
  · simp only [beq_eq_false_iff_ne.mpr odd, Bool.false_eq_true, if_false]
    omega

theorem coin_eq_of_originCode {first second : Coin}
    (code : originCode first = originCode second) (value : first.value = second.value)
    (script : first.scriptPubKey = second.scriptPubKey) : first = second := by
  obtain ⟨height, origin⟩ := originCode_decoded first
  obtain ⟨height', origin'⟩ := originCode_decoded second
  rw [code] at height origin
  cases first
  cases second
  exact (Coin.mk.injEq _ _ _ _ _ _ _ _).mpr
    ⟨value, script, height.symm.trans height', origin.symm.trans origin'⟩

theorem originCode_lt {coin : Coin} (low : coin.height < UInt32.size) :
    originCode coin < 256 ^ 8 := by
  rw [originCode]
  rw [show UInt32.size = 2 ^ 32 from rfl] at low
  split <;> omega

theorem recordDecoder_reads : recordDecoder.Reads record fun entry => entry.2.Fits := by
  intro bytes entry rest
  simp only [recordDecoder, record, OutPoint.decoder_reads.bind_eq_ok_iff,
    Decoder.size_reads.bind_eq_ok_iff, Decoder.apply_refuse_eq_ok_iff,
    Decoder.int64_reads.bind_eq_ok_iff, Decoder.sizedBytes_reads.bind_eq_ok_iff,
    Decoder.apply_pure_eq_ok_iff, List.append_assoc]
  constructor
  · rintro ⟨outpoint, _, -, rfl, code, _, -, rfl, low, value, _, -, rfl, script, _, short, rfl,
      rfl, rfl⟩
    refine ⟨⟨Nat.lt_of_not_le low, short⟩, ?_⟩
    rw [originCode_of_parts]
  · rintro ⟨⟨low, short⟩, rfl⟩
    obtain ⟨height, origin⟩ := originCode_decoded entry.2
    refine ⟨entry.1, _, trivial, rfl, originCode entry.2, _, originCode_lt low, rfl, ?_,
      entry.2.value, _, trivial, rfl, entry.2.scriptPubKey, rest, short, rfl, ?_, rfl⟩
    · rw [height]
      exact Nat.not_le.mpr low
    · rw [height, origin]

/-- No record is the beginning of another one. -/
theorem record_separates {first second : OutPoint × Coin} (sized : first.2.Sized)
    (sized' : second.2.Sized) : Wire.Separates record first second := by
  obtain ⟨outpoint, coin⟩ := first
  obtain ⟨outpoint', coin'⟩ := second
  intro after after' same
  simp only [record, List.append_assoc] at same
  obtain ⟨rfl, coded⟩ := OutPoint.decoder_reads.append_inj trivial trivial same
  obtain ⟨code, paid⟩ := Decoder.size_reads.append_inj (originCode_lt sized.height)
    (originCode_lt sized'.height) coded
  obtain ⟨value, locked⟩ := Decoder.int64_reads.append_inj trivial trivial paid
  obtain ⟨script, rest⟩ := Wire.sizedBytes_separates sized.script sized'.script _ _ locked
  exact ⟨congrArg (outpoint, ·) (coin_eq_of_originCode code value script), rest⟩

theorem record_ne_nil (entry : OutPoint × Coin) : record entry ≠ [] := by
  intro empty
  have length := congrArg List.length empty
  simp only [record, OutPoint.encode, List.length_append, entry.1.hash.length_bytes,
    List.length_nil] at length
  omega

/-- The records of some coins say which coins they are, and in which order. -/
theorem eq_of_flatMap_record {first second : List (OutPoint × Coin)}
    (sized : ∀ entry ∈ first, entry.2.Sized) (sized' : ∀ entry ∈ second, entry.2.Sized)
    (same : first.flatMap record = second.flatMap record) : first = second :=
  Wire.eq_of_flatMap (fun entry held other held' =>
    record_separates (sized entry held) (sized' other held')) record_ne_nil same

/-- Different coin sets have different records. -/
theorem eq_of_records {coins others : CoinSet} (sized : ∀ entry ∈ coins.toList, entry.2.Sized)
    (sized' : ∀ entry ∈ others.toList, entry.2.Sized) (same : records coins = records others) :
    coins = others :=
  Std.ExtTreeMap.toList_inj.mp (eq_of_flatMap_record sized sized' same)

end Snapshot

end ScryptLedger
