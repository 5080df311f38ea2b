import Mathlib.Algebra.Order.Ring.Nat
import ScryptLedger.Wire.Decoder

/-!
# What a decoder accepts

A decoder reads an encoding when it accepts exactly the encoded values that fit
into the format, and leaves exactly what follows the encoding. Such a decoder
can neither refuse nor misread what was encoded, and accepts one form of each
value only. Words, digests, sizes and byte strings are read in this sense, and
so is a vector of whatever is read.
-/

namespace ScryptLedger

theorem ofLittleEndian_lt (bytes : Bytes) : ofLittleEndian bytes < 256 ^ bytes.length := by
  induction bytes with
  | nil => decide
  | cons b rest ih =>
    have low := b.toNat_lt
    rw [ofLittleEndian, List.length_cons, Nat.pow_succ]
    omega

theorem eq_of_ofLittleEndian {a b : Bytes} (length : a.length = b.length)
    (same : ofLittleEndian a = ofLittleEndian b) : a = b := by
  induction a generalizing b with
  | nil => exact (List.length_eq_zero_iff.mp length.symm).symm
  | cons first rest ih =>
    match b with
    | [] => cases length
    | other :: others =>
      have low := first.toNat_lt
      have low' := other.toNat_lt
      rw [ofLittleEndian, ofLittleEndian] at same
      have digit : first = other := UInt8.toNat_inj.mp (by omega)
      rw [digit, ih (Nat.succ.inj length) (by omega)]

theorem ofLittleEndian_littleEndian_of_lt {width value : Nat} (small : value < 256 ^ width) :
    ofLittleEndian (littleEndian width value) = value := by
  rw [ofLittleEndian_littleEndian, Nat.shiftLeft_eq, Nat.one_mul, Nat.pow_mul]
  exact Nat.mod_eq_of_lt small

theorem littleEndian_ofLittleEndian (bytes : Bytes) :
    littleEndian bytes.length (ofLittleEndian bytes) = bytes := by
  refine eq_of_ofLittleEndian (length_littleEndian _ _) ?_
  exact ofLittleEndian_littleEndian_of_lt (ofLittleEndian_lt bytes)

namespace Decoder

variable {α β : Type} {bytes rest : Bytes}

/-- Whether a decoder accepts exactly the encodings of fitting values, whatever follows them. -/
def Reads (decoder : Decoder α) (encode : α → Bytes) (fits : α → Prop) : Prop :=
  ∀ bytes value rest,
    decoder.apply bytes = (.ok value, rest) ↔ fits value ∧ bytes = encode value ++ rest

section Sequences

theorem apply_bind (decoder : Decoder α) (next : α → Decoder β) (bytes : Bytes) :
    apply (decoder >>= next) bytes =
      match decoder.apply bytes with
      | (.ok first, between) => (next first).apply between
      | (.error cause, between) => (.error cause, between) := by
  change (match decoder bytes with | (answer, between) => ExceptT.bindCont next answer between) = _
  rw [apply]
  obtain ⟨answer, between⟩ := decoder bytes
  cases answer with
  | error cause => rfl
  | ok first => rfl

theorem apply_bind_eq_ok_iff {decoder : Decoder α} {next : α → Decoder β} {value : β} :
    apply (decoder >>= next) bytes = (.ok value, rest) ↔
      ∃ first between, decoder.apply bytes = (.ok first, between) ∧
        (next first).apply between = (.ok value, rest) := by
  rw [apply_bind]
  obtain ⟨answer, between⟩ := decoder.apply bytes
  cases answer with
  | error cause => simp
  | ok first =>
    constructor
    · intro done
      exact ⟨first, between, rfl, done⟩
    · rintro ⟨_, _, ⟨⟩, done⟩
      exact done

theorem apply_pure_eq_ok_iff {value other : α} :
    apply (pure value) bytes = (.ok other, rest) ↔ value = other ∧ bytes = rest := by
  change ((Except.ok value, bytes) : Except WireError α × Bytes) = (.ok other, rest) ↔ _
  simp

/-- What stands behind a refusal is read when there is no reason for the refusal. -/
theorem apply_refuse_eq_ok_iff {reason : Prop} [Decidable reason] {cause : WireError}
    {after : α → Decoder β} {decoder : Decoder β} {value : β} :
    apply (if reason then throw cause >>= after else decoder) bytes = (.ok value, rest) ↔
      ¬ reason ∧ decoder.apply bytes = (.ok value, rest) := by
  by_cases present : reason
  · rw [if_pos present]
    exact ⟨fun refused => (nomatch refused), fun done => absurd present done.1⟩
  · rw [if_neg present]
    exact ⟨fun done => ⟨present, done⟩, And.right⟩

theorem apply_finish_eq_ok_iff {done : Unit} :
    finish.apply bytes = (.ok done, rest) ↔ bytes = [] ∧ rest = [] := by
  cases bytes with
  | nil => simp [apply, finish, eq_comm]
  | cons b left => simp [apply, finish]

variable {encode : α → Bytes} {fits : α → Prop} {decoder : Decoder α}

/-- No encoding is the beginning of another one. -/
theorem Reads.append_inj (reads : decoder.Reads encode fits) {first second : α}
    {after after' : Bytes} (fit : fits first) (fit' : fits second)
    (same : encode first ++ after = encode second ++ after') :
    first = second ∧ after = after' := by
  have read := (reads (encode first ++ after) first after).mpr ⟨fit, rfl⟩
  have read' := (reads (encode first ++ after) second after').mpr ⟨fit', same⟩
  rw [read] at read'
  cases read'
  exact ⟨rfl, rfl⟩

/-- A field is read, and then what comes after it. -/
theorem Reads.bind_eq_ok_iff (reads : decoder.Reads encode fits) {next : α → Decoder β}
    {value : β} :
    apply (decoder >>= next) bytes = (.ok value, rest) ↔
      ∃ first between, fits first ∧ bytes = encode first ++ between ∧
        (next first).apply between = (.ok value, rest) := by
  simp only [apply_bind_eq_ok_iff, reads _ _ _, and_assoc]

/-- A decoder stays one when its values are written in another way. -/
theorem Reads.map {encode' : β → Bytes} {fits' : β → Prop} {convert : α → β}
    (reads : decoder.Reads encode fits)
    (there : ∀ value, fits value → fits' (convert value) ∧ encode' (convert value) = encode value)
    (back : ∀ value, fits' value → ∃ source, fits source ∧ convert source = value) :
    Reads (do return convert (← decoder)) encode' fits' := by
  intro bytes value rest
  simp only [reads.bind_eq_ok_iff, apply_pure_eq_ok_iff]
  constructor
  · rintro ⟨source, _, fit, rfl, rfl, rfl⟩
    obtain ⟨fit', same⟩ := there source fit
    exact ⟨fit', by rw [same]⟩
  · rintro ⟨fit', rfl⟩
    obtain ⟨source, fit, rfl⟩ := back value fit'
    exact ⟨source, rest, fit, by rw [(there source fit).2], rfl, rfl⟩

/-- What a decoder that suffers no trailing bytes accepts. -/
theorem Reads.whole_eq_ok_iff (reads : decoder.Reads encode fits) {value : α} :
    decoder.whole bytes = .ok value ↔ fits value ∧ bytes = encode value := by
  have ends : decoder.whole bytes = .ok value ↔
      ∃ rest, apply (do let value ← decoder; finish; return value) bytes = (.ok value, rest) := by
    rw [whole]
    constructor
    · intro done
      exact ⟨_, Prod.ext done rfl⟩
    · rintro ⟨rest, done⟩
      rw [done]
  rw [ends]
  simp only [reads.bind_eq_ok_iff, apply_bind_eq_ok_iff, apply_finish_eq_ok_iff,
    apply_pure_eq_ok_iff]
  constructor
  · rintro ⟨_, found, _, fit, rfl, _, _, ⟨rfl, rfl⟩, rfl, rfl⟩
    exact ⟨fit, List.append_nil _⟩
  · rintro ⟨fit, rfl⟩
    exact ⟨[], value, [], fit, (List.append_nil _).symm, (), [], ⟨rfl, rfl⟩, rfl, rfl⟩

/-- What is accepted is the encoding of what it is read as, and nothing else is read as the same. -/
theorem Reads.encode_of_whole (reads : decoder.Reads encode fits) {value : α}
    (accepted : decoder.whole bytes = .ok value) :
    encode value = bytes ∧ ∀ other, decoder.whole other = .ok value → other = bytes := by
  obtain ⟨-, rfl⟩ := reads.whole_eq_ok_iff.mp accepted
  exact ⟨rfl, fun other accepted' => (reads.whole_eq_ok_iff.mp accepted').2⟩

end Sequences

section Words

theorem take_reads (count : Nat) : (take count).Reads id fun taken => taken.length = count := by
  intro bytes taken rest
  constructor
  · intro done
    simp only [apply, take] at done
    split at done
    · cases done
      exact ⟨‹_›, (List.take_append_drop count bytes).symm⟩
    · cases done
  · rintro ⟨rfl, rfl⟩
    simp [apply, take]

/-- A number of fixed width is read from its digits. -/
theorem number_reads {width : Nat} {ofNat : Nat → α} {toNat : α → Nat}
    (bounded : ∀ number, toNat number < 256 ^ width)
    (ofNat_toNat : ∀ number, ofNat (toNat number) = number)
    (toNat_ofNat : ∀ n < 256 ^ width, toNat (ofNat n) = n) :
    Reads (do return ofNat (ofLittleEndian (← take width)))
      (fun number => littleEndian width (toNat number)) fun _ => True := by
  refine (take_reads width).map ?_ ?_
  · rintro digits rfl
    rw [toNat_ofNat _ (ofLittleEndian_lt digits), littleEndian_ofLittleEndian]
    exact ⟨trivial, rfl⟩
  · intro number _
    refine ⟨littleEndian width (toNat number), length_littleEndian _ _, ?_⟩
    rw [ofLittleEndian_littleEndian_of_lt (bounded number), ofNat_toNat]

theorem uint16_reads : uint16.Reads (fun word => littleEndian 2 word.toNat) fun _ => True :=
  number_reads (fun word => word.toNat_lt) (fun _ => UInt16.ofNat_toNat)
    fun _ small => UInt16.toNat_ofNat_of_lt small

theorem uint32_reads : uint32.Reads bytesOfWord fun _ => True :=
  number_reads (fun word => word.toNat_lt) (fun _ => UInt32.ofNat_toNat)
    fun _ small => UInt32.toNat_ofNat_of_lt small

theorem uint64_reads : uint64.Reads (fun word => littleEndian 8 word.toNat) fun _ => True :=
  number_reads (fun word => word.toNat_lt) (fun _ => UInt64.ofNat_toNat)
    fun _ small => UInt64.toNat_ofNat_of_lt small

theorem int32_reads : int32.Reads bytesOfInt32 fun _ => True :=
  uint32_reads.map (fun _ _ => ⟨trivial, by rw [bytesOfInt32, UInt32.toUInt32_toInt32]⟩)
    fun word _ => ⟨word.toUInt32, trivial, Int32.toInt32_toUInt32 word⟩

theorem int64_reads : int64.Reads bytesOfInt64 fun _ => True :=
  uint64_reads.map (fun _ _ => ⟨trivial, by rw [bytesOfInt64, UInt64.toUInt64_toInt64]⟩)
    fun word _ => ⟨word.toUInt64, trivial, Int64.toInt64_toUInt64 word⟩

theorem digest_reads (size : Nat) : (digest size).Reads Digest.bytes fun _ => True := by
  intro bytes found rest
  simp only [apply, digest, Digest.ofBytes?, true_and]
  constructor
  · intro done
    split at done
    · cases done
      rename_i held
      split at held
      · cases held
        exact (List.take_append_drop size bytes).symm
      · cases held
    · cases done
  · rintro rfl
    obtain ⟨bytes, rfl⟩ := found
    simp

theorem hash_reads : hash.Reads Digest.bytes fun _ => True :=
  digest_reads 32

end Words

section Sizes

/-- A first byte stands for itself, or says how many bytes follow. -/
theorem sizeWidth_cases (first : UInt8) :
    (first.toNat < 0xfd ∧ sizeWidth first = 0) ∨ first = 0xfd ∨ first = 0xfe ∨ first = 0xff := by
  by_cases two : first = 0xfd
  · exact Or.inr (Or.inl two)
  by_cases four : first = 0xfe
  · exact Or.inr (Or.inr (Or.inl four))
  by_cases eight : first = 0xff
  · exact Or.inr (Or.inr (Or.inr eight))
  · refine Or.inl ⟨?_, by rw [sizeWidth, if_neg two, if_neg four, if_neg eight]⟩
    have low := first.toNat_lt
    rw [← UInt8.toNat_inj] at two four eight
    simp only [UInt8.toNat_ofNat] at two four eight
    omega

/-- A size in digits is in its shortest form when fewer digits could not hold it. -/
theorem compactSize_of_digits {first : UInt8} {digits : Bytes}
    (width : digits.length = sizeWidth first) (marked : sizeWidth first ≠ 0)
    (least : leastOfWidth (sizeWidth first) ≤ ofLittleEndian digits) :
    Wire.compactSize (ofLittleEndian digits) = first :: digits := by
  have bound := ofLittleEndian_lt digits
  have written := littleEndian_ofLittleEndian digits
  rw [Wire.compactSize]
  rcases sizeWidth_cases first with ⟨-, none⟩ | rfl | rfl | rfl
  · exact absurd none marked
  · change digits.length = 2 at width
    change 0xfd ≤ _ at least
    rw [width] at bound written
    rw [if_neg (by omega), if_pos (by omega), written]
  · change digits.length = 4 at width
    change 0x10000 ≤ _ at least
    rw [width] at bound written
    rw [if_neg (by omega), if_neg (by omega), if_pos (by omega), written]
  · change digits.length = 8 at width
    change 0x100000000 ≤ _ at least
    rw [width] at written
    rw [if_neg (by omega), if_neg (by omega), if_neg (by omega), written]

theorem compactSize_cases {n : Nat} (small : n < 256 ^ 8) :
    (n < 0xfd ∧ Wire.compactSize n = [UInt8.ofNat n]) ∨
      ∃ first, sizeWidth first ≠ 0 ∧ leastOfWidth (sizeWidth first) ≤ n ∧
        n < 256 ^ sizeWidth first ∧
        Wire.compactSize n = first :: littleEndian (sizeWidth first) n := by
  rw [Wire.compactSize]
  by_cases one : n < 0xfd
  · exact Or.inl ⟨one, by rw [if_pos one]; rfl⟩
  rw [if_neg one]
  refine Or.inr ?_
  by_cases two : n ≤ 0xffff
  · exact ⟨0xfd, by decide, Nat.le_of_not_lt one, Nat.lt_succ_of_le two, if_pos two⟩
  rw [if_neg two]
  by_cases four : n ≤ 0xffffffff
  · exact ⟨0xfe, by decide, Nat.lt_of_not_le two, Nat.lt_succ_of_le four, if_pos four⟩
  · exact ⟨0xff, by decide, Nat.lt_of_not_le four, small, if_neg four⟩

theorem apply_size_cons_eq_ok_iff {first : UInt8} {n : Nat} :
    size.apply (first :: bytes) = (.ok n, rest) ↔
      (sizeWidth first = 0 ∧ first.toNat = n ∧ bytes = rest) ∨
        ∃ digits, sizeWidth first ≠ 0 ∧ digits.length = sizeWidth first ∧
          leastOfWidth (sizeWidth first) ≤ ofLittleEndian digits ∧ ofLittleEndian digits = n ∧
          bytes = digits ++ rest := by
  simp only [apply, size]
  by_cases short : sizeWidth first = 0
  · simp [short]
  rw [if_neg short]
  constructor
  · intro done
    split at done
    · cases done
    split at done
    · cases done
    · cases done
      refine Or.inr ⟨bytes.take (sizeWidth first), short, ?_, by omega, rfl,
        (List.take_append_drop _ _).symm⟩
      have := List.length_take_le (sizeWidth first) bytes
      omega
  · rintro (⟨none, -⟩ | ⟨digits, -, length, least, rfl, rfl⟩)
    · exact absurd none short
    · rw [← length] at least ⊢
      simp [Nat.not_lt.mpr least]

/-- A size is read in its shortest form and in no other. -/
theorem size_reads : size.Reads Wire.compactSize fun n => n < 256 ^ 8 := by
  intro bytes n rest
  constructor
  · intro done
    cases bytes with
    | nil => cases done
    | cons first left =>
      rcases apply_size_cons_eq_ok_iff.mp done with ⟨none, rfl, rfl⟩ |
        ⟨digits, marked, length, least, rfl, rfl⟩
      · have low : first.toNat < 0xfd := by
          rcases sizeWidth_cases first with ⟨low, -⟩ | rfl | rfl | rfl
          · exact low
          all_goals cases none
        refine ⟨by omega, ?_⟩
        rw [Wire.compactSize, if_pos low, littleEndian, littleEndian, UInt8.ofNat_toNat]
        rfl
      · rw [compactSize_of_digits length marked least]
        refine ⟨?_, rfl⟩
        refine Nat.lt_of_lt_of_le (ofLittleEndian_lt digits) (Nat.pow_le_pow_right (by decide) ?_)
        rw [length]
        rcases sizeWidth_cases first with ⟨-, none⟩ | rfl | rfl | rfl
        · exact absurd none marked
        all_goals decide
  · rintro ⟨small, rfl⟩
    rcases compactSize_cases small with ⟨low, written⟩ | ⟨first, marked, least, bound, written⟩
    · rw [written, List.singleton_append]
      have byte : (UInt8.ofNat n).toNat = n :=
        UInt8.toNat_ofNat_of_lt (Nat.lt_trans low (by decide))
      refine apply_size_cons_eq_ok_iff.mpr (Or.inl ⟨?_, byte, rfl⟩)
      rcases sizeWidth_cases (UInt8.ofNat n) with ⟨-, none⟩ | same | same | same
      · exact none
      -- A mark would be a number that is not below the least mark.
      all_goals
        rw [same] at byte
        subst byte
        exact absurd low (by decide)
    · have value := ofLittleEndian_littleEndian_of_lt bound
      rw [written, List.cons_append]
      refine apply_size_cons_eq_ok_iff.mpr (Or.inr ⟨littleEndian (sizeWidth first) n, marked,
        length_littleEndian _ _, ?_, value, rfl⟩)
      rwa [value]

theorem length_reads : length.Reads Wire.compactSize fun n => n ≤ maxVectorSize := by
  intro bytes n rest
  rw [length, size_reads.bind_eq_ok_iff]
  constructor
  · rintro ⟨announced, between, -, rfl, done⟩
    split at done
    · cases done
    · obtain ⟨rfl, rfl⟩ := apply_pure_eq_ok_iff.mp done
      exact ⟨Nat.le_of_not_lt ‹_›, rfl⟩
  · rintro ⟨short, rfl⟩
    refine ⟨n, rest, Nat.lt_of_le_of_lt short (by decide), rfl, ?_⟩
    rw [if_neg (Nat.not_lt.mpr short)]
    rfl

end Sizes

section Vectors

theorem sizedBytes_reads :
    sizedBytes.Reads Wire.sizedBytes fun bytes => bytes.length ≤ maxVectorSize := by
  intro bytes found rest
  rw [sizedBytes, length_reads.bind_eq_ok_iff]
  simp only [take_reads _ _ _ _]
  constructor
  · rintro ⟨_, _, short, rfl, rfl, rfl⟩
    exact ⟨short, (List.append_assoc _ _ _).symm⟩
  · rintro ⟨short, rfl⟩
    exact ⟨found.length, found ++ rest, short, List.append_assoc _ _ _, rfl, rfl⟩

variable {encode : α → Bytes} {fits : α → Prop} {decoder : Decoder α}

theorem replicateOnto_eq_ok_iff (reads : decoder.Reads encode fits) {before items : List α}
    {count : Nat} :
    (replicateOnto decoder before count).apply bytes = (.ok items, rest) ↔
      ∃ later, later.length = count ∧ (∀ item ∈ later, fits item) ∧
        items = before.reverse ++ later ∧ bytes = later.flatMap encode ++ rest := by
  induction count generalizing before bytes with
  | zero =>
    simp only [replicateOnto, apply_pure_eq_ok_iff, List.length_eq_zero_iff]
    constructor
    · rintro ⟨rfl, rfl⟩
      exact ⟨[], rfl, by simp, by simp, rfl⟩
    · rintro ⟨_, rfl, -, rfl, rfl⟩
      simp
  | succ count ih =>
    simp only [replicateOnto, reads.bind_eq_ok_iff, ih]
    constructor
    · rintro ⟨item, _, fit, rfl, later, rfl, others, rfl, rfl⟩
      exact ⟨item :: later, rfl, List.forall_mem_cons.mpr ⟨fit, others⟩, by simp, by simp⟩
    · rintro ⟨later, length, fit, rfl, rfl⟩
      cases later with
      | nil => cases length
      | cons item later =>
        obtain ⟨fit, others⟩ := List.forall_mem_cons.mp fit
        exact ⟨item, later.flatMap encode ++ rest, fit, by simp, later, Nat.succ.inj length,
          others, by simp, rfl⟩

theorem Reads.replicate (reads : decoder.Reads encode fits) (count : Nat) :
    (replicate decoder count).Reads (List.flatMap encode)
      fun items => items.length = count ∧ ∀ item ∈ items, fits item := by
  intro bytes items rest
  rw [Decoder.replicate, replicateOnto_eq_ok_iff reads]
  constructor
  · rintro ⟨items, rfl, fit, rfl, rfl⟩
    exact ⟨⟨rfl, fit⟩, rfl⟩
  · rintro ⟨⟨rfl, fit⟩, rfl⟩
    exact ⟨items, rfl, fit, rfl, rfl⟩

theorem Reads.vector (reads : decoder.Reads encode fits) :
    (vector decoder).Reads (Wire.vector encode)
      fun items => items.length ≤ maxVectorSize ∧ ∀ item ∈ items, fits item := by
  intro bytes items rest
  rw [Decoder.vector, length_reads.bind_eq_ok_iff]
  simp only [reads.replicate _ _ _ _]
  constructor
  · rintro ⟨_, _, short, rfl, ⟨rfl, fit⟩, rfl⟩
    exact ⟨⟨short, fit⟩, (List.append_assoc _ _ _).symm⟩
  · rintro ⟨⟨short, fit⟩, rfl⟩
    exact ⟨items.length, items.flatMap encode ++ rest, short, List.append_assoc _ _ _, ⟨rfl, fit⟩,
      rfl⟩

end Vectors

end Decoder

end ScryptLedger
