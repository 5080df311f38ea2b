import Mathlib.Data.List.Basic
import ScryptLedger.Proofs.Script.Positional.Attempt
import ScryptLedger.Proofs.Wire.Decoder
import ScryptLedger.Script.Number

/-!
# Script numbers in words

A machine reads an integer into a word of 64 bits: each byte is shifted to its
place, then the sign is taken out and the rest negated. It drops padding by
looking back from the end of a byte string, one index at a time.
-/

namespace ScryptLedger.Script.Positional

open Attempt

/-! ## Reading -/

/-- The word with the bytes from a given place on put in. -/
def joinFrom {width : Nat} (word : BitVec width) (place : Nat) : Bytes → Attempt (BitVec width)
  | [] => return word
  | b :: rest => do
    let shifted ← shiftLeft (BitVec.ofNat width b.toNat) (8 * place)
    joinFrom (word ||| shifted) (place + 1) rest

/-- Whether a byte string is a minimal form of at most `maxLength` bytes. -/
def isMinimal (bytes : Bytes) (maxLength : Nat) : Attempt Bool :=
  if bytes.length > maxLength then return false
  else
    match bytes.getLast? with
    | none => return true
    | some last =>
      if last &&& 0x7f ≠ 0 then return true
      else if bytes.length ≤ 1 then return false
      else do
        let before ← item bytes (← minus bytes.length 2)
        return before &&& 0x80 != 0

/-- The integer that a byte string stands for. -/
def value (bytes : Bytes) : Attempt Int :=
  if bytes.isEmpty then return 0
  else do
    let word ← joinFrom 0#64 0 bytes
    let highest ← minus bytes.length 1
    let last ← item bytes highest
    if last &&& 0x80 ≠ 0 then
      let sign ← shiftLeft 0x80#64 (8 * highest)
      int64 (-(word &&& ~~~sign).toInt)
    else return word.toInt

/-- Reads an integer of at most `maxLength` bytes, in minimal form where that is asked for. -/
def decode (bytes : Bytes) (requireMinimal : Bool) (maxLength : Nat) : Attempt Int :=
  if bytes.length > maxLength then refuse .unknown
  else do
    let padded ← if requireMinimal then not <$> isMinimal bytes maxLength else pure false
    if padded then refuse .minimalData else value bytes

section Reading

variable {width : Nat}

theorem toNat_or_shiftLeft {place : Nat} (word : BitVec width) (b : UInt8)
    (room : 8 * place + 8 ≤ width) (low : word.toNat < 2 ^ (8 * place)) :
    (word ||| BitVec.ofNat width b.toNat <<< (8 * place)).toNat
      = word.toNat + 2 ^ (8 * place) * b.toNat := by
  have byte : b.toNat < 2 ^ 8 := b.toNat_lt
  have fits : 2 ^ (8 * place) * b.toNat < 2 ^ width :=
    calc 2 ^ (8 * place) * b.toNat < 2 ^ (8 * place) * 2 ^ 8 :=
          Nat.mul_lt_mul_of_pos_left byte (Nat.two_pow_pos _)
      _ = 2 ^ (8 * place + 8) := (Nat.pow_add 2 _ _).symm
      _ ≤ 2 ^ width := Nat.pow_le_pow_right (by decide) room
  have whole : b.toNat < 2 ^ width := byte.trans_le (Nat.pow_le_pow_right (by decide) (by omega))
  rw [BitVec.toNat_or, BitVec.toNat_shiftLeft, BitVec.toNat_ofNat, Nat.mod_eq_of_lt whole,
    Nat.shiftLeft_eq, Nat.mul_comm b.toNat, Nat.mod_eq_of_lt fits, Nat.or_comm,
    ← Nat.two_pow_add_eq_or_of_lt low, Nat.add_comm]

/-- Bytes put in above what a word holds are the digits above it. -/
theorem joinFrom_eq (bytes : Bytes) (word : BitVec width) (place : Nat)
    (room : 8 * (place + bytes.length) ≤ width) (low : word.toNat < 2 ^ (8 * place)) :
    ∃ joined, joinFrom word place bytes = pure joined ∧
      joined.toNat = word.toNat + 2 ^ (8 * place) * ofLittleEndian bytes := by
  induction bytes generalizing word place with
  | nil => exact ⟨word, rfl, by simp [ofLittleEndian]⟩
  | cons b rest ih =>
    rw [List.length_cons] at room
    have here := toNat_or_shiftLeft word b (by omega) low
    have below : (word ||| BitVec.ofNat width b.toNat <<< (8 * place)).toNat
        < 2 ^ (8 * (place + 1)) := by
      have byte : b.toNat < 256 := b.toNat_lt
      have digit : 2 ^ (8 * place) * b.toNat ≤ 2 ^ (8 * place) * 255 :=
        Nat.mul_le_mul_left _ (Nat.le_of_lt_succ byte)
      rw [here, Nat.mul_succ, Nat.pow_add]
      omega
    obtain ⟨joined, ran, digits⟩ := ih _ _ (by omega) below
    refine ⟨joined, ?_, ?_⟩
    · rw [joinFrom, shiftLeft_eq (by omega)]
      exact ran
    · rw [digits, here, ofLittleEndian, Nat.mul_succ, Nat.pow_add]
      rw [Nat.mul_add, ← Nat.mul_assoc, Nat.add_assoc]

theorem joinFrom_zero (width : Nat) (bytes : Bytes) (room : 8 * bytes.length ≤ width) :
    ∃ joined, joinFrom 0#(width) 0 bytes = pure joined ∧ joined.toNat = ofLittleEndian bytes := by
  obtain ⟨joined, ran, digits⟩ := joinFrom_eq bytes 0#(width) 0 (by omega) (by simp)
  exact ⟨joined, ran, by simpa using digits⟩

end Reading

theorem and_0x80_eq_zero_iff (b : UInt8) : b &&& 0x80 = 0 ↔ b < 0x80 := by
  have table : ∀ row : Fin 256, UInt8.ofNat row &&& 0x80 = 0 ↔ UInt8.ofNat row < 0x80 := by
    decide +kernel
  simpa using table ⟨b.toNat, b.toNat_lt⟩

theorem ofLittleEndian_concat (before : Bytes) (last : UInt8) :
    ofLittleEndian (before ++ [last])
      = ofLittleEndian before + 2 ^ (8 * before.length) * last.toNat := by
  induction before with
  | nil => simp [ofLittleEndian]
  | cons b rest ih =>
    rw [List.cons_append, ofLittleEndian, ih, ofLittleEndian, List.length_cons, Nat.mul_succ,
      Nat.pow_add, Nat.mul_add, ← Nat.mul_assoc, Nat.mul_comm 256 (2 ^ _), Nat.add_assoc]

theorem and_0x80_bne_zero (b : UInt8) : (b &&& 0x80 != 0) = decide (0x80 ≤ b) := by
  rw [bne, beq_eq_decide, ← decide_not]
  exact decide_eq_decide.mpr ((and_0x80_eq_zero_iff b).not.trans UInt8.not_lt)

/-- Taking out the highest bit that is set. -/
theorem toNat_clear {width : Nat} (word : BitVec width) {place : Nat} (room : place < width)
    (least : 2 ^ place ≤ word.toNat) (most : word.toNat < 2 ^ (place + 1)) :
    (word &&& ~~~(1#(width) <<< place)).toNat = word.toNat - 2 ^ place := by
  obtain ⟨below, split⟩ := Nat.exists_eq_add_of_le least
  have small : below < 2 ^ place := by
    rw [Nat.pow_succ] at most
    omega
  have fits : below < 2 ^ width := small.trans (Nat.pow_lt_pow_right (by decide) room)
  have cleared : word &&& ~~~(1#(width) <<< place) = BitVec.ofNat width below := by
    apply BitVec.eq_of_getLsbD_eq
    intro i inside
    have bit : word.getLsbD i = (2 ^ place ||| below).testBit i := by
      have joined := Nat.two_pow_add_eq_or_of_lt small 1
      rw [Nat.mul_one] at joined
      rw [← joined, ← split]
      rfl
    have kept : (~~~(1#(width) <<< place)).getLsbD i = decide (i ≠ place) := by
      rw [BitVec.getLsbD_not, ← BitVec.twoPow_eq, BitVec.getLsbD_twoPow]
      simp [inside, room, eq_comm]
    rw [BitVec.getLsbD_and, bit, kept, BitVec.getLsbD_ofNat, Nat.testBit_or]
    by_cases highest : i = place
    · simp [highest, Nat.testBit_lt_two_pow small]
    · simp [highest, inside, Nat.testBit_two_pow_of_ne (Ne.symm highest)]
  rw [cleared, BitVec.toNat_ofNat, Nat.mod_eq_of_lt fits, split, Nat.add_sub_cancel_left]

/-- A byte string that a word has room for is read as it stands. -/
theorem value_eq {bytes : Bytes} (short : bytes.length ≤ 8) :
    value bytes = pure (ScriptNumber.value bytes) := by
  rcases bytes.eq_nil_or_concat' with rfl | ⟨before, last, rfl⟩
  · rfl
  rw [List.length_append, List.length_singleton] at short
  obtain ⟨word, joined, number⟩ := joinFrom_zero 64 (before ++ [last]) (by simp; omega)
  have digits := ofLittleEndian_concat before last
  have low := ofLittleEndian_lt before
  have byte : last.toNat < 256 := last.toNat_lt
  have half : 2 ^ (8 * before.length) * 128 = 2 ^ (8 * before.length + 7) :=
    (Nat.pow_add 2 _ 7).symm
  have room : 2 ^ (8 * before.length + 7) ≤ 2 ^ 63 := Nat.pow_le_pow_right (by decide) (by omega)
  rw [show 256 ^ before.length = 2 ^ (8 * before.length) from (Nat.pow_mul 2 8 _).symm] at low
  have length : (before ++ [last]).length - 1 = before.length := by simp
  have highest : minus (before ++ [last]).length 1 = pure before.length :=
    (minus_eq (by simp)).trans (congrArg pure length)
  have ends : item (before ++ [last]) before.length = pure last :=
    item_eq List.getElem?_concat_length
  have nonempty : (before ++ [last]).isEmpty = false := by simp
  rw [value, nonempty, if_neg Bool.false_ne_true, joined, highest]
  simp only [pure_bind, ends, ScriptNumber.value, List.getLast?_concat, length]
  by_cases plain : last < 0x80
  · have small : last.toNat ≤ 127 := Nat.le_of_lt_succ (UInt8.lt_iff_toNat_lt.mp plain)
    have part := Nat.mul_le_mul_left (2 ^ (8 * before.length)) small
    rw [if_neg (not_not.mpr ((and_0x80_eq_zero_iff last).mpr plain)), if_pos plain,
      BitVec.toInt_eq_toNat_of_lt (by omega), number]
  · have large : 128 ≤ last.toNat := UInt8.le_iff_toNat_le.mp (UInt8.not_lt.mp plain)
    have least := Nat.mul_le_mul_left (2 ^ (8 * before.length)) large
    have most := Nat.mul_le_mul_left (2 ^ (8 * before.length)) (Nat.le_of_lt_succ byte)
    have sign : 0x80#64 <<< (8 * before.length) = 1#64 <<< (8 * before.length + 7) := by
      rw [Nat.add_comm, BitVec.shiftLeft_add]
      rfl
    have cleared : (word &&& ~~~(1#64 <<< (8 * before.length + 7))).toNat
        = word.toNat - 2 ^ (8 * before.length + 7) :=
      toNat_clear word (by omega) (by omega) (by rw [Nat.pow_succ]; omega)
    rw [if_pos ((and_0x80_eq_zero_iff last).not.mpr plain), if_neg plain, shiftLeft_eq (by omega),
      pure_bind, sign, BitVec.toInt_eq_toNat_of_lt (by omega), cleared, Nat.shiftLeft_eq,
      Nat.mul_comm 0x80, half, number, int64_eq (by omega)]
    congr 2
    omega

theorem isMinimal_eq (bytes : Bytes) (maxLength : Nat) :
    isMinimal bytes maxLength = pure (ScriptNumber.isMinimal bytes maxLength) := by
  rw [isMinimal, ScriptNumber.isMinimal]
  by_cases long : bytes.length > maxLength
  · rw [if_pos long, decide_eq_false (Nat.not_le.mpr long)]
    rfl
  rw [if_neg long, decide_eq_true (Nat.not_lt.mp long), Bool.true_and]
  rcases reversed : bytes.reverse with _ | ⟨last, _ | ⟨before, rest⟩⟩
  · cases List.reverse_eq_nil_iff.mp reversed
    rfl
  · obtain rfl : bytes = [last] := List.reverse_eq_iff.mp reversed
    by_cases ends : last &&& 0x7f = 0
    · simp [ScriptNumber.isMinimalForm, ends]
    · have signs : (last &&& 0x7f != 0) = true := bne_iff_ne.mpr ends
      simp [ScriptNumber.isMinimalForm, ends, signs]
  · obtain rfl : bytes = (last :: before :: rest).reverse := List.reverse_eq_iff.mp reversed
    have second : item (last :: before :: rest).reverse rest.length = pure before :=
      (item_reverse (show rest.length + 1 + 1 = _ by simp)).trans (item_eq rfl)
    have form : ScriptNumber.isMinimalForm (last :: before :: rest).reverse
        = (last &&& 0x7f != 0 || decide (0x80 ≤ before)) := by
      rw [ScriptNumber.isMinimalForm, List.reverse_reverse]
    have height : minus (last :: before :: rest).reverse.length 2 = pure rest.length :=
      (minus_eq (by simp)).trans (by simp)
    rw [List.getLast?_reverse, form, height, pure_bind, second, pure_bind, and_0x80_bne_zero]
    by_cases ends : last &&& 0x7f = 0
    · simp [ends]
    · have signs : (last &&& 0x7f != 0) = true := bne_iff_ne.mpr ends
      simp [ends, signs]

/-- Integers of up to eight bytes are read as they are, or refused for the same reasons. -/
theorem decode_eq {bytes : Bytes} {minimal : Bool} {maxLength : Nat} (room : maxLength ≤ 8) :
    decode bytes minimal maxLength = of id (ScriptNumber.decode bytes minimal maxLength) := by
  rw [decode, ScriptNumber.decode, of_ite]
  by_cases long : bytes.length > maxLength
  · rw [if_pos long, if_pos long]
    rfl
  rw [if_neg long, if_neg long, of_ite, isMinimal_eq, value_eq (by omega)]
  cases minimal <;> rfl

/-! ## Padding -/

/-- Looks back from a position for a byte other than zero, and lets the byte string end there with
the sign that `last` is: in that byte, or behind it where its highest bit is taken. -/
def minimizeFrom (bytes : Bytes) (last : UInt8) : Nat → Attempt Bytes
  | 0 => return []
  | position + 1 => do
    let high ← item bytes position
    if high = 0 then minimizeFrom bytes last position
    else if high &&& 0x80 ≠ 0 then return (← put bytes (position + 1) last).take (position + 2)
    else return (← put bytes position (high ||| last)).take (position + 1)

/-- The minimal form of the integer a byte string stands for. -/
def minimize (bytes : Bytes) : Attempt Bytes :=
  match bytes.getLast? with
  | none => return bytes
  | some last =>
    if last &&& 0x7f ≠ 0 then return bytes
    else if bytes.length = 1 then return []
    else do
      let before ← item bytes (← minus bytes.length 2)
      if before &&& 0x80 ≠ 0 then return bytes
      else minimizeFrom bytes last (← minus bytes.length 1)

/-- The byte string with its last byte changed, if there is one. -/
def changeLast (change : UInt8 → UInt8) (bytes : Bytes) : Bytes :=
  match bytes.getLast? with
  | none => bytes
  | some last => bytes.dropLast ++ [change last]

/-- The form of exactly `size` bytes of the integer a byte string stands for: the sign is taken out
of the last byte of the minimal form, and put into the last one after padding. -/
def resize (bytes : Bytes) (size : Nat) : Attempt Bytes := do
  let short ← minimize bytes
  if short.length > size then refuse .impossibleEncoding
  else
    let sign := (short.getLast?.map (· &&& 0x80)).getD 0
    let padded := (changeLast (· &&& 0x7f) short ++ List.replicate size 0).take size
    return changeLast (· ||| sign) padded

/-- Whether there is a byte other than zero from an index on, that is not a sign alone. -/
def isTrueFrom (bytes : Bytes) (index : Nat) : Bytes → Attempt Bool
  | [] => return false
  | b :: rest =>
    if b = 0 then isTrueFrom bytes (index + 1) rest
    else do return !(index == (← minus bytes.length 1) && b == 0x80)

/-- Whether a byte string stands for an integer other than zero. -/
def isTrue (bytes : Bytes) : Attempt Bool := isTrueFrom bytes 0 bytes

theorem isTrueFrom_eq {bytes rest : Bytes} {index : Nat}
    (suffix : index + rest.length = bytes.length) :
    isTrueFrom bytes index rest = pure (ScriptNumber.isTrue rest) := by
  induction rest generalizing index with
  | nil => rfl
  | cons b rest ih =>
    rw [List.length_cons] at suffix
    rw [isTrueFrom]
    by_cases zero : b = 0
    · rw [if_pos zero, ih (by omega), zero]
      cases rest <;> rfl
    have nonzero : (b != 0) = true := bne_iff_ne.mpr zero
    rw [if_neg zero, minus_eq (by omega), pure_bind]
    cases rest with
    | nil =>
      have last : index = bytes.length - 1 := by
        rw [List.length_nil] at suffix
        omega
      simp only [ScriptNumber.isTrue, nonzero, beq_iff_eq.mpr last, Bool.true_and]
      rfl
    | cons next rest =>
      have inner : index ≠ bytes.length - 1 := by
        rw [List.length_cons] at suffix
        omega
      simp only [ScriptNumber.isTrue, nonzero, beq_false_of_ne inner, Bool.false_and, Bool.true_or,
        Bool.not_false]

theorem isTrue_eq (bytes : Bytes) : isTrue bytes = pure (ScriptNumber.isTrue bytes) :=
  isTrueFrom_eq (Nat.zero_add _)

section Padding

variable {before : Bytes} {b last : UInt8}

/-- A byte string that ends in a sign: in its last byte, or in one of its own. -/
def withSign (body : Bytes) (sign : UInt8) : Bytes :=
  match body.getLast? with
  | none => []
  | some high => if high < 0x80 then body.dropLast ++ [high ||| sign] else body ++ [sign]

theorem stripZeros_concat_zero :
    ScriptNumber.stripZeros (before ++ [0]) = ScriptNumber.stripZeros before := by
  simp [ScriptNumber.stripZeros]

theorem stripZeros_concat (nonzero : b ≠ 0) :
    ScriptNumber.stripZeros (before ++ [b]) = before ++ [b] := by
  simp [ScriptNumber.stripZeros, nonzero]

theorem withSign_concat :
    withSign (before ++ [b]) last
      = if b < 0x80 then before ++ [b ||| last] else before ++ [b] ++ [last] := by
  simp [withSign]

theorem minimize_concat :
    ScriptNumber.minimize (before ++ [last])
      = if last &&& 0x7f ≠ 0 then before ++ [last]
        else withSign (ScriptNumber.stripZeros before) last := by
  rw [ScriptNumber.minimize, List.getLast?_concat]
  by_cases plain : last &&& 0x7f = 0
  · simp only [plain, List.dropLast_concat, withSign]
    rfl
  · rw [if_pos plain]
    exact if_pos (bne_iff_ne.mpr plain)

theorem take_succ_set {bytes : Bytes} {index : Nat} (inside : index < bytes.length) :
    (bytes.set index b).take (index + 1) = bytes.take index ++ [b] := by
  have short : (bytes.take index).length = index := List.length_take_of_le inside.le
  rw [List.set_eq_take_append_cons_drop, if_pos inside, List.take_append, short,
    Nat.add_sub_cancel_left, List.take_of_length_le (by omega), List.take_succ_cons, List.take_zero]

theorem minimizeFrom_eq {position : Nat} (inside : position ≤ before.length) :
    minimizeFrom (before ++ [last]) last position
      = pure (withSign (ScriptNumber.stripZeros (before.take position)) last) := by
  induction position with
  | zero => rfl
  | succ position ih =>
    have found : item (before ++ [last]) position = pure before[position] :=
      item_eq (by rw [List.getElem?_append_left inside, List.getElem?_eq_getElem inside])
    have longer : (before ++ [last]).length = before.length + 1 := List.length_append
    rw [minimizeFrom, found, pure_bind, List.take_succ_eq_append_getElem inside]
    by_cases zero : before[position] = 0
    · rw [if_pos zero, zero, stripZeros_concat_zero]
      exact ih (Nat.le_of_succ_le inside)
    rw [if_neg zero, stripZeros_concat zero, withSign_concat, put_eq (by omega), put_eq (by omega),
      pure_bind, pure_bind, take_succ_set (by omega), take_succ_set (by omega),
      List.take_append_of_le_length inside,
      List.take_append_of_le_length (Nat.le_of_succ_le inside),
      List.take_succ_eq_append_getElem inside]
    by_cases plain : before[position] < 0x80
    · rw [if_neg (not_not.mpr ((and_0x80_eq_zero_iff _).mpr plain)), if_pos plain]
    · rw [if_pos ((and_0x80_eq_zero_iff _).not.mpr plain), if_neg plain]

theorem minimize_eq (bytes : Bytes) : minimize bytes = pure (ScriptNumber.minimize bytes) := by
  rcases bytes.eq_nil_or_concat' with rfl | ⟨before, last, rfl⟩
  · rfl
  rw [minimize, minimize_concat, List.getLast?_concat]
  dsimp only
  by_cases plain : last &&& 0x7f ≠ 0
  · rw [if_pos plain, if_pos plain]
  rw [if_neg plain, if_neg plain]
  rcases before.eq_nil_or_concat' with rfl | ⟨front, second, rfl⟩
  · rfl
  have longer : (front ++ [second] ++ [last]).length = front.length + 2 := by simp
  have found : item (front ++ [second] ++ [last]) front.length = pure second := item_eq (by simp)
  rw [longer, if_neg (by omega), minus_eq (by omega), minus_eq (by omega), pure_bind,
    Nat.add_sub_cancel, found, pure_bind, pure_bind]
  by_cases low : second < 0x80
  · rw [if_neg (not_not.mpr ((and_0x80_eq_zero_iff _).mpr low)), minimizeFrom_eq (by simp),
      List.take_of_length_le (by simp)]
  · have nonzero : second ≠ 0 := by
      rintro rfl
      exact low (by decide)
    rw [if_pos ((and_0x80_eq_zero_iff _).not.mpr low), stripZeros_concat nonzero, withSign_concat,
      if_neg low]

end Padding

section Resizing

theorem changeLast_concat {change : UInt8 → UInt8} {before : Bytes} {last : UInt8} :
    changeLast change (before ++ [last]) = before ++ [change last] := by
  simp [changeLast]

theorem and_0x7f_or_and_0x80 (b : UInt8) : b &&& 0x7f ||| b &&& 0x80 = b := by
  have table : ∀ row : Fin 256, UInt8.ofNat row &&& 0x7f ||| UInt8.ofNat row &&& 0x80
      = UInt8.ofNat row := by decide +kernel
  simpa using table ⟨b.toNat, b.toNat_lt⟩

theorem changeLast_or_zero (bytes : Bytes) : changeLast (· ||| 0) bytes = bytes := by
  rcases bytes.eq_nil_or_concat' with rfl | ⟨before, last, rfl⟩
  · rfl
  · rw [changeLast_concat, UInt8.or_zero]

theorem resize_eq (bytes : Bytes) (size : Nat) :
    resize bytes size = of id (ScriptNumber.resize bytes size) := by
  rw [resize, ScriptNumber.resize, minimize_eq, pure_bind, of_ite]
  generalize ScriptNumber.minimize bytes = short
  by_cases large : short.length > size
  · rw [if_pos large, if_pos large]
    rfl
  rw [if_neg large, if_neg large]
  rcases short.eq_nil_or_concat' with rfl | ⟨before, last, rfl⟩
  · simp only [List.getLast?_nil, Option.map_none, Option.getD_none, changeLast_or_zero]
    simp [changeLast]
  simp only [List.getLast?_concat, Option.map_some, Option.getD_some, changeLast_concat, of_ite,
    List.dropLast_concat, of_pure, id_eq]
  by_cases exact : (before ++ [last]).length = size
  · subst exact
    rw [if_pos rfl, List.take_append_of_le_length (by simp), List.take_of_length_le (by simp),
      changeLast_concat, and_0x7f_or_and_0x80]
  · rw [List.length_append, List.length_singleton] at large exact
    obtain ⟨padding, rfl⟩ : ∃ padding, size = before.length + 1 + (padding + 1) :=
      ⟨size - before.length - 2, by omega⟩
    have padded : ∀ room, padding < room →
        (before ++ [last &&& 0x7f] ++ List.replicate room 0).take
            (before.length + 1 + (padding + 1))
          = (before ++ (last &&& 0x7f) :: List.replicate padding 0) ++ [0] := by
      intro room enough
      have start : before.length + 1 = (before ++ [last &&& 0x7f]).length := by simp
      rw [start, List.take_length_add_append, List.take_replicate, Nat.min_eq_left enough,
        List.replicate_succ']
      simp
    have width : before.length + 1 + (padding + 1) - (before ++ [last]).length - 1 = padding := by
      simp
    rw [if_neg (by simp), padded _ (by omega), changeLast_concat, width, UInt8.zero_or]

end Resizing

end ScryptLedger.Script.Positional
