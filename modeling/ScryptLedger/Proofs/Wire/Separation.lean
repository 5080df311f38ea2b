import Mathlib.Data.List.Forall2
import ScryptLedger.Proofs.Wire.Decoder

/-!
# Encodings that can be told apart

An encoding separates two values when what it writes for them says, whatever
follows, where it ends and whether the values are equal. What can be read is
separated. Lists of separated items are separated when they are of equal length,
and when nothing follows them also without that.
-/

namespace ScryptLedger.Wire

variable {α : Type}

/-- Whether two values can be told from their encodings, whatever follows these. -/
def Separates (encode : α → Bytes) (a b : α) : Prop :=
  ∀ after after', encode a ++ after = encode b ++ after' → a = b ∧ after = after'

variable {encode : α → Bytes} {a b : α}

theorem Separates.eq (apart : Separates encode a b) (same : encode a = encode b) : a = b :=
  (apart [] [] (congrArg (· ++ []) same)).1

theorem separates_of_reads {decoder : Decoder α} {fits : α → Prop}
    (reads : decoder.Reads encode fits) (fit : fits a) (fit' : fits b) : Separates encode a b :=
  fun _ _ same => reads.append_inj fit fit' same

/-- Byte strings are separated by their lengths, where these fit into the wire format. -/
theorem sizedBytes_separates {a b : Bytes} (small : a.length < 256 ^ 8)
    (small' : b.length < 256 ^ 8) : Separates sizedBytes a b := by
  intro after after' same
  simp only [sizedBytes, List.append_assoc] at same
  obtain ⟨length, held⟩ := Decoder.size_reads.append_inj small small' same
  exact List.append_inj held length

section Lists

variable {items others : List α}

/-- Where nothing follows, items that are never written as nothing say how many they are. -/
theorem eq_of_flatMap (apart : ∀ item ∈ items, ∀ other ∈ others, Separates encode item other)
    (written : ∀ item, encode item ≠ []) (same : items.flatMap encode = others.flatMap encode) :
    items = others := by
  induction items generalizing others with
  | nil =>
    cases others with
    | nil => rfl
    | cons other rest =>
      rw [List.flatMap_nil, List.flatMap_cons] at same
      exact absurd (List.append_eq_nil_iff.mp same.symm).1 (written other)
  | cons item rest ih =>
    cases others with
    | nil =>
      rw [List.flatMap_nil, List.flatMap_cons] at same
      exact absurd (List.append_eq_nil_iff.mp same).1 (written item)
    | cons other left =>
      rw [List.flatMap_cons, List.flatMap_cons] at same
      obtain ⟨rfl, behind⟩ := apart item List.mem_cons_self other List.mem_cons_self _ _ same
      have later (x : α) (held : x ∈ rest) (y : α) (held' : y ∈ left) : Separates encode x y :=
        apart x (List.mem_cons_of_mem _ held) y (List.mem_cons_of_mem _ held')
      rw [ih later behind]

/-- Fields that can be read, written one after the other, say what they are in which item. -/
theorem flatMap_eq_iff_of_reads {β : Type} {decoder : Decoder α} {first second : List β}
    (reads : decoder.Reads encode fun _ => True) (written : ∀ item, encode item ≠ [])
    (field : β → α) :
    (first.flatMap fun entry => encode (field entry)) =
        (second.flatMap fun entry => encode (field entry)) ↔
      first.map field = second.map field := by
  have listed (entries : List β) :
      (entries.flatMap fun entry => encode (field entry)) = (entries.map field).flatMap encode :=
    (List.flatMap_map ..).symm
  rw [listed, listed]
  constructor
  · intro same
    exact eq_of_flatMap (fun _ _ _ _ => separates_of_reads reads trivial trivial) written same
  · intro same
    rw [same]

end Lists

end ScryptLedger.Wire
