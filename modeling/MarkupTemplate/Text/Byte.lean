import MarkupTemplate.Text.Basic

namespace MarkupTemplate

/-- The bytes of a text. -/
def bytes (text : Text) : List UInt8 :=
  text.flatMap String.utf8EncodeChar

/-- The byte at a position, as the character of its number. -/
def byteAt? (text : Text) (position : Nat) : Option Char :=
  (bytes text)[position]?.map fun byte => Char.ofNat byte.toNat

/-- The text from a boundary on. -/
def sliceFrom? : Nat → Text → Option Text
  | 0, text => some text
  | _ + 1, [] => none
  | position + 1, c :: rest =>
    if c.utf8Size ≤ position + 1 then sliceFrom? (position + 1 - c.utf8Size) rest else none

/-- The text up to a boundary. -/
def sliceTo? : Nat → Text → Option Text
  | 0, _ => some []
  | _ + 1, [] => none
  | position + 1, c :: rest =>
    if c.utf8Size ≤ position + 1 then
      (sliceTo? (position + 1 - c.utf8Size) rest).map (c :: ·)
    else none

/-- The text from one boundary to another. -/
def slice? (first last : Nat) (text : Text) : Option Text :=
  if first ≤ last then (sliceFrom? first text).bind (sliceTo? (last - first)) else none

/-- The position of the first character with a property. -/
def position? (p : Char → Bool) : Text → Option Nat
  | [] => none
  | c :: rest => if p c then some 0 else (position? p rest).map (c.utf8Size + ·)

/-- The position of the first occurrence of a text. -/
def positionOf? (mark : Text) : Text → Option Nat
  | [] => if mark.isEmpty then some 0 else none
  | c :: rest =>
    if mark.isPrefixOf (c :: rest) then some 0 else (positionOf? mark rest).map (c.utf8Size + ·)

@[simp] theorem encodedSize_append (a b : Text) :
    encodedSize (a ++ b) = encodedSize a + encodedSize b := by
  induction a with
  | nil => simp [encodedSize]
  | cons c a ih => simp [encodedSize, ih, Nat.add_assoc]

theorem encodedSize_concat {c : Char} (text : Text) (h : c.utf8Size = 1) :
    encodedSize (text ++ [c]) = encodedSize text + 1 := by
  simp [encodedSize, h]

theorem encodedSize_pos {text : Text} (h : text ≠ []) : 0 < encodedSize text := by
  obtain ⟨c, rest, rfl⟩ := List.exists_cons_of_ne_nil h
  exact Nat.add_pos_left c.utf8Size_pos _

@[simp] theorem length_bytes (text : Text) : (bytes text).length = encodedSize text := by
  induction text with
  | nil => rfl
  | cons c text ih => simpa [bytes, encodedSize] using ih

theorem sliceFrom?_cons (c : Char) (rest : Text) (position : Nat) :
    sliceFrom? (c.utf8Size + position) (c :: rest) = sliceFrom? position rest := by
  have hc := c.utf8Size_pos
  obtain ⟨n, hn⟩ : ∃ n, c.utf8Size + position = n + 1 :=
    ⟨c.utf8Size + position - 1, by omega⟩
  rw [hn, sliceFrom?, if_pos (by omega), show n + 1 - c.utf8Size = position by omega]

theorem sliceTo?_cons (c : Char) (rest : Text) (position : Nat) :
    sliceTo? (c.utf8Size + position) (c :: rest) = (sliceTo? position rest).map (c :: ·) := by
  have hc := c.utf8Size_pos
  obtain ⟨n, hn⟩ : ∃ n, c.utf8Size + position = n + 1 :=
    ⟨c.utf8Size + position - 1, by omega⟩
  rw [hn, sliceTo?, if_pos (by omega), show n + 1 - c.utf8Size = position by omega]

/-- A text can be cut where a part of it ends. -/
theorem sliceFrom?_append (a b : Text) : sliceFrom? (encodedSize a) (a ++ b) = some b := by
  induction a with
  | nil => cases b <;> rfl
  | cons c a ih => rw [encodedSize, List.cons_append, sliceFrom?_cons, ih]

theorem sliceTo?_append (a b : Text) : sliceTo? (encodedSize a) (a ++ b) = some a := by
  induction a with
  | nil => cases b <;> rfl
  | cons c a ih => rw [encodedSize, List.cons_append, sliceTo?_cons, ih, Option.map_some]

theorem slice?_append (a b c : Text) :
    slice? (encodedSize a) (encodedSize a + encodedSize b) (a ++ (b ++ c)) = some b := by
  rw [slice?, if_pos (Nat.le_add_right ..), sliceFrom?_append, Nat.add_sub_cancel_left]
  exact sliceTo?_append b c

/-- A text can be cut nowhere else. -/
theorem append_of_sliceFrom? {position : Nat} {text rest : Text}
    (h : sliceFrom? position text = some rest) :
    ∃ before, text = before ++ rest ∧ encodedSize before = position := by
  induction text generalizing position with
  | nil =>
    cases position with
    | zero => exact ⟨[], Option.some.inj h, rfl⟩
    | succ => cases h
  | cons c text ih =>
    cases position with
    | zero => exact ⟨[], Option.some.inj h, rfl⟩
    | succ position =>
      rw [sliceFrom?] at h
      split at h
      next hc =>
        obtain ⟨before, rfl, hp⟩ := ih h
        exact ⟨c :: before, rfl, by rw [encodedSize]; omega⟩
      next => cases h

theorem append_of_sliceTo? {position : Nat} {text before : Text}
    (h : sliceTo? position text = some before) :
    ∃ rest, text = before ++ rest ∧ encodedSize before = position := by
  induction text generalizing position before with
  | nil =>
    cases position with
    | zero =>
      cases Option.some.inj h
      exact ⟨[], rfl, rfl⟩
    | succ => cases h
  | cons c text ih =>
    cases position with
    | zero =>
      cases Option.some.inj h
      exact ⟨c :: text, rfl, rfl⟩
    | succ position =>
      rw [sliceTo?] at h
      split at h
      next hc =>
        obtain ⟨inner, hi, rfl⟩ := Option.map_eq_some_iff.mp h
        obtain ⟨rest, rfl, hp⟩ := ih hi
        exact ⟨rest, rfl, by rw [encodedSize]; omega⟩
      next => cases h

/-- Up to the first character with a property, or to the end, the text is its leading run of
characters without it. -/
theorem position?_getD (p : Char → Bool) (text : Text) :
    (position? p text).getD (encodedSize text) = encodedSize (text.takeWhile (!p ·)) := by
  induction text with
  | nil => rfl
  | cons c text ih =>
    cases hc : p c with
    | true => simp [position?, hc, encodedSize]
    | false =>
      rw [List.takeWhile_cons_of_pos (by simp [hc]), encodedSize, encodedSize, ← ih]
      cases h : position? p text <;> simp [position?, hc, h]

theorem positionOf?_eq (mark text : Text) :
    positionOf? mark text = (cut? mark text).map fun found => encodedSize found.1 := by
  induction text with
  | nil => cases mark <;> rfl
  | cons c text ih =>
    rw [positionOf?, cut?, ih]
    split
    next => rfl
    next => cases cut? mark text <;> rfl

theorem position?_char (c : Char) (text : Text) :
    position? (· == c) text = (cut? [c] text).map fun found => encodedSize found.1 := by
  induction text with
  | nil => rfl
  | cons d text ih =>
    rw [position?, cut?, ih]
    by_cases hd : d = c
    · simp [hd, List.isPrefixOf, encodedSize]
    · have hd' : ¬ c = d := fun he => hd he.symm
      simp only [beq_iff_eq, hd, if_false, List.isPrefixOf, hd', Bool.and_true]
      cases cut? [c] text <;> rfl

/-- A character of one byte is its byte; the first byte of all others is beyond them. -/
theorem utf8EncodeChar_eq (c : Char) :
    c.toNat < 128 ∧ String.utf8EncodeChar c = [UInt8.ofNat c.toNat] ∨
      128 ≤ c.toNat ∧
        ∃ first rest, String.utf8EncodeChar c = first :: rest ∧ 128 ≤ first.toNat := by
  have hv : c.val.toNat = c.toNat := rfl
  by_cases h : c.toNat < 128
  · refine .inl ⟨h, ?_⟩
    simp only [String.utf8EncodeChar, hv, if_pos (Nat.le_of_lt_succ h)]
  · refine .inr ⟨Nat.le_of_not_lt h, ?_⟩
    simp only [String.utf8EncodeChar, hv, if_neg (fun hl => h (Nat.lt_succ_of_le hl))]
    split
    next => exact ⟨_, _, rfl, by simp only [UInt8.toNat_ofNat']; omega⟩
    next =>
      split
      next => exact ⟨_, _, rfl, by simp only [UInt8.toNat_ofNat']; omega⟩
      next => exact ⟨_, _, rfl, by simp only [UInt8.toNat_ofNat']; omega⟩

/-- A test that only characters of one byte pass. -/
def OneByte (p : Char → Bool) : Prop :=
  ∀ c, p c = true → c.toNat < 128

/-- Such a test can be made on the first byte of a character, and is passed by no other byte. -/
theorem utf8EncodeChar_test (c : Char) :
    ∃ first others, String.utf8EncodeChar c = first :: others ∧
      ∀ p, OneByte p → p (Char.ofNat first.toNat) = p c ∧ (p c = true → others = []) := by
  rcases utf8EncodeChar_eq c with ⟨hc, he⟩ | ⟨hc, first, others, he, hf⟩
  · have small : c.toNat % 256 = c.toNat := Nat.mod_eq_of_lt (by omega)
    exact ⟨_, [], he, fun p _ => ⟨by simp [small], fun _ => rfl⟩⟩
  · refine ⟨first, others, he, fun p hp => ?_⟩
    have hb := first.toNat_lt
    have hd : (Char.ofNat first.toNat).toNat = first.toNat := by
      have valid : first.toNat.isValidChar := .inl (by omega)
      rw [Char.ofNat, dif_pos valid]
      rfl
    have large (x : Char) (hx : 128 ≤ x.toNat) : p x = false :=
      Bool.eq_false_iff.mpr fun ht => absurd (hp x ht) (Nat.not_lt.mpr hx)
    rw [large c hc, large _ (by rw [hd]; exact hf)]
    exact ⟨rfl, fun ht => absurd ht Bool.false_ne_true⟩

theorem byteAt?_append (before : Text) (c : Char) (rest : Text) :
    ∃ d, byteAt? (before ++ c :: rest) (encodedSize before) = some d ∧
      ∀ p, OneByte p → p d = p c := by
  obtain ⟨first, others, he, test⟩ := utf8EncodeChar_test c
  have split : bytes (before ++ c :: rest) = bytes before ++ (first :: (others ++ bytes rest)) := by
    simp [bytes, he]
  refine ⟨Char.ofNat first.toNat, ?_, fun p hp => (test p hp).1⟩
  rw [byteAt?, split, ← length_bytes, List.getElem?_append_right (Nat.le_refl _), Nat.sub_self]
  rfl

theorem byteAt?_end (text : Text) : byteAt? text (encodedSize text) = none := by
  simp [byteAt?]

end MarkupTemplate
