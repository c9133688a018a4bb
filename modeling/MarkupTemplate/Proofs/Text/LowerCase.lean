import MarkupTemplate.Text.LetterCase

namespace MarkupTemplate

namespace CaseRun

/-- Nothing that a run maps to is reached by the other: it lies before or behind it, or always
between two letters of it. -/
def isApart (run other : CaseRun) : Bool :=
  let low := (run.first + run.shift).toNat
  let high := (run.last + run.shift).toNat
  Nat.blt high other.first || (Nat.blt other.last low ||
    ((Nat.beq run.stride 2 || Nat.beq run.first run.last) && (Nat.beq other.stride 2 &&
      (Nat.blt 0 low && Nat.beq ((low + other.first) % 2) 1))))

theorem image?_eq_some {run : CaseRun} {code image : Nat} (h : run.image? code = some image) :
    run.first ≤ code ∧ code ≤ run.last ∧ (code - run.first) % run.stride = 0 ∧
      image = (code + run.shift).toNat := by
  rw [image?] at h
  split at h
  next reached => exact ⟨reached.1, reached.2.1, reached.2.2, (Option.some.inj h).symm⟩
  next => cases h

theorem image?_of_isApart {run other : CaseRun} (apart : run.isApart other = true)
    {code image : Nat} (h : run.image? code = some image) : other.image? image = none := by
  obtain ⟨hf, hl, hs, rfl⟩ := image?_eq_some h
  rw [image?, if_neg]
  rintro ⟨of, ol, os⟩
  simp only [isApart, Bool.or_eq_true, Bool.and_eq_true, Nat.beq_eq, Nat.blt_eq] at apart
  rcases apart with before | behind | ⟨step, two, pos, odd⟩
  · omega
  · omega
  · rw [two] at os
    have even : (code - run.first) % 2 = 0 := by
      rcases step with hstep | single
      · rwa [hstep] at hs
      · omega
    omega

theorem find?_of_isApart {run : CaseRun} {runs : List CaseRun}
    (apart : runs.all run.isApart = true) {code image : Nat} (h : run.image? code = some image) :
    find? runs image = none :=
  List.findSome?_eq_none_iff.mpr fun other ho =>
    image?_of_isApart (List.all_eq_true.mp apart other ho) h

theorem mem_of_find? {runs : List CaseRun} {code image : Nat} (h : find? runs code = some image) :
    ∃ run ∈ runs, run.image? code = some image :=
  List.exists_of_findSome?_eq_some h

/-- A range of code points that stay as they are. -/
def ofRange (first last : Nat) : CaseRun := ⟨first, last, 1, 0⟩

theorem image?_ofRange {first last code : Nat} (hf : first ≤ code) (hl : code ≤ last) :
    (ofRange first last).image? code = some code := by
  rw [image?, ofRange, if_pos ⟨hf, hl, Nat.mod_one _⟩]
  simp

end CaseRun

/-- The runs by which a letter beyond ASCII is lowered. -/
def letterRuns : List CaseRun :=
  lowerRuns ++ unfoldedRuns

/-- Code points without case to which no letter is lowered. Digits, blanks and the marks of a path
are among them. -/
def caselessRuns : List CaseRun :=
  [.ofRange 0 0x40, .ofRange 0x5B 0x60, .ofRange 0x7B 0xA0, .ofRange 0x1680 0x1680,
    .ofRange 0x2000 0x205F, .ofRange 0x3000 0x3000]

/-- The capitals that are lowered by no run, and the code points that are no characters. -/
def outsideRuns : List CaseRun :=
  [.ofRange 0x41 0x5A, .ofRange 0x130 0x130, .ofRange 0xD800 0xDFFF]

theorem letterRuns_apart :
    (letterRuns.all fun run => letterRuns.all run.isApart) = true := by
  decide +kernel

theorem letterRuns_apart_caseless :
    (letterRuns.all fun run => caselessRuns.all run.isApart) = true := by
  decide +kernel

theorem letterRuns_apart_outside :
    (letterRuns.all fun run => outsideRuns.all run.isApart) = true := by
  decide +kernel

theorem caselessRuns_apart :
    (caselessRuns.all fun run => letterRuns.all run.isApart) = true := by
  decide +kernel

/-- The images of a run are code points. -/
theorem letterRuns_bounded :
    (letterRuns.all fun run => Nat.blt (run.last + run.shift).toNat 0x110000) = true := by
  decide +kernel

/-- Nothing that a letter is lowered to is lowered again. -/
theorem find?_letterRuns_of_image {code image : Nat}
    (h : CaseRun.find? letterRuns code = some image) :
    CaseRun.find? letterRuns image = none := by
  obtain ⟨run, hr, hi⟩ := CaseRun.mem_of_find? h
  exact CaseRun.find?_of_isApart (List.all_eq_true.mp letterRuns_apart run hr) hi

theorem find?_caselessRuns_of_image {code image : Nat}
    (h : CaseRun.find? letterRuns code = some image) :
    CaseRun.find? caselessRuns image = none := by
  obtain ⟨run, hr, hi⟩ := CaseRun.mem_of_find? h
  exact CaseRun.find?_of_isApart (List.all_eq_true.mp letterRuns_apart_caseless run hr) hi

theorem find?_outsideRuns_of_image {code image : Nat}
    (h : CaseRun.find? letterRuns code = some image) :
    CaseRun.find? outsideRuns image = none := by
  obtain ⟨run, hr, hi⟩ := CaseRun.mem_of_find? h
  exact CaseRun.find?_of_isApart (List.all_eq_true.mp letterRuns_apart_outside run hr) hi

/-- A code point that no run of `runs` reaches is in no range of them. -/
theorem notMem_of_find?_eq_none {runs : List CaseRun} {first last code : Nat}
    (h : CaseRun.find? runs code = none) (hm : CaseRun.ofRange first last ∈ runs) :
    code < first ∨ last < code := by
  rcases Nat.lt_or_ge code first with before | hf
  · exact .inl before
  rcases Nat.lt_or_ge last code with behind | hl
  · exact .inr behind
  have missed := List.findSome?_eq_none_iff.mp h _ hm
  rw [CaseRun.image?_ofRange hf hl] at missed
  cases missed

theorem isValidChar_of_image {code image : Nat} (h : CaseRun.find? letterRuns code = some image) :
    image.isValidChar := by
  have below : image < 0x110000 := by
    obtain ⟨run, hr, hi⟩ := CaseRun.mem_of_find? h
    obtain ⟨-, hl, -, rfl⟩ := CaseRun.image?_eq_some hi
    have := Nat.blt_eq.mp (List.all_eq_true.mp letterRuns_bounded run hr)
    omega
  rcases notMem_of_find?_eq_none (find?_outsideRuns_of_image h)
    (show CaseRun.ofRange 0xD800 0xDFFF ∈ outsideRuns by simp [outsideRuns]) with hs | hs
  · exact .inl hs
  · exact .inr ⟨hs, below⟩

theorem toNat_ofNat_of_image {code image : Nat} (h : CaseRun.find? letterRuns code = some image) :
    (Char.ofNat image).toNat = image := by
  rw [Char.ofNat, dif_pos (isValidChar_of_image h)]
  rfl

/-- The character is in lower case wherever it stands. -/
def IsLower (c : Char) : Prop :=
  c ≠ 'Σ' ∧ lowerChar c = [c]

instance (c : Char) : Decidable (IsLower c) :=
  inferInstanceAs (Decidable (_ ∧ _))

theorem lowerChar_ascii {c : Char} (h : c.toNat < 128) : lowerChar c = [c.toLower] := by
  rw [lowerChar, if_pos h]

/-- A character beyond ASCII has the lower-case form of its run, if there is one. -/
theorem lowerChar_letter {c : Char} (h : ¬c.toNat < 128) (hi : c ≠ 'İ') :
    lowerChar c = [((CaseRun.find? letterRuns c.toNat).map Char.ofNat).getD c] := by
  have same : (CaseRun.find? lowerRuns c.toNat <|> CaseRun.find? unfoldedRuns c.toNat) =
      CaseRun.find? letterRuns c.toNat := by
    simp [CaseRun.find?, letterRuns, List.findSome?_append]
  rw [lowerChar, if_neg h, if_neg (by simpa using hi), same]
  cases CaseRun.find? letterRuns c.toNat <;> rfl

/-- What holds of the first 128 characters holds of all characters of ASCII. -/
theorem forall_ascii {p : Char → Prop} (h : ∀ code < 128, p (Char.ofNat code)) {c : Char}
    (hc : c.toNat < 128) : p c :=
  c.ofNat_toNat ▸ h c.toNat hc

/-- A character without case, to which no letter is lowered either. -/
def isCaseless (c : Char) : Bool :=
  (CaseRun.find? caselessRuns c.toNat).isSome

theorem isCaseless_of_mem {first last : Nat} (hm : CaseRun.ofRange first last ∈ caselessRuns)
    {c : Char} (hf : first ≤ c.toNat) (hl : c.toNat ≤ last) : isCaseless c = true := by
  rw [isCaseless, CaseRun.find?, List.findSome?_isSome_iff]
  exact ⟨_, hm, by rw [CaseRun.image?_ofRange hf hl]; rfl⟩

/-- A character is lowered to lower case, and to one without case only if it is that one. -/
def LowersTo (c d : Char) : Prop :=
  IsLower d ∧ (isCaseless d = true → d = c)

theorem lowersTo_ascii {c : Char} (h : c.toNat < 128) : LowersTo c c.toLower := by
  refine forall_ascii (p := fun c => LowersTo c c.toLower) ?_ h
  unfold LowersTo
  decide +kernel

theorem toLower_of_image {c : Char} (h : c.toNat < 128)
    (hi : CaseRun.find? outsideRuns c.toNat = none) : c.toLower = c := by
  have capitals := notMem_of_find?_eq_none hi
    (show CaseRun.ofRange 0x41 0x5A ∈ outsideRuns by simp [outsideRuns])
  refine forall_ascii (p := fun c => (c.toNat < 0x41 ∨ 0x5A < c.toNat) → c.toLower = c) ?_ h
    capitals
  decide +kernel

theorem isLower_image {code image : Nat} (h : CaseRun.find? letterRuns code = some image) :
    IsLower (Char.ofNat image) := by
  have number := toNat_ofNat_of_image h
  have settled := find?_letterRuns_of_image h
  have outside := find?_outsideRuns_of_image h
  constructor
  · intro hs
    have sigma : image = 'Σ'.toNat := by rw [← number, hs]
    rw [sigma] at settled
    exact absurd settled (by decide +kernel)
  · by_cases ha : (Char.ofNat image).toNat < 128
    · rw [lowerChar_ascii ha, toLower_of_image ha (by rw [number, outside])]
    · have dotted : Char.ofNat image ≠ 'İ' := by
        intro hi
        have code := notMem_of_find?_eq_none outside
          (show CaseRun.ofRange 0x130 0x130 ∈ outsideRuns by simp [outsideRuns])
        rw [← number, hi] at code
        exact absurd code (by decide)
      rw [lowerChar_letter ha dotted, number, settled]
      rfl

theorem lowersTo_image {c : Char} {image : Nat}
    (h : CaseRun.find? letterRuns c.toNat = some image) : LowersTo c (Char.ofNat image) := by
  refine ⟨isLower_image h, fun hc => ?_⟩
  rw [isCaseless, toNat_ofNat_of_image h, find?_caselessRuns_of_image h] at hc
  cases hc

theorem lowersTo_of_mem {c d : Char} (hc : c ≠ 'Σ') (h : d ∈ lowerChar c) : LowersTo c d := by
  by_cases ha : c.toNat < 128
  · rw [lowerChar_ascii ha, List.mem_singleton] at h
    rw [h]
    exact lowersTo_ascii ha
  by_cases hi : c = 'İ'
  · subst hi
    have forms : ((lowerChar 'İ').all fun d => IsLower d ∧ isCaseless d = false) = true := by
      decide +kernel
    obtain ⟨lower, caseless⟩ := of_decide_eq_true (List.all_eq_true.mp forms d h)
    exact ⟨lower, fun hd => by rw [caseless] at hd; cases hd⟩
  · rw [lowerChar_letter ha hi, List.mem_singleton] at h
    cases hf : CaseRun.find? letterRuns c.toNat with
    | some image =>
      rw [h, hf]
      exact lowersTo_image hf
    | none =>
      have same : d = c := by rw [h, hf]; rfl
      rw [same]
      refine ⟨⟨hc, ?_⟩, fun _ => rfl⟩
      rw [lowerChar_letter ha hi, hf]
      rfl

theorem find?_letterRuns_of_isCaseless {c : Char} (h : isCaseless c = true) :
    CaseRun.find? letterRuns c.toNat = none := by
  obtain ⟨image, hi⟩ := Option.isSome_iff_exists.mp h
  obtain ⟨run, hr, hi⟩ := CaseRun.mem_of_find? hi
  have same : image = c.toNat := by
    have unmoved : ∀ run ∈ caselessRuns, run.shift = 0 := by decide
    rw [(CaseRun.image?_eq_some hi).2.2.2, unmoved run hr]
    simp
  rw [same] at hi
  exact CaseRun.find?_of_isApart (List.all_eq_true.mp caselessRuns_apart run hr) hi

theorem isLower_of_isCaseless {c : Char} (h : isCaseless c = true) : IsLower c := by
  by_cases ha : c.toNat < 128
  · refine forall_ascii (p := fun c => isCaseless c = true → IsLower c) ?_ ha h
    decide +kernel
  · have dotted : c ≠ 'İ' := by rintro rfl; exact absurd h (by decide)
    refine ⟨by rintro rfl; exact absurd h (by decide), ?_⟩
    rw [lowerChar_letter ha dotted, find?_letterRuns_of_isCaseless h]
    rfl

/-- A sigma with these texts around it, the one before it nearest first, ends a word. -/
def isWordEnd (before after : Text) : Bool :=
  startsCased before && !startsCased after

/-- The lower-case form of a character between what stands before it, nearest first, and what
follows. -/
def lowerAt (before : Text) (c : Char) (after : Text) : Text :=
  if c = 'Σ' then [if isWordEnd before after then 'ς' else 'σ'] else lowerChar c

theorem lowerAfter_cons (before : Text) (c : Char) (rest : Text) :
    lowerAfter before (c :: rest) = lowerAt before c rest ++ lowerAfter (c :: before) rest := by
  by_cases hc : c = 'Σ'
  · subst hc
    rfl
  · rw [lowerAfter, lowerAt, if_neg hc]
    exact hc

theorem lowersTo_of_mem_lowerAt {before after : Text} {c d : Char}
    (h : d ∈ lowerAt before c after) : LowersTo c d := by
  rw [lowerAt] at h
  split at h
  next hc =>
    have sigmas : (['ς', 'σ'].all fun d => IsLower d ∧ isCaseless d = false) = true := by
      decide +kernel
    have hd : d ∈ ['ς', 'σ'] := by
      rw [List.mem_singleton.mp h]
      split <;> simp
    obtain ⟨lower, caseless⟩ := of_decide_eq_true (List.all_eq_true.mp sigmas d hd)
    exact ⟨lower, fun hc => by rw [caseless] at hc; cases hc⟩
  next hc => exact lowersTo_of_mem hc h

theorem lowerAt_of_isLower {c : Char} (h : IsLower c) (before after : Text) :
    lowerAt before c after = [c] := by
  rw [lowerAt, if_neg h.1, h.2]

theorem lowerAt_ne_nil (before : Text) (c : Char) (after : Text) : lowerAt before c after ≠ [] := by
  rw [lowerAt]
  split
  next => exact List.cons_ne_nil _ _
  next =>
    by_cases ha : c.toNat < 128
    · rw [lowerChar_ascii ha]
      exact List.cons_ne_nil _ _
    by_cases hi : c = 'İ'
    · subst hi
      decide
    · rw [lowerChar_letter ha hi]
      exact List.cons_ne_nil _ _

theorem isLower_of_mem_lowerAfter {before text : Text} {d : Char}
    (h : d ∈ lowerAfter before text) : IsLower d := by
  induction text generalizing before with
  | nil => cases h
  | cons c rest ih =>
    rw [lowerAfter_cons] at h
    rcases List.mem_append.mp h with h | h
    · exact (lowersTo_of_mem_lowerAt h).1
    · exact ih h

theorem lowerAfter_of_isLower {before text : Text} (h : ∀ c ∈ text, IsLower c) :
    lowerAfter before text = text := by
  induction text generalizing before with
  | nil => rfl
  | cons c rest ih =>
    obtain ⟨hc, hr⟩ := List.forall_mem_cons.mp h
    rw [lowerAfter_cons, lowerAt_of_isLower hc, ih hr]
    rfl

/-- Lower-casing a text once more changes nothing. -/
@[simp] theorem lowerText_lowerText (text : Text) : lowerText (lowerText text) = lowerText text :=
  lowerAfter_of_isLower fun _ h => isLower_of_mem_lowerAfter h

end MarkupTemplate
