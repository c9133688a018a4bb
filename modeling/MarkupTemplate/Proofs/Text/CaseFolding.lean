import MarkupTemplate.Proofs.Text.LowerCase
import MarkupTemplate.Template.Placeholder

namespace MarkupTemplate

/-- The letter is lowered to one letter that folds as it does. This is not so of the capital I with
a dot, which is lowered to two characters, and of the letters that case folding leaves alone. -/
def FoldsLowered (c : Char) : Prop :=
  c ≠ 'İ' ∧ CaseRun.find? unfoldedRuns c.toNat = none

instance (c : Char) : Decidable (FoldsLowered c) :=
  inferInstanceAs (Decidable (_ ∧ _))

/-- The run covers no letters but those that fold to their capitals. -/
def CaseRun.foldsUp (run : CaseRun) : Bool :=
  Nat.ble 0x13A0 run.first && Nat.ble run.last 0x13F5

/-- The code points that a run takes its images from, each as its own image. -/
def CaseRun.sources (run : CaseRun) : CaseRun :=
  { run with shift := 0 }

theorem CaseRun.image?_sources {run : CaseRun} {code image : Nat}
    (h : run.image? code = some image) : run.sources.image? code = some code := by
  obtain ⟨hf, hl, hs, -⟩ := image?_eq_some h
  rw [image?, sources, if_pos ⟨hf, hl, hs⟩]
  simp

theorem lowerRuns_apart_fold :
    (lowerRuns.all fun run => run.foldsUp ||
      (foldRuns.all run.isApart && foldRuns.all run.sources.isApart)) = true := by
  decide +kernel

theorem foldRuns_apart_braces :
    (foldRuns.all fun run => run.isApart (.ofRange 0x7B 0x7D)) = true := by
  decide +kernel

theorem find?_letterRuns_of_lower {code image : Nat}
    (h : CaseRun.find? lowerRuns code = some image) :
    CaseRun.find? letterRuns code = some image := by
  rw [CaseRun.find?] at h
  rw [CaseRun.find?, letterRuns, List.findSome?_append, h]
  rfl

theorem find?_lowerRuns_of_letter {code : Nat} (h : CaseRun.find? letterRuns code = none) :
    CaseRun.find? lowerRuns code = none := by
  rw [CaseRun.find?, letterRuns, List.findSome?_append, Option.or_eq_none_iff] at h
  exact h.1

theorem foldChar_ascii {c : Char} (h : c.toNat < 128) : foldChar c = c.toLower := by
  rw [foldChar, if_pos h]

theorem foldChar_letter {c : Char} (h : ¬ c.toNat < 128)
    (apart : CaseRun.find? foldRuns c.toNat = none) :
    foldChar c = ((CaseRun.find? lowerRuns c.toNat).map Char.ofNat).getD c := by
  rw [foldChar, if_neg h, apart]
  cases CaseRun.find? lowerRuns c.toNat <;> rfl

/-- The letters of the runs set apart fold to the same capitals as their lower-case forms. -/
theorem foldChar_capitals : ∀ k < 86,
    ((CaseRun.find? lowerRuns (0x13A0 + k)).all fun image =>
      decide (foldChar (Char.ofNat image) = foldChar (Char.ofNat (0x13A0 + k)))) = true := by
  decide +kernel

/-- A letter that is lowered by a run folds as its lower-case form does. -/
theorem foldChar_image {c : Char} {image : Nat} (h : ¬ c.toNat < 128)
    (hi : CaseRun.find? lowerRuns c.toNat = some image) :
    foldChar (Char.ofNat image) = foldChar c := by
  obtain ⟨run, hr, himage⟩ := CaseRun.mem_of_find? hi
  have letter := find?_letterRuns_of_lower hi
  have number := toNat_ofNat_of_image letter
  rcases Bool.or_eq_true_iff.mp (List.all_eq_true.mp lowerRuns_apart_fold run hr) with up | apart
  · obtain ⟨hf, hl, -, -⟩ := CaseRun.image?_eq_some himage
    simp only [CaseRun.foldsUp, Bool.and_eq_true, Nat.ble_eq] at up
    obtain ⟨k, hk⟩ := Nat.exists_eq_add_of_le (show 0x13A0 ≤ c.toNat by omega)
    have folds := foldChar_capitals k (by omega)
    rw [← hk, hi, c.ofNat_toNat] at folds
    exact of_decide_eq_true folds
  · obtain ⟨images, sources⟩ := Bool.and_eq_true_iff.mp apart
    have hfold : foldChar c = Char.ofNat image := by
      rw [foldChar_letter h (CaseRun.find?_of_isApart sources (CaseRun.image?_sources himage)), hi]
      rfl
    rw [hfold]
    by_cases ha : (Char.ofNat image).toNat < 128
    · rw [foldChar_ascii ha, toLower_of_image ha (by
        rw [number]
        exact find?_outsideRuns_of_image letter)]
    · have settled := find?_lowerRuns_of_letter (find?_letterRuns_of_image letter)
      rw [foldChar_letter ha (by
        rw [number]
        exact CaseRun.find?_of_isApart images himage), number, settled]
      rfl

theorem foldChar_toLower (c : Char) : foldChar c.toLower = foldChar c := by
  by_cases ha : c.toNat < 128
  · refine forall_ascii (p := fun c => foldChar c.toLower = foldChar c) ?_ ha
    decide +kernel
  · have kept : c.toLower = c := by
      unfold Char.toLower
      split
      next h =>
        have upper : c.toNat ≤ 90 := UInt32.le_iff_toNat_le.mp h.2
        omega
      next => rfl
    rw [kept]

theorem map_foldChar_lowerChar {c : Char} (h : FoldsLowered c) :
    (lowerChar c).map foldChar = [foldChar c] := by
  by_cases ha : c.toNat < 128
  · rw [lowerChar_ascii ha, List.map_singleton, foldChar_toLower]
  · have reached : CaseRun.find? letterRuns c.toNat = CaseRun.find? lowerRuns c.toNat := by
      rw [CaseRun.find?, letterRuns, List.findSome?_append, ← CaseRun.find?, ← CaseRun.find?, h.2,
        Option.or_none]
    rw [lowerChar_letter ha h.1, reached]
    cases hi : CaseRun.find? lowerRuns c.toNat with
    | none => rfl
    | some image => exact congrArg ([·]) (foldChar_image ha hi)

/-- A letter that case folding leaves alone does not fold as its lower-case form does. -/
theorem unfoldedRuns_apart_fold :
    (unfoldedRuns.all fun run => (List.range (run.last - run.first + 1)).all fun k =>
      (run.image? (run.first + k)).isNone ||
        decide ((lowerChar (Char.ofNat (run.first + k))).map foldChar ≠
          [foldChar (Char.ofNat (run.first + k))])) = true := by
  decide +kernel

theorem foldsLowered_of_map {c : Char} (h : (lowerChar c).map foldChar = [foldChar c]) :
    FoldsLowered c := by
  refine ⟨?_, Option.eq_none_iff_forall_ne_some.mpr fun image hi => ?_⟩
  · rintro rfl
    exact absurd h (by decide +kernel)
  · obtain ⟨run, hr, himage⟩ := CaseRun.mem_of_find? hi
    obtain ⟨hf, hl, -, -⟩ := CaseRun.image?_eq_some himage
    obtain ⟨k, hk⟩ := Nat.exists_eq_add_of_le hf
    have checked := List.all_eq_true.mp (List.all_eq_true.mp unfoldedRuns_apart_fold run hr) k
      (List.mem_range.mpr (by omega))
    rw [← hk, himage, c.ofNat_toNat] at checked
    exact of_decide_eq_true checked h

/-- Between any neighbours a letter is lowered to one that folds as it does, or it is one of those
whose lower-case form folds otherwise. -/
theorem map_foldChar_lowerAt_iff {before after : Text} {c : Char} :
    (lowerAt before c after).map foldChar = [foldChar c] ↔ FoldsLowered c := by
  by_cases hc : c = 'Σ'
  · subst hc
    have both : FoldsLowered 'Σ' ∧ foldChar 'ς' = foldChar 'Σ' ∧ foldChar 'σ' = foldChar 'Σ' := by
      decide +kernel
    obtain ⟨folds, final, inner⟩ := both
    refine iff_of_true ?_ folds
    rw [lowerAt, if_pos rfl, List.map_singleton]
    split
    next => rw [final]
    next => rw [inner]
  · rw [lowerAt, if_neg hc]
    exact ⟨foldsLowered_of_map, map_foldChar_lowerChar⟩

theorem length_le_lowerAfter (before text : Text) :
    text.length ≤ (lowerAfter before text).length := by
  induction text generalizing before with
  | nil => exact Nat.zero_le _
  | cons c rest ih =>
    have first := List.length_pos_iff.mpr (lowerAt_ne_nil before c rest)
    have others := ih (c :: before)
    rw [lowerAfter_cons, List.length_append, List.length_cons]
    omega

theorem map_foldChar_lowerAfter_iff {before text : Text} :
    (lowerAfter before text).map foldChar = text.map foldChar ↔ ∀ c ∈ text, FoldsLowered c := by
  induction text generalizing before with
  | nil => simp [lowerAfter]
  | cons c rest ih =>
    rw [lowerAfter_cons, List.map_append, List.forall_mem_cons,
      ← @map_foldChar_lowerAt_iff before rest c, ← @ih (c :: before)]
    constructor
    · intro h
      replace h : (lowerAt before c rest).map foldChar ++
          (lowerAfter (c :: before) rest).map foldChar = [foldChar c] ++ rest.map foldChar := h
      -- each letter gives at least one, so that all give exactly one
      have total := congrArg List.length h
      have first := List.length_pos_iff.mpr (lowerAt_ne_nil before c rest)
      have others := length_le_lowerAfter (c :: before) rest
      simp only [List.length_append, List.length_map, List.length_singleton] at total
      exact List.append_inj h (by rw [List.length_map, List.length_singleton]; omega)
    · rintro ⟨first, others⟩
      rw [first, others]
      rfl

/-- A text in lower case folds as the text does exactly if all its letters do. -/
theorem sameFold_lowerText_iff (text : Text) :
    sameFold text (lowerText text) = true ↔ ∀ c ∈ text, FoldsLowered c := by
  rw [sameFold, beq_iff_eq, eq_comm]
  exact map_foldChar_lowerAfter_iff

/-- Texts that differ in the case of ASCII letters only are the same up to case. -/
theorem sameFold_of_lowerAscii {a b : Text} (h : lowerAscii a = lowerAscii b) :
    sameFold a b = true := by
  have folded (text : Text) : (lowerAscii text).map foldChar = text.map foldChar := by
    rw [lowerAscii, List.map_map]
    exact List.map_congr_left fun c _ => foldChar_toLower c
  rw [sameFold, beq_iff_eq, ← folded a, ← folded b, h]

theorem notBrace_ofNat {code : Nat} (h : code < 0x7B ∨ 0x7D < code) :
    notBrace (Char.ofNat code) = true := by
  have number : (Char.ofNat code).toNat = code ∨ (Char.ofNat code).toNat = 0 := by
    by_cases valid : code.isValidChar
    · rw [Char.ofNat, dif_pos valid]
      exact .inl rfl
    · rw [Char.ofNat, dif_neg valid]
      exact .inr rfl
  have opening : Char.ofNat code ≠ '{' := by
    intro he
    rw [he] at number
    have : '{'.toNat = 0x7B := rfl
    omega
  have closing : Char.ofNat code ≠ '}' := by
    intro he
    rw [he] at number
    have : '}'.toNat = 0x7D := rfl
    omega
  simp [notBrace, opening, closing]

theorem foldChar_letter_cases {c : Char} (h : ¬ c.toNat < 128) :
    foldChar c = c ∨ ∃ image, foldChar c = Char.ofNat image ∧
      (CaseRun.find? foldRuns c.toNat = some image ∨
        CaseRun.find? lowerRuns c.toNat = some image) := by
  rw [foldChar, if_neg h]
  split
  next image hi => exact .inr ⟨image, rfl, .inl hi⟩
  next =>
    split
    next image hi => exact .inr ⟨image, rfl, .inr hi⟩
    next => exact .inl rfl

/-- Only a brace folds to a brace. -/
theorem notBrace_foldChar (c : Char) : notBrace (foldChar c) = notBrace c := by
  by_cases ha : c.toNat < 128
  · refine forall_ascii (p := fun c => notBrace (foldChar c) = notBrace c) ?_ ha
    decide +kernel
  · have letter : notBrace c = true := by
      rw [← c.ofNat_toNat]
      exact notBrace_ofNat (by omega)
    rw [letter]
    rcases foldChar_letter_cases ha with same | ⟨image, hf, hi | hi⟩
    · rw [same, letter]
    · rw [hf]
      obtain ⟨run, hr, himage⟩ := CaseRun.mem_of_find? hi
      have apart := CaseRun.image?_of_isApart (List.all_eq_true.mp foldRuns_apart_braces run hr)
        himage
      refine notBrace_ofNat ?_
      by_cases hb : 0x7B ≤ image ∧ image ≤ 0x7D
      · rw [CaseRun.image?_ofRange hb.1 hb.2] at apart
        cases apart
      · omega
    · rw [hf]
      refine notBrace_ofNat ?_
      have apart := notMem_of_find?_eq_none
        (find?_caselessRuns_of_image (find?_letterRuns_of_lower hi))
        (show CaseRun.ofRange 0x7B 0xA0 ∈ caselessRuns by simp [caselessRuns])
      omega

theorem notBrace_of_sameFold {a b : Text} (h : sameFold a b = true)
    (hb : ∀ c ∈ b, notBrace c = true) : ∀ c ∈ a, notBrace c = true := by
  intro c hc
  have folded : foldChar c ∈ b.map foldChar := by
    rw [← beq_iff_eq.mp h]
    exact List.mem_map_of_mem hc
  obtain ⟨d, hd, he⟩ := List.mem_map.mp folded
  rw [← notBrace_foldChar, ← he, notBrace_foldChar]
  exact hb d hd

theorem length_of_sameFold {a b : Text} (h : sameFold a b = true) : a.length = b.length := by
  simpa using congrArg List.length (beq_iff_eq.mp h)

end MarkupTemplate
