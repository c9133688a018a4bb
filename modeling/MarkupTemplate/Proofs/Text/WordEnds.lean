import MarkupTemplate.Proofs.Text.LowerCase

namespace MarkupTemplate

/-- The lower-case form of a text between what stands before it, nearest first, and what follows. -/
def lowerIn (before : Text) : Text → Text → Text
  | [], _ => []
  | c :: rest, after => lowerAt before c (rest ++ after) ++ lowerIn (c :: before) rest after

theorem lowerText_eq_lowerIn (text : Text) : lowerText text = lowerIn [] text [] := by
  suffices same : ∀ before, lowerAfter before text = lowerIn before text [] from same []
  induction text with
  | nil => exact fun _ => rfl
  | cons c rest ih => exact fun before => by rw [lowerAfter_cons, lowerIn, ih, List.append_nil]

theorem lowerIn_append (before a b after : Text) :
    lowerIn before (a ++ b) after =
      lowerIn before a (b ++ after) ++ lowerIn (a.reverse ++ before) b after := by
  induction a generalizing before with
  | nil => rfl
  | cons c a ih => simp [lowerIn, ih]

theorem lowersTo_of_mem_lowerIn {before text after : Text} {d : Char}
    (h : d ∈ lowerIn before text after) : ∃ c ∈ text, LowersTo c d := by
  induction text generalizing before with
  | nil => cases h
  | cons c rest ih =>
    rcases List.mem_append.mp h with h | h
    · exact ⟨c, List.mem_cons_self, lowersTo_of_mem_lowerAt h⟩
    · obtain ⟨e, he, hd⟩ := ih h
      exact ⟨e, List.mem_cons_of_mem _ he, hd⟩

theorem isLower_of_mem_lowerIn {before text after : Text} {d : Char}
    (h : d ∈ lowerIn before text after) : IsLower d := by
  obtain ⟨_, _, hd⟩ := lowersTo_of_mem_lowerIn h
  exact hd.1

theorem lowerIn_eq_nil_iff {before text after : Text} :
    lowerIn before text after = [] ↔ text = [] := by
  cases text with
  | nil => exact iff_of_true rfl rfl
  | cons c rest =>
    exact iff_of_false (List.append_ne_nil_of_left_ne_nil (lowerAt_ne_nil _ _ _) _)
      (List.cons_ne_nil c rest)

theorem lowerIn_cons_caseless {c : Char} (h : isCaseless c = true) (before rest after : Text) :
    lowerIn before (c :: rest) after = c :: lowerIn (c :: before) rest after := by
  rw [lowerIn, lowerAt_of_isLower (isLower_of_isCaseless h)]
  rfl

theorem lowerIn_of_caseless {text : Text} (h : ∀ c ∈ text, isCaseless c = true)
    (before after : Text) : lowerIn before text after = text := by
  induction text generalizing before with
  | nil => rfl
  | cons c rest ih =>
    obtain ⟨hc, hr⟩ := List.forall_mem_cons.mp h
    rw [lowerIn_cons_caseless hc, ih hr]

/-- A character without case comes from nothing but itself. -/
theorem lowerIn_eq_append_cons {before text after x y : Text} {d : Char}
    (hd : isCaseless d = true) (h : lowerIn before text after = x ++ d :: y) :
    ∃ a b, text = a ++ d :: b ∧ lowerIn before a (d :: b ++ after) = x ∧
      lowerIn (d :: (a.reverse ++ before)) b after = y := by
  induction text generalizing before x with
  | nil => exact absurd h.symm (List.append_ne_nil_of_right_ne_nil x (List.cons_ne_nil d y))
  | cons c rest ih =>
    by_cases mark : d ∈ lowerAt before c (rest ++ after)
    · obtain rfl := (lowersTo_of_mem_lowerAt mark).2 hd
      rw [lowerIn_cons_caseless hd] at h
      cases x with
      | nil => exact ⟨[], rest, rfl, rfl, (List.cons.inj h).2⟩
      | cons e x =>
        obtain ⟨rfl, later⟩ := List.cons.inj h
        obtain ⟨a, b, rfl, hx, hy⟩ := ih later
        refine ⟨d :: a, b, rfl, ?_, by simpa using hy⟩
        rw [lowerIn_cons_caseless hd, hx]
    · rw [lowerIn] at h
      rcases List.append_eq_append_iff.mp h with ⟨x, rfl, later⟩ | ⟨z, hz, later⟩
      · obtain ⟨a, b, rfl, rfl, hy⟩ := ih later
        refine ⟨c :: a, b, rfl, ?_, by simpa using hy⟩
        rw [lowerIn, List.append_assoc]
      · cases z with
        | nil =>
          obtain ⟨a, b, rfl, hx, hy⟩ := ih (x := []) later.symm
          refine ⟨c :: a, b, rfl, ?_, by simpa using hy⟩
          rw [lowerIn, hx, ← List.append_assoc, hz, List.append_nil, List.append_nil]
        | cons e z =>
          obtain ⟨rfl, -⟩ := List.cons.inj later
          exact absurd (by rw [hz]; simp) mark

theorem lowerIn_eq_cons {before text after y : Text} {d : Char} (hd : isCaseless d = true)
    (h : lowerIn before text after = d :: y) :
    ∃ b, text = d :: b ∧ lowerIn (d :: before) b after = y := by
  obtain ⟨a, b, rfl, ha, hy⟩ := lowerIn_eq_append_cons (x := []) hd h
  obtain rfl := lowerIn_eq_nil_iff.mp ha
  exact ⟨b, rfl, hy⟩

/-- In front of a character without case, or of nothing, a text is lowered apart. -/
theorem lowerIn_eq_append {before text after x y : Text}
    (hy : ∀ d ∈ y.head?, isCaseless d = true) (h : lowerIn before text after = x ++ y) :
    ∃ a b, text = a ++ b ∧ lowerIn before a (b ++ after) = x ∧
      lowerIn (a.reverse ++ before) b after = y := by
  cases y with
  | nil => exact ⟨text, [], (List.append_nil text).symm, h.trans (List.append_nil x), rfl⟩
  | cons d y =>
    have caseless := hy d rfl
    obtain ⟨a, b, rfl, hx, rfl⟩ := lowerIn_eq_append_cons caseless h
    exact ⟨a, d :: b, rfl, hx, lowerIn_cons_caseless caseless ..⟩

theorem mem_lowerIn_iff {before text after : Text} {d : Char} (hd : isCaseless d = true) :
    d ∈ lowerIn before text after ↔ d ∈ text := by
  constructor
  · intro h
    obtain ⟨x, y, h⟩ := List.append_of_mem h
    obtain ⟨a, b, rfl, -⟩ := lowerIn_eq_append_cons hd h
    exact List.mem_append_right a List.mem_cons_self
  · intro h
    obtain ⟨a, b, rfl⟩ := List.append_of_mem h
    rw [lowerIn_append, lowerIn_cons_caseless hd]
    exact List.mem_append_right _ List.mem_cons_self

/-- A text that is lowered to characters without case was made of them. -/
theorem lowerIn_eq_self {before text after : Text}
    (h : ∀ d ∈ lowerIn before text after, isCaseless d = true) :
    lowerIn before text after = text := by
  refine lowerIn_of_caseless (fun c hc => ?_) before after
  obtain ⟨a, b, rfl⟩ := List.append_of_mem hc
  obtain ⟨d, rest, hd⟩ := List.exists_cons_of_ne_nil
    (lowerAt_ne_nil (a.reverse ++ before) c (b ++ after))
  have inside : d ∈ lowerAt (a.reverse ++ before) c (b ++ after) := by
    rw [hd]
    exact List.mem_cons_self
  have caseless : isCaseless d = true := by
    refine h d ?_
    rw [lowerIn_append, lowerIn]
    exact List.mem_append_right _ (List.mem_append_left _ inside)
  rwa [(lowersTo_of_mem_lowerAt inside).2 caseless] at caseless

/-- Every sigma of the text that stands between `before`, nearest first, and `after` ends a word
there exactly if it ends one in the text alone. -/
def KeepsSigmas (before text after : Text) : Prop :=
  ∀ a b, text = a ++ 'Σ' :: b →
    isWordEnd (a.reverse ++ before) (b ++ after) = isWordEnd a.reverse b

theorem length_lowerAt (before after other later : Text) (c : Char) :
    (lowerAt before c after).length = (lowerAt other c later).length := by
  by_cases hc : c = 'Σ' <;> simp [lowerAt, hc]

theorem lowerAt_eq_iff {before after other later : Text} {c : Char} :
    lowerAt before c after = lowerAt other c later ↔
      (c = 'Σ' → isWordEnd before after = isWordEnd other later) := by
  by_cases hc : c = 'Σ'
  · simp only [lowerAt, hc, if_true, forall_const]
    cases isWordEnd before after <;> cases isWordEnd other later <;> decide
  · simp [lowerAt, hc]

/-- A text is lowered in its place as it is alone exactly if this is so of its sigmas. -/
theorem lowerIn_eq_lowerText_iff {before text after : Text} :
    lowerIn before text after = lowerText text ↔ KeepsSigmas before text after := by
  -- the part of the text that has been passed stands before the sigma on both sides
  suffices general : ∀ passed, lowerIn (passed ++ before) text after = lowerIn passed text [] ↔
      ∀ a b, text = a ++ 'Σ' :: b → isWordEnd (a.reverse ++ (passed ++ before)) (b ++ after) =
        isWordEnd (a.reverse ++ passed) b by
    rw [lowerText_eq_lowerIn, KeepsSigmas]
    simpa using general []
  induction text with
  | nil => exact fun passed => iff_of_true rfl fun a b he => by simp at he
  | cons c rest ih =>
    intro passed
    have later := ih (c :: passed)
    rw [List.cons_append] at later
    have parts : lowerIn (passed ++ before) (c :: rest) after = lowerIn passed (c :: rest) [] ↔
        lowerAt (passed ++ before) c (rest ++ after) = lowerAt passed c rest ∧
          lowerIn (c :: (passed ++ before)) rest after = lowerIn (c :: passed) rest [] := by
      rw [lowerIn, lowerIn, List.append_nil]
      exact ⟨fun he => List.append_inj he (length_lowerAt ..), fun he => by rw [he.1, he.2]⟩
    rw [parts, lowerAt_eq_iff, later]
    constructor
    · rintro ⟨first, others⟩ a b he
      cases a with
      | nil =>
        obtain ⟨hc, rfl⟩ := List.cons.inj he
        exact first hc
      | cons d a =>
        obtain ⟨rfl, hr⟩ := List.cons.inj he
        simpa using others a b hr
    · intro h
      refine ⟨fun hc => by simpa using h [] rest (by rw [hc]; rfl), fun a b he => ?_⟩
      simpa using h (c :: a) b (by rw [he]; rfl)

end MarkupTemplate
