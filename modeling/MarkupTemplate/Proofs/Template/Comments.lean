import MarkupTemplate.Template.Compile

namespace MarkupTemplate

/-- A complete author comment stands in the text. -/
def HasComment (text : Text) : Prop :=
  ∃ before body after, text = before ++ '{' :: '!' :: (body ++ '!' :: '}' :: after)

/-- The second text is the first one without its comments: each begins at the first mark that a
closing one follows, and ends at the first closing mark. -/
inductive Uncommented : Text → Text → Prop
  | plain {text : Text} : ¬ HasComment text → Uncommented text text
  | comment {before body after rest : Text} : ¬ ['{', '!'] <:+: before → ¬ ['!', '}'] <:+: body →
      Uncommented after rest →
      Uncommented (before ++ '{' :: '!' :: (body ++ '!' :: '}' :: after)) (before ++ rest)

theorem pair_infix_cons {c d e : Char} {text : Text} :
    [c, d] <:+: e :: text ↔ (c = e ∧ text.head? = some d) ∨ [c, d] <:+: text := by
  rw [List.infix_cons_iff, List.cons_prefix_cons]
  cases text with
  | nil => simp
  | cons f text => simp [List.cons_prefix_cons, eq_comm]

theorem stripComments_closed {rest body after : Text}
    (h : cut? ['!', '}'] rest = some (body, after)) :
    stripComments ('{' :: '!' :: rest) = stripComments after := by
  rw [stripComments]
  split
  next he => cases h.symm.trans he
  next he =>
    cases h.symm.trans he
    rfl

theorem stripComments_unclosed {rest : Text} (h : cut? ['!', '}'] rest = none) :
    stripComments ('{' :: '!' :: rest) = '{' :: '!' :: rest := by
  rw [stripComments]
  split
  next => rfl
  next he => cases h.symm.trans he

theorem stripComments_other {c : Char} {rest : Text}
    (h : ∀ later, c = '{' → rest = '!' :: later → False) :
    stripComments (c :: rest) = c :: stripComments rest := by
  rw [stripComments]
  exact h

theorem hasComment_cons_of_ne {c : Char} {rest : Text}
    (h : ∀ later, c = '{' → rest = '!' :: later → False) :
    HasComment (c :: rest) ↔ HasComment rest := by
  constructor
  · rintro ⟨before, body, after, he⟩
    cases before with
    | nil => exact (h _ (List.cons.inj he).1 (List.cons.inj he).2).elim
    | cons d before => exact ⟨before, body, after, (List.cons.inj he).2⟩
  · rintro ⟨before, body, after, rfl⟩
    exact ⟨c :: before, body, after, rfl⟩

theorem length_stripComments_le (text : Text) : (stripComments text).length ≤ text.length := by
  fun_induction stripComments text with
  | case1 => exact Nat.le_refl _
  | case2 rest _ => exact Nat.le_refl _
  | case3 rest body after h hle ih =>
    simp only [List.length_cons]
    omega
  | case4 c rest h ih =>
    simp only [List.length_cons]
    omega

theorem cut?_closing {body : Text} (h : ¬ ['!', '}'] <:+: body) (after : Text) :
    cut? ['!', '}'] (body ++ '!' :: '}' :: after) = some (body, after) := by
  induction body with
  | nil => rfl
  | cons c body ih =>
    have hp : ['!', '}'].isPrefixOf (c :: (body ++ '!' :: '}' :: after)) = false := by
      cases body with
      | nil => simp [List.isPrefixOf]
      | cons d body =>
        refine Bool.eq_false_iff.mpr fun hp => h ?_
        obtain ⟨hc, hd⟩ : '!' = c ∧ '}' = d := by simpa [List.isPrefixOf] using hp
        exact pair_infix_cons.mpr (.inl ⟨hc, by rw [hd]; rfl⟩)
    have hbody : ¬ ['!', '}'] <:+: body := fun hi => h (pair_infix_cons.mpr (.inr hi))
    rw [List.cons_append, cut?, hp, ih hbody]
    rfl

theorem notInfix_of_cut? {mark text before after : Text} (hm : mark ≠ [])
    (h : cut? mark text = some (before, after)) : ¬ mark <:+: before := by
  induction text generalizing before with
  | nil => simp [cut?, hm] at h
  | cons c rest ih =>
    rw [cut?] at h
    split at h
    next =>
      obtain ⟨rfl, -⟩ := Prod.mk.inj (Option.some.inj h)
      simpa using hm
    next hp =>
      split at h
      next => cases h
      next inner tail hcut =>
        obtain ⟨rfl, rfl⟩ := Prod.mk.inj (Option.some.inj h)
        rw [List.infix_cons_iff]
        rintro (hstart | hinner)
        · obtain ⟨others, ho⟩ := hstart
          refine hp (List.isPrefixOf_iff_prefix.mpr ⟨others ++ mark ++ tail, ?_⟩)
          rw [← append_of_cut? hcut, ← List.append_assoc, ← List.append_assoc, ho]
          rfl
        · exact ih hcut hinner

theorem exists_cut?_of_comment (body after : Text) :
    ∃ found, cut? ['!', '}'] (body ++ '!' :: '}' :: after) = some found := by
  induction body with
  | nil => exact ⟨([], after), rfl⟩
  | cons c body ih =>
    obtain ⟨⟨before, rest⟩, h⟩ := ih
    rw [List.cons_append, cut?, h]
    split
    next => exact ⟨_, rfl⟩
    next => exact ⟨_, rfl⟩

/-- A text is shorter without its comments. -/
theorem length_stripComments_lt {text : Text} (h : HasComment text) :
    (stripComments text).length < text.length := by
  fun_induction stripComments text with
  | case1 =>
    obtain ⟨before, body, after, he⟩ := h
    simp at he
  | case2 rest hcut =>
    -- where no closing mark follows the opening one there is no comment at all
    obtain ⟨before, body, after, he⟩ := h
    have closes : ∃ inner, rest = inner ++ '!' :: '}' :: after := by
      match before with
      | [] =>
        obtain ⟨-, hr⟩ := List.cons.inj (List.cons.inj he).2
        exact ⟨body, hr⟩
      | ['{'] => simp at he
      | c :: d :: before =>
        obtain ⟨-, hr⟩ := List.cons.inj (List.cons.inj he).2
        exact ⟨before ++ '{' :: '!' :: body, by rw [hr]; simp⟩
    obtain ⟨inner, rfl⟩ := closes
    obtain ⟨found, hfound⟩ := exists_cut?_of_comment inner after
    cases hcut.symm.trans hfound
  | case3 rest body after hcut hle ih =>
    have shorter := length_stripComments_le after
    simp only [List.length_cons]
    omega
  | case4 c rest hne ih =>
    have shorter := ih ((hasComment_cons_of_ne hne).mp h)
    simp only [List.length_cons]
    omega

theorem stripComments_of_plain {text : Text} (h : ¬ HasComment text) :
    stripComments text = text := by
  fun_induction stripComments text with
  | case1 => rfl
  | case2 rest _ => rfl
  | case3 rest body after hcut hle ih =>
    refine absurd ⟨[], body, after, ?_⟩ h
    simp [← append_of_cut? hcut]
  | case4 c rest hne ih => rw [ih fun hc => h ((hasComment_cons_of_ne hne).mpr hc)]

/-- Removing comments gives what is left of a text without them. -/
theorem uncommented_stripComments (text : Text) : Uncommented text (stripComments text) := by
  fun_induction stripComments text with
  | case1 => exact .plain fun ⟨before, body, after, he⟩ => by simp at he
  | case2 rest hcut =>
    refine .plain fun h => ?_
    have shorter := length_stripComments_lt h
    rw [stripComments_unclosed hcut] at shorter
    exact absurd shorter (Nat.lt_irrefl _)
  | case3 rest body after hcut hle ih =>
    have whole := append_of_cut? hcut
    rw [List.append_assoc] at whole
    rw [← whole]
    exact @Uncommented.comment [] _ _ _ (by simp) (notInfix_of_cut? (by simp) hcut) ih
  | case4 c rest hne ih =>
    generalize stripComments rest = left at ih
    cases ih with
    | plain h => exact .plain fun hc => h ((hasComment_cons_of_ne hne).mp hc)
    | @comment before body after left hb hbody h =>
      refine @Uncommented.comment (c :: before) _ _ _ (fun hi => ?_) hbody h
      rcases pair_infix_cons.mp hi with ⟨hc, hd⟩ | hi
      · cases before with
        | nil => cases hd
        | cons d before =>
          cases hd
          exact hne _ hc.symm rfl
      · exact hb hi

theorem stripComments_comment {before body : Text} (hb : ¬ ['{', '!'] <:+: before)
    (hbody : ¬ ['!', '}'] <:+: body) (after : Text) :
    stripComments (before ++ '{' :: '!' :: (body ++ '!' :: '}' :: after)) =
      before ++ stripComments after := by
  induction before with
  | nil => exact stripComments_closed (cut?_closing hbody after)
  | cons c before ih =>
    have hne : ∀ later, c = '{' →
        before ++ '{' :: '!' :: (body ++ '!' :: '}' :: after) = '!' :: later → False := by
      rintro later rfl he
      cases before with
      | nil => exact absurd (List.cons.inj he).1 (by decide)
      | cons d before =>
        obtain ⟨rfl, -⟩ := List.cons.inj he
        exact hb (pair_infix_cons.mpr (.inl ⟨rfl, rfl⟩))
    rw [List.cons_append, stripComments_other hne,
      ih fun hi => hb (pair_infix_cons.mpr (.inr hi)), List.cons_append]

theorem uncommented_iff {text left : Text} : Uncommented text left ↔ left = stripComments text := by
  constructor
  · intro h
    induction h with
    | plain h => exact (stripComments_of_plain h).symm
    | comment hb hbody _ ih => rw [stripComments_comment hb hbody, ih]
  · rintro rfl
    exact uncommented_stripComments text

end MarkupTemplate
