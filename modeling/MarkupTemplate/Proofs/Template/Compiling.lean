import MarkupTemplate.Proofs.Template.Comments

namespace MarkupTemplate

/-- No two blanks stand next to each other. -/
def BlanksApart (text : Text) : Prop :=
  ∀ c d, [c, d] <:+: text → ¬ (isBlank c = true ∧ isBlank d = true)

/-- A single space stands between the end of a tag and the start of another one. -/
def HasGap (text : Text) : Prop :=
  ['>', ' ', '<'] <:+: text

/-- White space that compiling leaves as it is. -/
structure Compact (text : Text) : Prop where
  noControl : ∀ c ∈ text, isControlSpace c = false
  blanksApart : BlanksApart text
  noGap : ¬ HasGap text

theorem isBlank_of_isControlSpace {c : Char} (h : isControlSpace c = true) : isBlank c = true := by
  simp only [isControlSpace, Bool.or_eq_true, beq_iff_eq] at h
  rcases h with (((rfl | rfl) | rfl) | rfl) | rfl <;> decide

theorem collapseBlanks_nil : collapseBlanks [] = [] := by
  unfold collapseBlanks
  rfl

theorem collapseBlanks_singleton (c : Char) : collapseBlanks [c] = [c] := by
  unfold collapseBlanks
  rfl

theorem collapseBlanks_blanks {c d : Char} (hc : isBlank c = true) (hd : isBlank d = true)
    (rest : Text) :
    collapseBlanks (c :: d :: rest) = ' ' :: collapseBlanks (rest.dropWhile isBlank) := by
  conv => lhs; unfold collapseBlanks
  rw [hc, hd]
  rfl

theorem collapseBlanks_other {c d : Char} (h : (isBlank c && isBlank d) = false) (rest : Text) :
    collapseBlanks (c :: d :: rest) = c :: collapseBlanks (d :: rest) := by
  conv => lhs; unfold collapseBlanks
  rw [h]
  rfl

/-- A character that shows is kept at the start of a text. -/
theorem collapseBlanks_cons {c : Char} (h : isBlank c = false) (rest : Text) :
    collapseBlanks (c :: rest) = c :: collapseBlanks rest := by
  cases rest with
  | nil => rw [collapseBlanks_singleton, collapseBlanks_nil]
  | cons d rest => rw [collapseBlanks_other (by simp [h])]

theorem blanksApart_cons {c : Char} {text : Text} :
    BlanksApart (c :: text) ↔
      (∀ d, text.head? = some d → ¬ (isBlank c = true ∧ isBlank d = true)) ∧ BlanksApart text := by
  constructor
  · intro h
    exact ⟨fun d hd => h c d (pair_infix_cons.mpr (.inl ⟨rfl, hd⟩)),
      fun a b hi => h a b (pair_infix_cons.mpr (.inr hi))⟩
  · rintro ⟨first, rest⟩ a b hi
    rcases pair_infix_cons.mp hi with ⟨rfl, hd⟩ | hi
    · exact first b hd
    · exact rest a b hi

theorem isBlank_head_dropWhile {text rest : Text} {c : Char}
    (h : text.dropWhile isBlank = c :: rest) : isBlank c = false := by
  have head := List.head?_dropWhile_not isBlank text
  rwa [h] at head

theorem blanksApart_collapseBlanks (text : Text) : BlanksApart (collapseBlanks text) := by
  fun_induction collapseBlanks text with
  | case1 => exact fun c d hi => by simp at hi
  | case2 c =>
    intro d e hi
    have longer := hi.length_le
    simp at longer
  | case3 c d rest h hle ih =>
    refine blanksApart_cons.mpr ⟨fun e he => ?_, ih⟩
    cases hw : rest.dropWhile isBlank with
    | nil =>
      rw [hw, collapseBlanks_nil] at he
      cases he
    | cons f others =>
      have hf := isBlank_head_dropWhile hw
      rw [hw, collapseBlanks_cons hf] at he
      cases he
      simp [hf]
  | case4 c d rest h ih =>
    refine blanksApart_cons.mpr ⟨fun e he => ?_, ih⟩
    rintro ⟨hc, hb⟩
    have hd : isBlank d = false := by simpa [hc] using h
    rw [collapseBlanks_cons hd] at he
    cases he
    rw [hd] at hb
    cases hb

theorem collapseBlanks_of_blanksApart {text : Text} (h : BlanksApart text) :
    collapseBlanks text = text := by
  fun_induction collapseBlanks text with
  | case1 => rfl
  | case2 c => rfl
  | case3 c d rest hb hle ih =>
    exact absurd (Bool.and_eq_true_iff.mp hb) ((blanksApart_cons.mp h).1 d rfl)
  | case4 c d rest hb ih => rw [ih (blanksApart_cons.mp h).2]

theorem filter_dropWhile_blanks (text : Text) :
    (text.dropWhile isBlank).filter (!isBlank ·) = text.filter (!isBlank ·) := by
  induction text with
  | nil => rfl
  | cons c text ih =>
    by_cases hc : isBlank c = true
    · rw [List.dropWhile_cons_of_pos hc, List.filter_cons_of_neg (by simp [hc]), ih]
    · rw [List.dropWhile_cons_of_neg hc]

theorem filter_collapseBlanks (text : Text) :
    (collapseBlanks text).filter (!isBlank ·) = text.filter (!isBlank ·) := by
  fun_induction collapseBlanks text with
  | case1 => rfl
  | case2 c => rfl
  | case3 c d rest hb hle ih =>
    obtain ⟨hc, hd⟩ := Bool.and_eq_true_iff.mp hb
    have space : isBlank ' ' = true := by decide
    rw [List.filter_cons_of_neg (by simp [space]), List.filter_cons_of_neg (by simp [hc]),
      List.filter_cons_of_neg (by simp [hd]), ih, filter_dropWhile_blanks]
  | case4 c d rest hb ih => simp only [List.filter_cons, ih]

theorem mem_collapseBlanks {c : Char} {text : Text} (h : c ∈ collapseBlanks text) :
    c = ' ' ∨ c ∈ text := by
  fun_induction collapseBlanks text with
  | case1 => cases h
  | case2 d => exact .inr h
  | case3 d e rest hb hle ih =>
    rcases List.mem_cons.mp h with hc | hm
    · exact .inl hc
    · have below : ∀ d ∈ rest.dropWhile isBlank, d ∈ rest :=
        fun d hd => (List.dropWhile_sublist _).subset hd
      exact (ih hm).imp_right fun hr => by simp [below c hr]
  | case4 d e rest hb ih =>
    rcases List.mem_cons.mp h with rfl | hm
    · exact .inr List.mem_cons_self
    · exact (ih hm).imp_right (List.mem_cons_of_mem d)

theorem closeGaps_gap (rest : Text) :
    closeGaps ('>' :: ' ' :: '<' :: rest) = '>' :: '<' :: closeGaps rest := by
  rw [closeGaps]

theorem closeGaps_other {c : Char} {rest : Text}
    (h : ∀ later, c = '>' → rest = ' ' :: '<' :: later → False) :
    closeGaps (c :: rest) = c :: closeGaps rest := by
  rw [closeGaps]
  exact h

theorem head?_closeGaps (text : Text) : (closeGaps text).head? = text.head? := by
  fun_cases closeGaps text <;> rfl

theorem not_hasGap_closeGaps (text : Text) : ¬ HasGap (closeGaps text) := by
  fun_induction closeGaps text with
  | case1 => simp [HasGap]
  | case2 rest ih =>
    simpa [HasGap, List.infix_cons_iff, List.cons_prefix_cons] using ih
  | case3 c rest h ih =>
    rw [HasGap, List.infix_cons_iff, List.cons_prefix_cons]
    rintro (⟨rfl, others, ho⟩ | hi)
    · -- the rest begins with a space that was there before, and so does what follows it
      have space : rest.head? = some ' ' := by
        rw [← head?_closeGaps, ← ho]
        rfl
      obtain ⟨later, rfl⟩ := List.head?_eq_some_iff.mp space
      rw [closeGaps_other (by simp)] at ho
      have opening : later.head? = some '<' := by
        rw [← head?_closeGaps, ← (List.cons.inj ho).2]
        rfl
      obtain ⟨last, rfl⟩ := List.head?_eq_some_iff.mp opening
      exact h last rfl rfl
    · exact ih hi

theorem closeGaps_of_not_hasGap {text : Text} (h : ¬ HasGap text) : closeGaps text = text := by
  fun_induction closeGaps text with
  | case1 => rfl
  | case2 rest ih => exact absurd (List.prefix_append ['>', ' ', '<'] rest).isInfix h
  | case3 c rest hne ih =>
    rw [ih fun hi => h (List.infix_cons_iff.mpr (.inr hi))]

theorem BlanksApart.closeGaps {text : Text} (h : BlanksApart text) :
    BlanksApart (closeGaps text) := by
  fun_induction MarkupTemplate.closeGaps text with
  | case1 => exact h
  | case2 rest ih =>
    have later := ih (blanksApart_cons.mp (blanksApart_cons.mp (blanksApart_cons.mp h).2).2).2
    have tag : ∀ c ∈ ['>', '<'], isBlank c = false :=
      List.forall_mem_cons.mpr ⟨rfl, List.forall_mem_singleton.mpr rfl⟩
    refine blanksApart_cons.mpr ⟨fun d _ => ?_, blanksApart_cons.mpr ⟨fun d _ => ?_, later⟩⟩
    · simp [tag]
    · simp [tag]
  | case3 c rest hne ih =>
    obtain ⟨first, hr⟩ := blanksApart_cons.mp h
    refine blanksApart_cons.mpr ⟨?_, ih hr⟩
    rwa [head?_closeGaps]

theorem filter_closeGaps (text : Text) :
    (closeGaps text).filter (!isBlank ·) = text.filter (!isBlank ·) := by
  fun_induction closeGaps text with
  | case1 => rfl
  | case2 rest ih =>
    have space : isBlank ' ' = true := by decide
    simp [List.filter_cons, ih, space]
  | case3 c rest h ih => simp only [List.filter_cons, ih]

theorem mem_of_mem_closeGaps {c : Char} {text : Text} (h : c ∈ closeGaps text) : c ∈ text := by
  fun_induction closeGaps text with
  | case1 => exact h
  | case2 rest ih =>
    simp only [List.mem_cons] at h ⊢
    rcases h with rfl | rfl | hm
    · exact .inl rfl
    · exact .inr (.inr (.inl rfl))
    · exact .inr (.inr (.inr (ih hm)))
  | case3 d rest hne ih =>
    rcases List.mem_cons.mp h with rfl | hm
    · exact List.mem_cons_self
    · exact List.mem_cons_of_mem d (ih hm)

/-- The text without its comments and then without its line breaks and tabs. -/
def unbroken (raw : Text) : Text :=
  (stripComments raw).filter (!isControlSpace ·)

theorem compile_eq (raw : Text) : compile raw = closeGaps (collapseBlanks (unbroken raw)) := rfl

theorem compact_compile (raw : Text) : Compact (compile raw) where
  noControl c h := by
    rcases mem_collapseBlanks (mem_of_mem_closeGaps h) with rfl | hm
    · decide
    · simpa using (List.mem_filter.mp hm).2
  blanksApart := (blanksApart_collapseBlanks _).closeGaps
  noGap := not_hasGap_closeGaps _

theorem filter_compile (raw : Text) :
    (compile raw).filter (!isBlank ·) = (stripComments raw).filter (!isBlank ·) := by
  rw [compile_eq, filter_closeGaps, filter_collapseBlanks, unbroken, List.filter_filter]
  refine List.filter_congr fun c _ => ?_
  cases hc : isControlSpace c with
  | false => simp
  | true => simp [isBlank_of_isControlSpace hc]

/-- White space that is compiled once stays as it is. -/
theorem Compact.compile {text : Text} (h : Compact text) (plain : ¬ HasComment text) :
    compile text = text := by
  have kept : unbroken text = text := by
    rw [unbroken, stripComments_of_plain plain]
    exact List.filter_eq_self.mpr fun c hc => by simp [h.noControl c hc]
  rw [compile_eq, kept, collapseBlanks_of_blanksApart h.blanksApart,
    closeGaps_of_not_hasGap h.noGap]

theorem length_closeGaps_le (text : Text) : (closeGaps text).length ≤ text.length := by
  fun_induction closeGaps text with
  | case1 => exact Nat.le_refl _
  | case2 rest ih =>
    simp only [List.length_cons]
    omega
  | case3 c rest h ih =>
    simp only [List.length_cons]
    omega

theorem length_collapseBlanks_le (text : Text) : (collapseBlanks text).length ≤ text.length := by
  fun_induction collapseBlanks text with
  | case1 => exact Nat.le_refl _
  | case2 c => exact Nat.le_refl _
  | case3 c d rest hb hle ih =>
    simp only [List.length_cons]
    omega
  | case4 c d rest hb ih =>
    simp only [List.length_cons] at ih ⊢
    omega

theorem length_compile_le (raw : Text) : (compile raw).length ≤ (stripComments raw).length :=
  calc (compile raw).length
    _ ≤ (collapseBlanks (unbroken raw)).length := length_closeGaps_le _
    _ ≤ (unbroken raw).length := length_collapseBlanks_le _
    _ ≤ (stripComments raw).length := List.length_filter_le ..

/-- The function takes a text apart at a character, which stays where it stands. -/
structure Keeps (f : Text → Text) (c : Char) : Prop where
  apart : ∀ before after, f (before ++ c :: after) = f before ++ c :: f after
  notMem : ∀ text, c ∉ text → c ∉ f text

theorem Keeps.exists_of_eq {f : Text → Text} {c : Char} (keeps : Keeps f c)
    {text before after : Text} (h : f text = before ++ c :: after) :
    ∃ earlier later, text = earlier ++ c :: later ∧ f earlier = before ∧ f later = after := by
  induction hn : text.length using Nat.strongRecOn generalizing text before with
  | ind n ih =>
    subst hn
    have hm : c ∈ text := by
      by_cases hm : c ∈ text
      · exact hm
      · exact absurd (by simp [h]) (keeps.notMem text hm)
    obtain ⟨first, rest, rfl, hfirst⟩ := List.eq_append_cons_of_mem hm
    rw [keeps.apart] at h
    rcases List.append_eq_append_iff.mp h with ⟨between, rfl, hr⟩ | ⟨between, hf, hr⟩
    · cases between with
      | nil => exact ⟨first, rest, rfl, (List.append_nil _).symm, (List.cons.inj hr).2⟩
      | cons d between =>
        obtain ⟨rfl, hrest⟩ := List.cons.inj hr
        obtain ⟨earlier, later, rfl, he, hl⟩ := ih rest.length (by simp; omega) hrest rfl
        exact ⟨first ++ c :: earlier, later, by simp, by rw [keeps.apart, he], hl⟩
    · cases between with
      | nil => exact ⟨first, rest, rfl, by simpa using hf, ((List.cons.inj hr).2).symm⟩
      | cons d between =>
        obtain ⟨rfl, -⟩ := List.cons.inj hr
        exact absurd (by simp [hf]) (keeps.notMem first hfirst)

/-- A pass that keeps the characters of the marks and empties no text writes no comment and takes
none away. -/
theorem hasComment_iff_of_keeps {f : Text → Text} (keeps : ∀ c ∈ ['{', '!', '}'], Keeps f c)
    (nil_iff : ∀ text, f text = [] ↔ text = []) (text : Text) :
    HasComment (f text) ↔ HasComment text := by
  have brace : Keeps f '{' := keeps _ (by simp)
  have bang : Keeps f '!' := keeps _ (by simp)
  have closing : Keeps f '}' := keeps _ (by simp)
  have bang_cons : ∀ rest, f ('!' :: rest) = '!' :: f rest := fun rest => by
    simpa [(nil_iff []).mpr rfl] using bang.apart [] rest
  have closing_cons : ∀ rest, f ('}' :: rest) = '}' :: f rest := fun rest => by
    simpa [(nil_iff []).mpr rfl] using closing.apart [] rest
  constructor
  · rintro ⟨before, body, after, h⟩
    obtain ⟨earlier, rest, rfl, -, hrest⟩ := brace.exists_of_eq h
    obtain ⟨none, opened, rfl, hnone, hopened⟩ := @Keeps.exists_of_eq f '!' bang rest [] _ hrest
    obtain ⟨inner, ended, rfl, -, hended⟩ := bang.exists_of_eq hopened
    obtain ⟨nothing, later, rfl, hnothing, -⟩ := @Keeps.exists_of_eq f '}' closing ended [] _ hended
    rw [nil_iff] at hnone hnothing
    exact ⟨earlier, inner, later, by simp [hnone, hnothing]⟩
  · rintro ⟨before, body, after, rfl⟩
    exact ⟨f before, f body, f after, by
      rw [brace.apart, bang_cons, bang.apart, closing_cons]⟩

theorem dropWhile_append_of_shows {c : Char} (h : isBlank c = false) (before after : Text) :
    (before ++ c :: after).dropWhile isBlank = before.dropWhile isBlank ++ c :: after := by
  induction before with
  | nil => simp [h]
  | cons d before ih => cases hd : isBlank d <;> simp [hd, ih]

theorem keeps_collapseBlanks {c : Char} (h : isBlank c = false) : Keeps collapseBlanks c where
  apart before after := by
    fun_induction collapseBlanks before with
    | case1 => rw [List.nil_append, collapseBlanks_cons h, List.nil_append]
    | case2 d =>
      rw [List.singleton_append, collapseBlanks_other (by simp [h]), collapseBlanks_cons h]
      rfl
    | case3 d e rest hb hle ih =>
      obtain ⟨hd, he⟩ := Bool.and_eq_true_iff.mp hb
      rw [List.cons_append, List.cons_append, collapseBlanks_blanks hd he,
        dropWhile_append_of_shows h, ih, List.cons_append]
    | case4 d e rest hb ih =>
      rw [List.cons_append, List.cons_append, collapseBlanks_other (by simpa using hb),
        ← List.cons_append, ih, List.cons_append]
  notMem text hm hc := by
    rcases mem_collapseBlanks hc with rfl | ht
    · exact absurd h (by decide)
    · exact hm ht

theorem keeps_closeGaps {c : Char} (h : c ∉ ['>', ' ', '<']) : Keeps closeGaps c where
  apart before after := by
    fun_induction closeGaps before with
    | case1 =>
      rw [List.nil_append, closeGaps_other fun _ hc _ => h (by simp [hc]), List.nil_append]
    | case2 rest ih =>
      simp only [List.cons_append, closeGaps_gap, ih]
    | case3 d rest hne ih =>
      have other : ∀ later, d = '>' → rest ++ c :: after = ' ' :: '<' :: later → False := by
        intro later hd he
        match rest with
        | [] => exact h (by simp [(List.cons.inj he).1])
        | [e] => exact h (by simp [(List.cons.inj (List.cons.inj he).2).1])
        | e :: f :: rest =>
          obtain ⟨space, he⟩ := List.cons.inj he
          obtain ⟨tag, -⟩ := List.cons.inj he
          exact hne rest hd (by rw [space, tag])
      rw [List.cons_append, closeGaps_other other, ih, List.cons_append]
  notMem text hm hc := hm (mem_of_mem_closeGaps hc)

theorem collapseBlanks_eq_nil_iff (text : Text) : collapseBlanks text = [] ↔ text = [] := by
  fun_cases collapseBlanks text <;> simp

theorem closeGaps_eq_nil_iff (text : Text) : closeGaps text = [] ↔ text = [] := by
  fun_cases closeGaps text <;> simp

/-- The passes after the removal of line breaks and tabs write no comment. -/
theorem hasComment_compile_iff (raw : Text) :
    HasComment (compile raw) ↔ HasComment (unbroken raw) := by
  have marks : ∀ c ∈ ['{', '!', '}'], isBlank c = false ∧ c ∉ ['>', ' ', '<'] := by
    simp only [List.forall_mem_cons]
    exact ⟨by decide, by decide, by decide, by simp⟩
  rw [compile_eq,
    hasComment_iff_of_keeps (fun c hc => keeps_closeGaps (marks c hc).2) closeGaps_eq_nil_iff,
    hasComment_iff_of_keeps (fun c hc => keeps_collapseBlanks (marks c hc).1)
      collapseBlanks_eq_nil_iff]

/-- A text that is compiled once more stays as it is exactly if no comment stands in what is left
of the text after comments, line breaks and tabs are removed, each once and in this order. -/
theorem compile_compile_iff (raw : Text) :
    (compile (compile raw) = compile raw ↔ ¬ HasComment (unbroken raw)) ∧
      (HasComment (compile raw) ↔ HasComment (unbroken raw)) := by
  refine ⟨⟨fun same comment => ?_, fun plain => ?_⟩, hasComment_compile_iff raw⟩
  · have shorter := length_stripComments_lt ((hasComment_compile_iff raw).mpr comment)
    have longer := length_compile_le (compile raw)
    rw [same] at longer
    exact absurd shorter (Nat.not_lt.mpr longer)
  · exact (compact_compile raw).compile fun comment =>
      plain ((hasComment_compile_iff raw).mp comment)

/-- A mark with a line break between its characters. -/
def brokenMark : Text :=
  "\x7b\n! a !\x7db".toList

/-- A line break between the characters of a mark hides a comment from the first compilation. -/
theorem compile_writes_comment :
    HasComment (compile brokenMark) ∧ compile (compile brokenMark) ≠ compile brokenMark := by
  have once : compile brokenMark = "\x7b! a !\x7db".toList := by decide +kernel
  have twice : compile "\x7b! a !\x7db".toList = "b".toList := by decide +kernel
  constructor
  · rw [once]
    exact ⟨[], " a ".toList, "b".toList, rfl⟩
  · intro same
    have kept := twice.symm.trans ((congrArg compile once).symm.trans (same.trans once))
    exact absurd kept (by decide)

/-- A compiled text holds no line breaks, tabs, adjacent blanks or gaps between tags, and all that
shows outside the comments, as it was. -/
theorem compile_changes_only_blanks (raw : Text) :
    (∀ c ∈ compile raw, c ∉ ['\x0c', '\n', '\r', '\t', '\x0b']) ∧
    (∀ c d, [c, d] <:+: compile raw → ¬ (isBlank c = true ∧ isBlank d = true)) ∧
    ¬ "> <".toList <:+: compile raw ∧
    ∃ left, (∀ text, Uncommented raw text ↔ text = left) ∧
      (compile raw).filter (!isBlank ·) = left.filter (!isBlank ·) := by
  have compact := compact_compile raw
  refine ⟨fun c hc hm => ?_, compact.blanksApart, compact.noGap, stripComments raw,
    fun _ => uncommented_iff, filter_compile raw⟩
  have control : ['\x0c', '\n', '\r', '\t', '\x0b'].all isControlSpace = true := rfl
  cases (List.all_eq_true.mp control c hm).symm.trans (compact.noControl c hc)

end MarkupTemplate
