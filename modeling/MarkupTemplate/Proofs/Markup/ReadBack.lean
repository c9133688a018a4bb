import MarkupTemplate.Proofs.Markup.WrittenTokens

namespace MarkupTemplate

theorem sameName_self (name : Text) : sameName name name = true := by
  simp [sameName]

theorem lt_notMem_lowerAscii_of_isRawTextName {name : Text} (h : isRawTextName name = true) :
    '<' ∉ lowerAscii name := by
  rw [isRawTextName, List.contains_iff_mem] at h
  have all : ∀ raw ∈ rawTextNames, '<' ∉ raw := by decide
  exact all _ h

theorem sameName_append_lt {name before after : Text} (h : '<' ∉ lowerAscii name) :
    sameName (before ++ '<' :: after) name = false := by
  apply Bool.eq_false_iff.mpr
  intro hs
  simp only [sameName, beq_iff_eq] at hs
  apply h
  rw [← hs]
  simp only [lowerAscii, List.map_append, List.map_cons, List.mem_append, List.mem_cons]
  exact .inr (.inl (by decide))

theorem LacksEndOf.of_cons {name text : Text} {c : Char} (h : LacksEndOf name (c :: text)) :
    LacksEndOf name text := by
  intro before after he
  exact h (c :: before) after (by simp [he])

theorem LacksEndOf.take_append {name text : Text} (hname : '<' ∉ lowerAscii name)
    (h : sameName (text.take name.length) name = false) (after : Text) :
    sameName ((text ++ '<' :: after).take name.length) name = false := by
  by_cases hle : name.length ≤ text.length
  · rw [List.take_append_of_le_length hle]
    exact h
  · obtain ⟨n, hn⟩ : ∃ n, name.length = text.length + (n + 1) :=
      ⟨name.length - text.length - 1, by omega⟩
    rw [hn, List.take_length_add_append, List.take_succ_cons]
    exact sameName_append_lt hname

theorem spanRawText_append {name shown : Text} (hname : '<' ∉ lowerAscii name)
    (h : LacksEndOf name shown) (after : Text) :
    spanRawText name (shown ++ '<' :: '/' :: (name ++ after)) =
      (shown, '<' :: '/' :: (name ++ after)) := by
  induction shown with
  | nil =>
    simp [spanRawText, sameName_self]
  | cons c shown ih =>
    have hend : (c == '<' && (shown ++ '<' :: '/' :: (name ++ after)).head? == some '/' &&
        sameName (((shown ++ '<' :: '/' :: (name ++ after)).drop 1).take name.length) name) =
          false := by
      cases shown with
      | nil => simp
      | cons d shown =>
        by_cases hc : c = '<'
        · by_cases hd : d = '/'
          · subst hc hd
            have := LacksEndOf.take_append hname (h [] shown rfl) ('/' :: (name ++ after))
            simpa using this
          · simp [hd]
        · simp [hc]
    simp only [List.cons_append, spanRawText, hend, Bool.false_eq_true, if_false, ih h.of_cons]

theorem tokensIn_rawText {e : Element} {shown : Text} (hraw : isRawTextName e.name = true)
    (hne : shown ≠ []) (h : LacksEndOf e.name shown) (after : Text) :
    tokensIn (some e.name) (shown ++ (e.endTag ++ after)) =
      .text shown :: tokensIn none (e.endTag ++ after) := by
  have span := spanRawText_append (lt_notMem_lowerAscii_of_isRawTextName hraw) h ('>' :: after)
  have hend : e.endTag ++ after = '<' :: '/' :: (e.name ++ '>' :: after) := by
    simp [Element.endTag]
  rw [← hend] at span
  obtain ⟨c, shown, rfl⟩ := List.exists_cons_of_ne_nil hne
  rw [List.cons_append] at span ⊢
  apply tokensIn_cons
  simp [nextToken, span]

theorem tokensIn_rawEnd {e : Element} (h : e.Writable) (after : Text) :
    tokensIn (some e.name) (e.endTag ++ after) = .closing e.name :: tokensIn none after := by
  have read := readMarkup?_endTag h after
  have hend : e.endTag ++ after = '<' :: '/' :: (e.name ++ '>' :: after) := by
    simp [Element.endTag]
  have span : spanRawText e.name (e.endTag ++ after) = ([], e.endTag ++ after) := by
    rw [hend]
    simp [spanRawText, sameName_self]
  rw [hend] at read span ⊢
  apply tokensIn_cons
  simp [nextToken, span, readToken, read]

/-- The tokens of a node, with those of its children. -/
def Content.tokens (content : Content) (inside : List Token) : List Token :=
  match content with
  | .text shown => [.text shown]
  | .verbatim source =>
    if "<!--".toList <+: source then [.comment source] else [.declaration source]
  | .element e =>
    .opening e.name e.attributes (e.form == .selfClosed) ::
      if content.showsChildren then inside ++ [.closing e.name] else []

namespace Forest

/-- The tokens that a forest is written with. -/
def tokens : Forest → List Token
  | .nil => []
  | .node content children next => content.tokens children.tokens ++ next.tokens

theorem Writable.head_markup {forest : Forest} (h : forest.Writable)
    (starts : forest.startsText = false) {after : Text} (stop : ∀ c ∈ after.head?, c = '<') :
    ∀ c ∈ (forest.markup ++ after).head?, c = '<' := by
  cases h with
  | nil => exact stop
  | text => simp [startsText] at starts
  | verbatim h _ =>
    rcases h with ⟨inner, rfl, _⟩ | ⟨mark, inner, _, rfl, _⟩
    all_goals simp [markup_node, Content.opening]
  | single | raw | rawText | normal =>
    simp [markup_node, Content.opening, Element.startTag]

theorem markup_leaf (content : Content) (h : content.showsChildren = false)
    (children next : Forest) (after : Text) :
    (Forest.node content children next).markup ++ after =
      content.opening ++ (next.markup ++ after) := by
  simp [markup_node, h]

theorem markup_normal {e : Element} (h : e.form = .normal) (children next : Forest)
    (after : Text) :
    (Forest.node (.element e) children next).markup ++ after =
      e.startTag ++ (children.markup ++ (e.endTag ++ (next.markup ++ after))) := by
  have hshows : Content.showsChildren (.element e) = true := by simp [Content.showsChildren,
    Content.isElement, Content.element?, h]
  simp [markup_node, hshows, Content.opening, Content.closing]

theorem tokens_normal {e : Element} (h : e.form = .normal) (children next : Forest) :
    (Forest.node (.element e) children next).tokens =
      .opening e.name e.attributes false ::
        (children.tokens ++ .closing e.name :: next.tokens) := by
  simp [tokens, Content.tokens, Content.showsChildren, Content.isElement, Content.element?, h]

theorem tokens_single {e : Element} (h : e.form ≠ .normal) (children next : Forest) :
    (Forest.node (.element e) children next).tokens =
      .opening e.name e.attributes (e.form == .selfClosed) :: next.tokens := by
  simp [tokens, Content.tokens, Content.showsChildren, Content.isElement, Content.element?, h]

theorem isRawTextName_eq_false_of_isVoidName {name : Text} (h : isVoidName name = true) :
    isRawTextName name = false := by
  rw [isVoidName, List.contains_iff_mem] at h
  have apart : ∀ void ∈ voidNames, rawTextNames.contains void = false := by decide
  exact apart _ h

theorem rawText?_normal {e : Element} (h : e.form = .normal) :
    (Token.opening e.name e.attributes (e.form == .selfClosed)).rawText? =
      if isRawTextName e.name then some e.name else none := by
  rw [h]
  rfl

theorem rawText?_closing (name : Text) : (Token.closing name).rawText? = none := rfl

theorem rawText?_single {e : Element} (h : e.Writable) (hform : e.form ≠ .normal) :
    (Token.opening e.name e.attributes (e.form == .selfClosed)).rawText? = none := by
  by_cases hs : e.form = .selfClosed
  · simp [Token.rawText?, hs]
  · have hvoid : e.form = .void := by
      cases hf : e.form with
      | normal => exact absurd hf hform
      | void => rfl
      | selfClosed => exact absurd hf hs
    have hraw := isRawTextName_eq_false_of_isVoidName ((h.form hs).mp hvoid)
    have hbeq : (e.form == .selfClosed) = false := by simpa using hs
    rw [hbeq, Token.rawText?, hraw]
    rfl

theorem tokensIn_markup {forest : Forest} (h : forest.Writable) (ha : forest.TextsApart)
    {after : Text} (stop : ∀ c ∈ after.head?, c = '<') :
    tokensIn none (forest.markup ++ after) = forest.tokens ++ tokensIn none after := by
  induction h generalizing after with
  | nil => rfl
  | @text shown next hshown hnext ih =>
    obtain ⟨hne, hstarts, _, hapart⟩ := ha
    have hm := markup_leaf (.text shown) rfl .nil next after
    rw [hm, Content.opening, tokensIn_text hne hshown (hnext.head_markup hstarts stop),
      ih hapart stop]
    rfl
  | @verbatim source next hsource hnext ih =>
    have hm := markup_leaf (.verbatim source) rfl .nil next after
    rw [hm, Content.opening]
    rcases hsource with hcomment | hdeclaration
    · have hpre : "<!--".toList <+: source := by
        obtain ⟨inner, rfl, _⟩ := hcomment
        exact ⟨inner ++ "-->".toList, by simp⟩
      rw [tokensIn_of_readMarkup? (readMarkup?_comment hcomment _), tokens, Content.tokens,
        if_pos hpre]
      exact congrArg _ (ih ha.2 stop)
    · have hpre : ¬ "<!--".toList <+: source := by
        obtain ⟨_, _, _, _, _, hpre⟩ := hdeclaration
        exact hpre
      rw [tokensIn_of_readMarkup? (readMarkup?_declaration hdeclaration _), tokens,
        Content.tokens, if_neg hpre]
      exact congrArg _ (ih ha.2 stop)
  | @single e next he hform hnext ih =>
    have hshows : Content.showsChildren (.element e) = false := by
      simpa [Content.showsChildren, Content.isElement, Content.element?] using hform
    rw [markup_leaf _ hshows, Content.opening, tokensIn_of_readMarkup? (readMarkup?_startTag he _),
      rawText?_single he hform, ih ha.2 stop, tokens_single hform]
    rfl
  | @raw e next he hform hraw hnext ih =>
    have hr := (rawText?_normal hform).trans (if_pos hraw)
    rw [markup_normal hform, tokensIn_of_readMarkup? (readMarkup?_startTag he _), hr, markup_nil,
      List.nil_append, tokensIn_rawEnd he, ih ha.2 stop, tokens_normal hform, hform]
    rfl
  | @rawText e shown next he hform hraw hshown hnext ih =>
    obtain ⟨⟨hne, _, _, _⟩, hapart⟩ := ha
    have hr := (rawText?_normal hform).trans (if_pos hraw)
    have hm := markup_leaf (.text shown) rfl .nil .nil
      (e.endTag ++ (next.markup ++ after))
    have hend := tokensIn_of_readMarkup? (readMarkup?_endTag he (next.markup ++ after))
    rw [markup_normal hform, tokensIn_of_readMarkup? (readMarkup?_startTag he _), hr, hm,
      Content.opening, markup_nil, List.nil_append, tokensIn_rawText hraw hne hshown, hend,
      rawText?_closing, ih hapart stop, tokens_normal hform, hform]
    rfl
  | @normal e children next he hform hraw hchildren hnext ihc ih =>
    have hr := (rawText?_normal hform).trans (if_neg (by simp [hraw]))
    have hstop : ∀ c ∈ (e.endTag ++ (next.markup ++ after)).head?, c = '<' := by
      simp [Element.endTag]
    have hend := tokensIn_of_readMarkup? (readMarkup?_endTag he (next.markup ++ after))
    rw [markup_normal hform, tokensIn_of_readMarkup? (readMarkup?_startTag he _), hr,
      ihc ha.1 hstop, hend, rawText?_closing, ih ha.2 stop, tokens_normal hform, hform]
    simp

@[simp] theorem reverseOnto_reverseOnto (a b c : Forest) :
    (a.reverseOnto b).reverseOnto c = b.reverseOnto (a ++ c) := by
  induction a generalizing b with
  | nil => rfl
  | node content children next _ ih => rw [reverseOnto, ih]; rfl

end Forest

theorem Builder.step_verbatim (builder : Builder) (source : Text) :
    (Content.tokens (.verbatim source) []).foldl Builder.step builder =
      builder.add (.verbatim source) := by
  simp only [Content.tokens]
  split <;> rfl

theorem Builder.step_single {e : Element} (h : e.Writable) (hform : e.form ≠ .normal)
    (builder : Builder) :
    builder.step (.opening e.name e.attributes (e.form == .selfClosed)) =
      builder.add (.element e) := by
  obtain ⟨name, attributes, form⟩ := e
  cases form with
  | normal => exact absurd rfl hform
  | void =>
    have hvoid : isVoidName name = true := (h.form nofun).mp rfl
    simp only [Builder.step, hvoid]
    rfl
  | selfClosed => rfl

theorem Builder.step_normal {e : Element} (h : e.Writable) (hform : e.form = .normal)
    (builder : Builder) :
    builder.step (.opening e.name e.attributes false) = builder.enter e := by
  have hs : e.form ≠ .selfClosed := by simp [hform]
  have hvoid : isVoidName e.name = false := by
    apply Bool.eq_false_iff.mpr
    intro hv
    have := (h.form hs).mpr hv
    rw [hform] at this
    cases this
  simp only [Builder.step, hvoid, Bool.false_eq_true, if_false]
  rw [← hform]

theorem Builder.step_closing (e : Element) (nodes before : Forest) (around : List OpenElement)
    (warnings : List Warning) :
    Builder.step ⟨nodes, ⟨e, before⟩ :: around, warnings⟩ (.closing e.name) =
      ⟨.node (.element e) (nodes.reverseOnto .nil) before, around, warnings⟩ := by
  simp [Builder.step, List.findIdx?_cons, sameName_self, Builder.leave, Builder.closeAll]

namespace Forest

/-- The tokens of a forest build its nodes, last one first, on top of those before them. -/
theorem foldl_tokens {forest : Forest} (h : forest.Writable) (builder : Builder) :
    forest.tokens.foldl Builder.step builder =
      { builder with nodes := forest.reverseOnto builder.nodes } := by
  induction h generalizing builder with
  | nil => rfl
  | text _ _ ih => exact ih _
  | verbatim _ _ ih =>
    rw [tokens, List.foldl_append, tokens, Builder.step_verbatim, ih]
    rfl
  | single he hform _ ih =>
    rw [tokens_single hform, List.foldl_cons, Builder.step_single he hform, ih]
    rfl
  | raw he hform _ _ ih =>
    rw [tokens_normal hform, List.foldl_cons, Builder.step_normal he hform, tokens,
      List.nil_append, List.foldl_cons, Builder.enter, Builder.step_closing, ih]
    rfl
  | rawText he hform _ _ _ ih =>
    rw [tokens_normal hform, List.foldl_cons, Builder.step_normal he hform, tokens,
      Content.tokens, tokens, List.append_nil, List.cons_append, List.nil_append, List.foldl_cons,
      List.foldl_cons, Builder.step, Builder.add, Builder.enter, Builder.step_closing, ih]
    rfl
  | normal he hform _ _ _ ihc ih =>
    rw [tokens_normal hform, List.foldl_cons, Builder.step_normal he hform, List.foldl_append,
      ihc, List.foldl_cons, Builder.enter, Builder.step_closing, ih]
    simp [reverseOnto]

/-- Puts a text before a forest, joined with a text that comes first. -/
def joinText (shown : Text) : Forest → Forest
  | .node (.text next) children rest => .node (.text (shown ++ next)) children rest
  | forest => if shown = [] then forest else .node (.text shown) .nil forest

/-- A forest without empty texts, and with texts next to each other joined. -/
def joined : Forest → Forest
  | .nil => .nil
  | .node (.text shown) _ next => joinText shown next.joined
  | .node content children next => .node content children.joined next.joined

theorem joinText_eq {shown : Text} {forest : Forest} (h : forest.startsText = false) :
    joinText shown forest = if shown = [] then forest else .node (.text shown) .nil forest := by
  unfold joinText
  split
  next => cases h
  next => rfl

theorem markup_text (shown : Text) (children next : Forest) :
    (Forest.node (.text shown) children next).markup = shown ++ next.markup := by
  simp [markup_node, Content.opening, Content.showsChildren, Content.isElement, Content.element?]

theorem markup_joinText (shown : Text) (forest : Forest) :
    (joinText shown forest).markup = shown ++ forest.markup := by
  unfold joinText
  split
  next => rw [markup_text, markup_text, List.append_assoc]
  next =>
    split
    next h => rw [h, List.nil_append]
    next => rw [markup_text]

theorem markup_joined (forest : Forest) : forest.joined.markup = forest.markup := by
  fun_induction joined forest with
  | case1 => rfl
  | case2 shown children next ih => rw [markup_joinText, ih, markup_text]
  | case3 content children next _ ihc ih => rw [markup_node, markup_node, ihc, ih]

theorem Writable.joinText {shown : Text} {forest : Forest} (hs : '<' ∉ shown)
    (h : forest.Writable) : (forest.joinText shown).Writable := by
  cases starts : forest.startsText with
  | true =>
    cases h with
    | text hshown hnext => exact .text (by simp [hs, hshown]) hnext
    | _ => cases starts
  | false =>
    rw [joinText_eq starts]
    split
    next => exact h
    next => exact .text hs h

theorem Writable.joined {forest : Forest} (h : forest.Writable) : forest.joined.Writable := by
  induction h with
  | nil => exact .nil
  | text hshown _ ih => exact ih.joinText hshown
  | verbatim hs _ ih => exact .verbatim hs ih
  | single he hform _ ih => exact .single he hform ih
  | raw he hform hraw _ ih => exact .raw he hform hraw ih
  | @rawText e shown next he hform hraw hshown _ ih =>
    have hj : (Forest.node (.text shown) .nil .nil).joined =
        if shown = [] then .nil else .node (.text shown) .nil .nil := rfl
    rw [Forest.joined, hj]
    · split
      next => exact .raw he hform hraw ih
      next => exact .rawText he hform hraw hshown ih
    · nofun
  | normal he hform hraw _ _ ihc ih => exact .normal he hform hraw ihc ih

theorem textsApart_joinText (shown : Text) {forest : Forest} (h : forest.TextsApart) :
    (joinText shown forest).TextsApart := by
  cases hs : forest.startsText with
  | true =>
    unfold startsText at hs
    split at hs
    next next children rest =>
      obtain ⟨hne, hrest⟩ := h
      exact ⟨by simp [hne], hrest⟩
    next => cases hs
  | false =>
    rw [joinText_eq hs]
    split
    next => exact h
    next hne => exact ⟨hne, hs, trivial, h⟩

theorem textsApart_joined (forest : Forest) : forest.joined.TextsApart := by
  fun_induction joined forest with
  | case1 => trivial
  | case2 shown children next ih => exact textsApart_joinText shown ih
  | case3 content children next hc ihc ih =>
    cases content with
    | text shown => exact absurd rfl (hc shown)
    | verbatim | element => exact ⟨ihc, ih⟩

/-- What is read back has its texts joined. -/
theorem readForest_markup_joined {forest : Forest} (h : forest.Writable) :
    readForest forest.markup = (forest.joined, []) := by
  have read : MarkupTemplate.tokens forest.markup = forest.joined.tokens := by
    have stop : ∀ c ∈ List.head? ([] : Text), c = '<' := by simp
    rw [← markup_joined]
    simpa [MarkupTemplate.tokens, tokensIn] using
      tokensIn_markup h.joined (textsApart_joined forest) stop
  have order : (forest.joined.reverseOnto .nil).reverseOnto .nil = forest.joined := by
    rw [reverseOnto_reverseOnto, append_nil]
    rfl
  calc
    readForest forest.markup = (forest.joined.tokens.foldl Builder.step {}).finish := by
      rw [readForest, read]
    _ = Builder.finish { nodes := forest.joined.reverseOnto .nil } := by
      rw [foldl_tokens h.joined]
    _ = ((forest.joined.reverseOnto .nil).reverseOnto .nil, []) := rfl
    _ = (forest.joined, []) := by rw [order]

theorem joined_of_textsApart {forest : Forest} (h : forest.Writable) (ha : forest.TextsApart) :
    forest.joined = forest := by
  induction h with
  | nil => rfl
  | text _ _ ih =>
    obtain ⟨hne, hs, _, ha⟩ := ha
    rw [joined, ih ha, joinText_eq hs, if_neg hne]
  | rawText _ _ _ _ _ ih =>
    obtain ⟨⟨hne, _⟩, ha⟩ := ha
    rw [joined, joined, joined, ih ha, joinText_eq rfl, if_neg hne]
    all_goals nofun
  | normal _ _ _ _ _ ihc ih =>
    rw [joined, ihc ha.1, ih ha.2]
    nofun
  | verbatim _ _ ih | single _ _ _ ih | raw _ _ _ _ ih =>
    rw [joined, joined, ih ha.2]
    nofun

theorem readForest_markup {forest : Forest} (h : forest.Writable) (ha : forest.TextsApart) :
    readForest forest.markup = (forest, []) := by
  rw [readForest_markup_joined h, joined_of_textsApart h ha]

end Forest

theorem isComment_of_notMem {inner : Text} (h : '>' ∉ inner) :
    IsComment ("<!--".toList ++ inner ++ "-->".toList) := by
  refine ⟨inner, rfl, ?_⟩
  intro before after he
  rcases List.eq_nil_or_concat after with hnil | ⟨most, c, rfl⟩
  · exact hnil
  · exfalso
    have hsplit : (inner ++ ['-', '-']) ++ ['>'] = (before ++ "-->".toList ++ most) ++ [c] := by
      simpa using he
    have hmost := (List.append_inj' hsplit rfl).1
    have hmem : '>' ∈ inner ++ ['-', '-'] := by
      rw [hmost]
      simp
    simp [h] at hmem

theorem lacksEndOf_of_notMem {name text : Text} (h : '/' ∉ text) : LacksEndOf name text := by
  rintro before after rfl
  simp at h

/-- Nodes of all kinds, elements of all forms and attributes of all kinds. -/
def sampleForest : Forest :=
  .node (.verbatim "<!doctype html>".toList) .nil <|
  .node (.verbatim ("<!--".toList ++ " a < b ".toList ++ "-->".toList)) .nil <|
  .node (.element ⟨"p".toList, [⟨"hidden".toList, .bare⟩, ⟨"id".toList, .unquoted "a/".toList⟩,
      ⟨"class".toList, .quoted .double "it's".toList⟩], .normal⟩)
    (.node (.text "x > y".toList) .nil <|
      .node (.element ⟨"BR".toList, [], .void⟩) .nil <|
      .node (.element ⟨"a:b".toList, [⟨"c".toList, .quoted .single "/>".toList⟩], .selfClosed⟩)
        .nil .nil) <|
  .node (.element ⟨"script".toList, [], .normal⟩)
    (.node (.text "if (a < b) c()".toList) .nil .nil) .nil

theorem sampleForest_writable : sampleForest.Writable := by
  apply Forest.Writable.verbatim
  · exact .inr ⟨'!', "doctype html".toList, .inl rfl, rfl, by decide, by decide⟩
  apply Forest.Writable.verbatim
  · exact .inl (isComment_of_notMem (by decide))
  apply Forest.Writable.normal
  · refine ⟨⟨'p', rfl, by decide⟩, List.all_eq_true.mp (by decide), ?_, by decide, nofun⟩
    intro attr hattr
    simp only [List.mem_cons, List.not_mem_nil, or_false] at hattr
    rcases hattr with rfl | rfl | rfl
    · exact ⟨by decide, List.all_eq_true.mp (by decide), trivial⟩
    · refine ⟨by decide, List.all_eq_true.mp (by decide), by decide,
        List.all_eq_true.mp (by decide), ?_⟩
      rintro (_ | _) <;> decide
    · exact ⟨by decide, List.all_eq_true.mp (by decide),
        by unfold AttributeValue.Writable; decide⟩
  · rfl
  · decide
  · apply Forest.Writable.text (by decide)
    apply Forest.Writable.single
    · exact ⟨⟨'B', rfl, by decide⟩, List.all_eq_true.mp (by decide), nofun, by decide, nofun⟩
    · decide
    apply Forest.Writable.single
    · refine ⟨⟨'a', rfl, by decide⟩, List.all_eq_true.mp (by decide), ?_, nofun, ?_⟩
      · intro attr hattr
        obtain rfl := List.mem_singleton.mp hattr
        exact ⟨by decide, List.all_eq_true.mp (by decide),
        by unfold AttributeValue.Writable; decide⟩
      · intro _ attr hattr
        obtain rfl := Option.some.inj hattr
        nofun
    · decide
    exact .nil
  apply Forest.Writable.rawText
  · exact ⟨⟨'s', rfl, by decide⟩, List.all_eq_true.mp (by decide), nofun, by decide, nofun⟩
  · rfl
  · decide
  · exact lacksEndOf_of_notMem (by decide)
  exact .nil

theorem Forest.readForest_markup_sample :
    sampleForest.Writable ∧ sampleForest.TextsApart ∧
      readForest sampleForest.markup = (sampleForest, []) := by
  have apart : sampleForest.TextsApart := by
    simp [sampleForest, TextsApart, startsText]
  exact ⟨sampleForest_writable, apart, readForest_markup sampleForest_writable apart⟩

end MarkupTemplate
