import MarkupTemplate.Proofs.Markup.Writable

namespace MarkupTemplate

theorem cut?_append {mark before : Text} (hm : mark ≠ [])
    (first : ∀ b a, before ++ mark = b ++ mark ++ a → a = []) (after : Text) :
    cut? mark (before ++ mark ++ after) = some (before, after) := by
  induction before with
  | nil =>
    cases mark with
    | nil => exact absurd rfl hm
    | cons c mark =>
      have hp : (c :: mark).isPrefixOf (c :: (mark ++ after)) = true :=
        List.isPrefixOf_iff_prefix.mpr ⟨after, by simp⟩
      simp [cut?, hp]
  | cons c before ih =>
    have hp : mark.isPrefixOf (c :: (before ++ mark ++ after)) = false := by
      apply Bool.eq_false_iff.mpr
      intro h
      have hpre : mark <+: (c :: (before ++ mark)) ++ after := by
        simpa using List.isPrefixOf_iff_prefix.mp h
      obtain ⟨tail, ht⟩ := List.prefix_of_prefix_length_le hpre (List.prefix_append _ _)
        (by simp only [List.length_cons, List.length_append]; omega)
      have hnil := first [] tail (by simpa using ht.symm)
      have hlen := congrArg List.length ht
      simp only [hnil, List.append_nil, List.length_cons, List.length_append] at hlen
      omega
    have rest := ih fun b a h => first (c :: b) a (by simp [h])
    simp only [List.cons_append, cut?, hp, Bool.false_eq_true, if_false, rest]

theorem cut?_char {c : Char} {before : Text} (h : c ∉ before) (after : Text) :
    cut? [c] (before ++ c :: after) = some (before, after) := by
  induction before with
  | nil => simp [cut?]
  | cons d before ih =>
    have hd : c ≠ d := fun he => h (by simp [he])
    have hb : c ∉ before := fun hm => h (List.mem_cons_of_mem _ hm)
    have hp : [c].isPrefixOf (d :: (before ++ c :: after)) = false := by
      simp [List.isPrefixOf, hd]
    simp only [List.cons_append, cut?, hp, Bool.false_eq_true, if_false, ih hb]

theorem span_append {p : Char → Bool} {text rest : Text} (inside : ∀ c ∈ text, p c = true)
    (stop : ∀ c ∈ rest.head?, p c = false) :
    (text ++ rest).takeWhile p = text ∧ (text ++ rest).dropWhile p = rest := by
  rw [List.takeWhile_append_of_pos inside, List.dropWhile_append_of_pos inside]
  cases rest with
  | nil => simp
  | cons c rest => simp [stop c rfl]

theorem spanName_append {name rest : Text} (chars : ∀ c ∈ name, inName c = true)
    (stop : ∀ c ∈ rest.head?, inName c = false) : spanName (name ++ rest) = (name, rest) := by
  obtain ⟨htake, hdrop⟩ := span_append chars stop
  rw [spanName, htake, hdrop]

theorem skipSpace_of_head {text : Text} (h : ∀ c ∈ text.head?, isTagSpace c = false) :
    skipSpace text = text := by
  cases text with
  | nil => rfl
  | cons c text => simp [skipSpace, h c rfl]

theorem isTagSpace_eq_false_of_inName {c : Char} (h : inName c = true) : isTagSpace c = false := by
  simp only [inName, Bool.not_eq_true', Bool.or_eq_false_iff] at h
  exact h.1.1.1

theorem inName_of_startsName {c : Char} (h : startsName c = true) : inName c = true := by
  simp only [inName, isTagSpace, Bool.not_eq_true', Bool.or_eq_false_iff, beq_eq_false_iff_ne]
  refine ⟨⟨⟨⟨⟨⟨⟨?_, ?_⟩, ?_⟩, ?_⟩, ?_⟩, ?_⟩, ?_⟩, ?_⟩
  all_goals
    rintro rfl
    exact absurd h (by decide)

theorem ne_of_inName {c : Char} (h : inName c = true) : c ≠ '/' ∧ c ≠ '>' ∧ c ≠ '=' := by
  simp only [inName, Bool.not_eq_true', Bool.or_eq_false_iff, beq_eq_false_iff_ne] at h
  exact ⟨h.1.1.2, h.1.2, h.2⟩

theorem readValue?_quoted {quote : Quote} {text : Text} (h : quote.char ∉ text) (rest : Text) :
    readValue? (quote.char :: (text ++ quote.char :: rest)) = some (.quoted quote text, rest) := by
  cases quote <;> simp only [Quote.char, readValue?] at h ⊢ <;> rw [cut?_char h] <;> rfl

theorem readValue?_unquoted {text rest : Text} (h : (AttributeValue.unquoted text).Writable)
    (stop : ∀ c ∈ rest.head?, inValue c = false) :
    readValue? (text ++ rest) = some (.unquoted text, rest) := by
  obtain ⟨hne, hchars, hquote⟩ := h
  obtain ⟨c, text, rfl⟩ := List.exists_cons_of_ne_nil hne
  have hdouble : c ≠ '"' := fun h => hquote .double (by simp [h, Quote.char])
  have hsingle : c ≠ '\'' := fun h => hquote .single (by simp [h, Quote.char])
  have value : readValue? (c :: text ++ rest) =
      some (.unquoted ((c :: text ++ rest).takeWhile inValue),
        (c :: text ++ rest).dropWhile inValue) := by
    simp only [List.cons_append, readValue?]
    split
    next => simp_all
    next => simp_all
    next => simp_all
    next => rfl
  obtain ⟨htake, hdrop⟩ := span_append hchars stop
  rw [value, htake, hdrop]

/-- What may stand after an attribute in a tag: a space before the next one, or the end. -/
def EndsAttribute (rest : Text) : Prop :=
  (∃ c tail, rest = ' ' :: c :: tail ∧ inName c = true) ∨ rest.head? = some '>' ∨
    ∃ tail, rest = '/' :: '>' :: tail

theorem EndsAttribute.not_inName {rest : Text} (h : EndsAttribute rest) :
    ∀ c ∈ rest.head?, inName c = false := by
  intro c hc
  rcases h with ⟨d, tail, rfl, _⟩ | h | ⟨tail, rfl⟩
  · cases Option.some.inj hc
    decide
  · cases Option.some.inj (h.symm.trans hc)
    decide
  · cases Option.some.inj hc
    decide

theorem EndsAttribute.skipSpace_ne {rest : Text} (h : EndsAttribute rest) (tail : Text) :
    skipSpace rest ≠ '=' :: tail := by
  rcases h with ⟨c, t, rfl, hc⟩ | h | ⟨t, rfl⟩
  · have hs : skipSpace (' ' :: c :: t) = c :: t := by
      have hb : isTagSpace ' ' = true := by decide
      simp [skipSpace, hb, isTagSpace_eq_false_of_inName hc]
    rw [hs]
    intro he
    exact (ne_of_inName hc).2.2 (List.cons.inj he).1
  · obtain ⟨t, rfl⟩ := List.head?_eq_some_iff.mp h
    rw [skipSpace_of_head (by simp; decide)]
    simp
  · rw [skipSpace_of_head (by simp; decide)]
    simp

theorem readAttribute?_bare {text name rest : Text} (span : spanName text = (name, rest))
    (hne : name ≠ []) (h : ∀ after, skipSpace rest ≠ '=' :: after) :
    readAttribute? text = some (⟨name, .bare⟩, rest) := by
  have he : name.isEmpty = false := by simpa using hne
  simp only [readAttribute?, span, he, Bool.false_eq_true, if_false]

theorem readAttribute?_valued {text name rest after : Text} (span : spanName text = (name, rest))
    (hne : name ≠ []) (h : skipSpace rest = '=' :: after) :
    readAttribute? text =
      (readValue? (skipSpace after)).map fun found => (⟨name, found.1⟩, found.2) := by
  have he : name.isEmpty = false := by simpa using hne
  simp only [readAttribute?, span, he, Bool.false_eq_true, if_false, h]

/-- An attribute without the space before it reads as itself. -/
theorem readAttribute?_markup {attr : Attribute} (h : attr.Writable) {rest : Text}
    (ends : EndsAttribute rest)
    (unquoted : ∀ text, attr.value = .unquoted text → ∀ c ∈ rest.head?, inValue c = false) :
    readAttribute? (attr.markup.tail ++ rest) = some (attr, rest) := by
  obtain ⟨name, value⟩ := attr
  cases value with
  | bare =>
    have span : spanName (name ++ rest) = (name, rest) :=
      spanName_append h.name_chars ends.not_inName
    have he : (Attribute.markup ⟨name, .bare⟩).tail ++ rest = name ++ rest := by
      simp [Attribute.markup]
    rw [he]
    exact readAttribute?_bare span h.name_ne ends.skipSpace_ne
  | unquoted text =>
    have span : spanName (name ++ '=' :: (text ++ rest)) = (name, '=' :: (text ++ rest)) :=
      spanName_append h.name_chars (by simp; decide)
    have he : (Attribute.markup ⟨name, .unquoted text⟩).tail ++ rest =
        name ++ '=' :: (text ++ rest) := by
      simp [Attribute.markup]
    have hv := h.value
    have hspace : skipSpace (text ++ rest) = text ++ rest := by
      obtain ⟨c, text, rfl⟩ := List.exists_cons_of_ne_nil hv.1
      have hc := hv.2.1 c (by simp)
      apply skipSpace_of_head
      simpa [inValue] using (by simpa [inValue] using hc : isTagSpace c = false ∧ ¬c = '>').1
    have hequal : skipSpace ('=' :: (text ++ rest)) = '=' :: (text ++ rest) :=
      skipSpace_of_head (by simp; decide)
    rw [he, readAttribute?_valued span h.name_ne hequal, hspace,
      readValue?_unquoted hv (unquoted text rfl)]
    rfl
  | quoted quote text =>
    have span : spanName (name ++ '=' :: quote.char :: (text ++ quote.char :: rest)) =
        (name, '=' :: quote.char :: (text ++ quote.char :: rest)) :=
      spanName_append h.name_chars (by simp; decide)
    have he : (Attribute.markup ⟨name, .quoted quote text⟩).tail ++ rest =
        name ++ '=' :: quote.char :: (text ++ quote.char :: rest) := by
      simp [Attribute.markup]
    have hequal : skipSpace ('=' :: quote.char :: (text ++ quote.char :: rest)) =
        '=' :: quote.char :: (text ++ quote.char :: rest) :=
      skipSpace_of_head (by simp; decide)
    have hspace : skipSpace (quote.char :: (text ++ quote.char :: rest)) =
        quote.char :: (text ++ quote.char :: rest) :=
      skipSpace_of_head (by cases quote <;> simp [Quote.char] <;> decide)
    rw [he, readAttribute?_valued span h.name_ne hequal, hspace,
      readValue?_quoted (h.value : quote.char ∉ text)]
    rfl

theorem readAttributes?_end {text rest : Text} (h : skipSpace text = '>' :: rest) :
    readAttributes? text = some (([], false), rest) := by
  rw [readAttributes?]
  split <;> simp_all

theorem readAttributes?_selfClosing {text rest : Text} (h : skipSpace text = '/' :: '>' :: rest) :
    readAttributes? text = some (([], true), rest) := by
  rw [readAttributes?]
  split <;> simp_all

/-- What begins neither the end of a tag nor a slash must be an attribute. -/
theorem readAttributes?_other {text rest : Text} {c : Char}
    (h : skipSpace text = c :: rest) (hslash : c ≠ '/') (hend : c ≠ '>') :
    readAttributes? text = (readAttribute? (c :: rest)).bind fun (attr, after) =>
      (readAttributes? after).map fun found => ((attr :: found.1.1, found.1.2), found.2) := by
  rw [readAttributes?]
  split
  next hs => cases h.symm.trans hs
  next tail hs =>
    cases h.symm.trans hs
    exact absurd rfl hend
  next tail hs =>
    cases h.symm.trans hs
    exact absurd rfl hslash
  next tail _ hs =>
    cases h.symm.trans hs
    exact absurd rfl hslash
  next d tail _ _ _ hs =>
    cases h.symm.trans hs
    split
    next hn => rw [hn, Option.bind_none]
    next attr after hf => simp only [hf, Option.bind_some]

theorem readAttributes?_attribute {text after rest : Text} {c : Char} {attr : Attribute}
    (h : skipSpace text = c :: rest) (hslash : c ≠ '/') (hend : c ≠ '>')
    (ha : readAttribute? (c :: rest) = some (attr, after)) :
    readAttributes? text = (readAttributes? after).map fun found =>
      ((attr :: found.1.1, found.1.2), found.2) := by
  rw [readAttributes?_other h hslash hend, ha, Option.bind_some]

/-- The end of a start tag. -/
def tagEnd (selfClosing : Bool) : Text :=
  if selfClosing then ['/', '>'] else ['>']

theorem endsAttribute_tagEnd (selfClosing : Bool) (after : Text) :
    EndsAttribute (tagEnd selfClosing ++ after) := by
  cases selfClosing with
  | false => exact .inr (.inl rfl)
  | true => exact .inr (.inr ⟨after, rfl⟩)

theorem Attribute.markup_eq {attr : Attribute} (hne : attr.name ≠ [])
    (chars : ∀ c ∈ attr.name, inName c = true) :
    ∃ c tail, attr.markup = ' ' :: c :: tail ∧ inName c = true := by
  obtain ⟨c, name, hn⟩ := List.exists_cons_of_ne_nil hne
  obtain ⟨rest, hr⟩ : ∃ rest, attr.markup = ' ' :: (attr.name ++ rest) := ⟨_, rfl⟩
  exact ⟨c, name ++ rest, by rw [hr, hn]; rfl, chars c (by simp [hn])⟩

theorem Attribute.Writable.markup_eq {attr : Attribute} (h : attr.Writable) :
    ∃ c tail, attr.markup = ' ' :: c :: tail ∧ inName c = true :=
  Attribute.markup_eq h.name_ne h.name_chars

theorem readAttributes?_space {c : Char} (hc : inName c = true) {rest after : Text}
    {attr : Attribute} (h : readAttribute? (c :: rest) = some (attr, after)) :
    readAttributes? (' ' :: c :: rest) = (readAttributes? after).map fun found =>
      ((attr :: found.1.1, found.1.2), found.2) := by
  have space : skipSpace (' ' :: c :: rest) = c :: rest := by
    have hb : isTagSpace ' ' = true := by decide
    simp [skipSpace, hb, isTagSpace_eq_false_of_inName hc]
  exact readAttributes?_attribute space (ne_of_inName hc).1 (ne_of_inName hc).2.1 h

/-- An attribute is read back in front of what is read after it. -/
theorem readAttributes?_markup_append {attr : Attribute} (h : attr.Writable) {rest after : Text}
    {found : List Attribute × Bool} (ends : EndsAttribute rest)
    (unquoted : ∀ text, attr.value = .unquoted text → ∀ c ∈ rest.head?, inValue c = false)
    (hr : readAttributes? rest = some (found, after)) :
    readAttributes? (attr.markup ++ rest) = some ((attr :: found.1, found.2), after) := by
  obtain ⟨c, tail, hm, hc⟩ := h.markup_eq
  have read := readAttribute?_markup h ends unquoted
  rw [hm, List.tail_cons, List.cons_append] at read
  rw [hm, List.cons_append, List.cons_append, readAttributes?_space hc read, hr]
  rfl

theorem endsAttribute_markup {attr : Attribute} (hne : attr.name ≠ [])
    (chars : ∀ c ∈ attr.name, inName c = true) (rest : Text) :
    EndsAttribute (attr.markup ++ rest) := by
  obtain ⟨c, tail, hm, hc⟩ := attr.markup_eq hne chars
  exact .inl ⟨c, tail ++ rest, by simp [hm], hc⟩

theorem inValue_eq_false_of_markup (attr : Attribute) (rest : Text) :
    ∀ c ∈ (attr.markup ++ rest).head?, inValue c = false := by
  intro c hc
  cases Option.some.inj (hc : some ' ' = some c)
  decide

theorem readAttributes?_markup {attributes : List Attribute} {selfClosing : Bool}
    (h : ∀ attr ∈ attributes, attr.Writable)
    (last : selfClosing = true → ∀ attr ∈ attributes.getLast?, ∀ text,
      attr.value ≠ .unquoted text)
    (after : Text) :
    readAttributes? (attributes.flatMap Attribute.markup ++ (tagEnd selfClosing ++ after)) =
      some ((attributes, selfClosing), after) := by
  induction attributes with
  | nil =>
    cases selfClosing with
    | false =>
      apply readAttributes?_end
      exact skipSpace_of_head (by simp [tagEnd]; decide)
    | true =>
      apply readAttributes?_selfClosing
      exact skipSpace_of_head (by simp [tagEnd]; decide)
  | cons attr attributes ih =>
    have hattr := h attr List.mem_cons_self
    have hrest := fun a ha => h a (List.mem_cons_of_mem _ ha)
    rw [List.flatMap_cons, List.append_assoc]
    cases attributes with
    | nil =>
      refine readAttributes?_markup_append hattr (endsAttribute_tagEnd selfClosing after) ?_
        (ih hrest fun _ _ ha => by cases ha)
      intro text hv c hc
      cases selfClosing with
      | false =>
        cases Option.some.inj hc
        decide
      | true => exact absurd hv (last rfl attr rfl text)
    | cons next others =>
      have hnext := hrest next List.mem_cons_self
      have read := ih hrest fun hs a ha => last hs a (by simpa using ha)
      rw [List.flatMap_cons, List.append_assoc] at read ⊢
      exact readAttributes?_markup_append hattr
        (endsAttribute_markup hnext.name_ne hnext.name_chars _)
        (fun _ _ => inValue_eq_false_of_markup next _) read

theorem startsName_ne {c : Char} (h : startsName c = true) : c ≠ '!' ∧ c ≠ '?' ∧ c ≠ '/' := by
  refine ⟨?_, ?_, ?_⟩ <;>
  · rintro rfl
    exact absurd h (by decide)

theorem readMarkup?_opening {c : Char} (h : startsName c = true) (rest : Text) :
    readMarkup? ('<' :: c :: rest) = readOpening? (c :: rest) := by
  obtain ⟨hmark, hask, hslash⟩ := startsName_ne h
  unfold readMarkup?
  split
  next he => exact absurd (List.cons.inj (List.cons.inj he).2).1 hmark
  next he => exact absurd (List.cons.inj (List.cons.inj he).2).1 hmark
  next he => exact absurd (List.cons.inj (List.cons.inj he).2).1 hask
  next he => exact absurd (List.cons.inj (List.cons.inj he).2).1 hslash
  next he => rw [← (List.cons.inj he).2]
  next he => exact absurd rfl (he (c :: rest))

theorem Element.startTag_eq (e : Element) (after : Text) :
    e.startTag ++ after =
      '<' :: (e.name ++ (e.attributes.flatMap Attribute.markup ++
        (tagEnd (e.form == .selfClosed) ++ after))) := by
  by_cases h : e.form = .selfClosed <;> simp [startTag, tagEnd, h]

/-- A start tag is read as its name, and then its attributes. -/
theorem readMarkup?_name {name : Text} (hstart : ∃ c, name.head? = some c ∧ startsName c = true)
    (chars : ∀ c ∈ name, inName c = true) (attributes : List Attribute) (selfClosing : Bool)
    (after : Text) :
    readMarkup?
        ('<' :: (name ++ (attributes.flatMap Attribute.markup ++ (tagEnd selfClosing ++ after)))) =
      (readAttributes? (attributes.flatMap Attribute.markup ++ (tagEnd selfClosing ++ after))).map
        fun found => (.opening name found.1.1 found.1.2, found.2) := by
  obtain ⟨c, hc, hstarts⟩ := hstart
  obtain ⟨tail, hname⟩ := List.head?_eq_some_iff.mp hc
  have stop : ∀ c ∈ (attributes.flatMap Attribute.markup ++ (tagEnd selfClosing ++ after)).head?,
      inName c = false := by
    intro c hc
    cases attributes with
    | nil => exact (endsAttribute_tagEnd selfClosing after).not_inName c hc
    | cons attr others =>
      cases Option.some.inj (hc : some ' ' = some c)
      decide
  have span := spanName_append chars stop
  rw [hname, List.cons_append] at span ⊢
  rw [readMarkup?_opening hstarts]
  simp only [readOpening?, hstarts, if_true, span]

theorem readMarkup?_startTag {e : Element} (h : e.Writable) (after : Text) :
    readMarkup? (e.startTag ++ after) =
      some (.opening e.name e.attributes (e.form == .selfClosed), after) := by
  have last : (e.form == .selfClosed) = true → ∀ attr ∈ e.attributes.getLast?, ∀ text,
      attr.value ≠ .unquoted text := fun hs => h.last (by simpa using hs)
  rw [e.startTag_eq, readMarkup?_name h.name_starts h.name_chars,
    readAttributes?_markup h.attributes last after]
  rfl

theorem readMarkup?_endTag {e : Element} (h : e.Writable) (after : Text) :
    readMarkup? (e.endTag ++ after) = some (.closing e.name, after) := by
  obtain ⟨c, hc, hstarts⟩ := h.name_starts
  obtain ⟨name, hname⟩ := List.head?_eq_some_iff.mp hc
  have span : spanName (e.name ++ '>' :: after) = (e.name, '>' :: after) :=
    spanName_append h.name_chars (by simp; decide)
  have hcut : cut? ['>'] ('>' :: after) = some ([], after) :=
    cut?_char List.not_mem_nil after
  have heq : e.endTag ++ after = '<' :: '/' :: (e.name ++ '>' :: after) := by
    simp [Element.endTag]
  rw [heq]
  rw [hname, List.cons_append] at span ⊢
  simp only [readMarkup?, readClosing?, hstarts, if_true, span, hcut, Option.map_some]

theorem readMarkup?_comment {source : Text} (h : IsComment source) (after : Text) :
    readMarkup? (source ++ after) = some (.comment source, after) := by
  obtain ⟨inner, rfl, first⟩ := h
  have hmark : "-->".toList ≠ [] := by decide
  have hcut := cut?_append hmark first after
  have heq : "<!--".toList ++ inner ++ "-->".toList ++ after =
      '<' :: '!' :: '-' :: '-' :: (inner ++ "-->".toList ++ after) := by
    simp
  rw [heq]
  simp only [readMarkup?]
  rw [hcut]
  rfl

theorem readMarkup?_declaration {source : Text} (h : IsDeclaration source) (after : Text) :
    readMarkup? (source ++ after) = some (.declaration source, after) := by
  obtain ⟨mark, inner, hmark, rfl, hinner, hcomment⟩ := h
  have hcut : cut? ['>'] (inner ++ '>' :: after) = some (inner, after) := cut?_char hinner after
  have heq : '<' :: mark :: inner ++ ['>'] ++ after = '<' :: mark :: (inner ++ '>' :: after) := by
    simp
  rw [heq]
  rcases hmark with rfl | rfl
  · unfold readMarkup?
    split
    next rest he =>
      exfalso
      apply hcomment
      have hd : inner ++ '>' :: after = '-' :: '-' :: rest :=
        (List.cons.inj (List.cons.inj he).2).2
      match inner, hd with
      | [], hd => exact absurd (List.cons.inj hd).1 (by decide)
      | [_], hd => exact absurd (List.cons.inj (List.cons.inj hd).2).1 (by decide)
      | a :: b :: inner, hd =>
        have ha : a = '-' := (List.cons.inj hd).1
        have hb : b = '-' := (List.cons.inj (List.cons.inj hd).2).1
        subst ha hb
        exact ⟨inner ++ ['>'], rfl⟩
    next rest _ he =>
      rw [← (List.cons.inj (List.cons.inj he).2).2, hcut]
      rfl
    next he => exact absurd (List.cons.inj (List.cons.inj he).2).1 (by decide)
    next he => exact absurd (List.cons.inj (List.cons.inj he).2).1 (by decide)
    next hn _ _ he => exact absurd (List.cons.inj he).2.symm (hn _)
    next hn => exact absurd rfl (hn _)
  · simp only [readMarkup?, hcut, Option.map_some]

theorem readMarkup?_text {c : Char} (h : c ≠ '<') (rest : Text) :
    readMarkup? (c :: rest) = none := by
  unfold readMarkup?
  split
  next he => exact absurd (List.cons.inj he).1 h
  next he => exact absurd (List.cons.inj he).1 h
  next he => exact absurd (List.cons.inj he).1 h
  next he => exact absurd (List.cons.inj he).1 h
  next he => exact absurd (List.cons.inj he).1 h
  next => rfl

theorem tokensIn_cons {raw : Option Text} {c : Char} {rest after : Text} {token : Token}
    (h : nextToken raw c rest = (token, after)) :
    tokensIn raw (c :: rest) = token :: tokensIn token.rawText? after := by
  rw [tokensIn]
  split
  next found tail hf =>
    cases h.symm.trans hf
    rfl

theorem tokensIn_of_readMarkup? {text after : Text} {token : Token}
    (h : readMarkup? text = some (token, after)) :
    tokensIn none text = token :: tokensIn token.rawText? after := by
  cases text with
  | nil => simp [readMarkup?] at h
  | cons c rest => exact tokensIn_cons (by simp [nextToken, readToken, h])

theorem tokensIn_text {shown after : Text} (hne : shown ≠ []) (hshown : '<' ∉ shown)
    (stop : ∀ c ∈ after.head?, c = '<') :
    tokensIn none (shown ++ after) = .text shown :: tokensIn none after := by
  obtain ⟨c, shown, rfl⟩ := List.exists_cons_of_ne_nil hne
  have hc : c ≠ '<' := fun he => hshown (by simp [he])
  have hrest : ∀ d ∈ shown, (d != '<') = true := by
    intro d hd
    simp only [bne_iff_ne, ne_eq]
    rintro rfl
    exact hshown (List.mem_cons_of_mem _ hd)
  have hstop : ∀ d ∈ after.head?, (d != '<') = false := by simpa using stop
  obtain ⟨htake, hdrop⟩ := span_append hrest hstop
  rw [List.cons_append]
  apply tokensIn_cons
  simp only [nextToken, readToken, readMarkup?_text hc, Option.getD_none, readText, htake, hdrop]

end MarkupTemplate
