import MarkupTemplate.Proofs.Render.PlaceOfInclude

namespace MarkupTemplate

open Forest

variable {context : Context} {part : Part context}

/-- The document as it is read, and the pass over its loops. -/
def documentReading (context : Context) (model : Model) (compiled : Text) : Reading :=
  ⟨compiled, documentPass context model compiled⟩

theorem render?_of_resolveDocument {depth : Nat} {model : Model} {compiled : Text} {run : Run}
    {forest : Forest} (h : resolveDocument context depth model compiled = some (run, forest)) :
    ∃ rendering, render? context depth model compiled = some rendering ∧
      rendering.text = substitute run.model forest.markup := by
  rw [render?, h]
  exact ⟨_, rfl, rfl⟩

/-- What is filled ahead makes no difference in the last pass if no value comes to stand in a
placeholder with a value. -/
theorem render?_text_of_filledAhead {depth : Nat} {model : Model} {compiled compiled' : Text}
    {run run' : Run} {forest forest' : Forest} {may : Text → Prop}
    (h : resolveDocument context depth model compiled = some (run, forest))
    (h' : resolveDocument context depth model compiled' = some (run', forest'))
    (ahead : Ahead run run')
    (filled : FilledAhead (Lasting run.model may) forest.markup forest'.markup)
    (unnested : Unnested run.model may forest.markup) :
    ∃ rendering rendering', render? context depth model compiled = some rendering ∧
      render? context depth model compiled' = some rendering' ∧
      rendering'.text = rendering.text := by
  obtain ⟨rendering, hr, ht⟩ := render?_of_resolveDocument h
  obtain ⟨rendering', hr', ht'⟩ := render?_of_resolveDocument h'
  exact ⟨rendering, rendering', hr, hr',
    by rw [ht, ht', ahead.model, filled.substitute_eq unnested]⟩

/-- The pass of a document with the text of the part in the place of an include of it. -/
theorem documentPass_unfolds (fills : Text → Text → Prop) {before text after : Text} {e : Element}
    {model : Model} {looped : Prop} (whole : Whole before) (alone : e.Childless text)
    (inclusion : e.isInclusion = true) (sheltered : Sheltered (openAfter before))
    (asked : (∀ o ∈ openAfter before, o.isLoop = false) → part.AskedBy e)
    (hd : ∀ o ∈ openAfter before, o.isLoop = true → looped)
    (left : (documentPass context model (before ++ (text ++ after))).1.budget ≠ .spent) :
    Ahead (documentPass context model (before ++ (text ++ after))).1
        (documentPass context model (before ++ (part.text ++ after))).1 ∧
      Unfolds part model fills looped false
        (documentPass context model (before ++ (text ++ after))).2
        (documentPass context model (before ++ (part.text ++ after))).2 := by
  have start (text text' : Text) : Ahead (Run.read (.start context model) text).1
      (Run.read (.start context model) text').1 := ⟨rfl, _, _, rfl, rfl, Nat.le_refl _⟩
  have unfolds : Unfolds part model (fun _ _ => False) looped true
      (readForest (before ++ (text ++ after))).1 (readForest (before ++ (part.text ++ after))).1 :=
    unfolds_of_childless whole alone inclusion sheltered asked hd part.whole part.reads
      (.of_alike part.alike)
  obtain ⟨ahead, unfolds⟩ := unfolds.resolveTags (start _ (before ++ (part.text ++ after))) left
    (linksApart_of_none (fun _ _ => id) _)
  exact ⟨ahead, unfolds.restrict id fun _ _ _ => False.elim⟩

/-- Templates by their names, with a budget of ten steps. -/
def namedTemplates (templates : List (String × String)) : Context where
  template source := match templates.find? (·.1.toList = source) with
    | some (_, text) => .ok text.toList
    | none => .error (.notFound source)
  maxSteps := 10

/-- A document that includes the template `p`, with the budget that is left and its text, and the
text of the document in which the text of the template is in the place of the include. -/
def bothWays (templates : List (String × String)) (model : Model) (before after : String) :
    Option (Budget × Text × Text) := do
  let context := namedTemplates templates
  let part ← (context.template "p".toList).toOption
  let document := before.toList ++ "<include src=\"p\"/>".toList ++ after.toList
  let pass ← resolveDocument context 1 model document
  let rendering ← render? context 1 model document
  let rendering' ← render? context 1 model (before.toList ++ part ++ after.toList)
  return (pass.1.budget, rendering.text, rendering'.text)

/-- Two lists and some texts. -/
def listsAndTexts : Model :=
  .ofValue (.record [("a".toList, .list [.number (.integer 1), .text "z".toList]),
    ("one".toList, .list [.number (.integer 1)]), ("note".toList, .text []),
    ("u".toList, .text "2".toList), ("a2b".toList, .text "7".toList),
    ("quote".toList, .text "\"".toList)])

/-- A template for what is in a list, and one that puts what it gets in an element. -/
def cardTemplates : Context :=
  namedTemplates [("p", "<b>\x7by\x7d</b><i>\x7bnote\x7d</i><if none>\x7bx\x7d</if>"),
    ("q", "<div>\x7bt\x7d</div>")]

/-- The nodes of the first template with other texts. -/
def cardNodes (title note hidden : Text) : Forest :=
  .node (.element ⟨"b".toList, [], .normal⟩) (Forest.joinText title .nil)
    (.node (.element ⟨"i".toList, [], .normal⟩) (Forest.joinText note .nil)
      (.node (.element ⟨"if".toList, [⟨"none".toList, .bare⟩], .normal⟩)
        (Forest.joinText hidden .nil) .nil))

/-- The text of the first template with other texts. -/
def cardText (title note hidden : Text) : Text :=
  "<b>".toList ++ (title ++ ("</b>".toList ++ ("<i>".toList ++ (note ++ ("</i>".toList ++
    ("<if none>".toList ++ (hidden ++ ("</if>".toList ++ []))))))))

theorem whole_cardText {title note hidden : Text} (ht : '<' ∉ title) (hn : '<' ∉ note)
    (hh : '<' ∉ hidden) : Whole (cardText title note hidden) := by
  have bold : readMarkup? "<b>".toList = some (.opening "b".toList [] false, []) := by
    decide +kernel
  have boldEnd : readMarkup? "</b>".toList = some (.closing "b".toList, []) := by decide +kernel
  have italic : readMarkup? "<i>".toList = some (.opening "i".toList [] false, []) := by
    decide +kernel
  have italicEnd : readMarkup? "</i>".toList = some (.closing "i".toList, []) := by decide +kernel
  have condition : readMarkup? "<if none>".toList =
      some (.opening "if".toList [⟨"none".toList, .bare⟩] false, []) := by decide +kernel
  have conditionEnd : readMarkup? "</if>".toList = some (.closing "if".toList, []) := by
    decide +kernel
  exact .tag bold (by decide) (.text title ht (.tag boldEnd rfl (.tag italic (by decide)
    (.text note hn (.tag italicEnd rfl (.tag condition (by decide) (.text hidden hh
      (.tag conditionEnd rfl .nil))))))))

/-- The first template. -/
def cardPart : Part cardTemplates where
  source := "p".toList
  text := cardText "\x7by\x7d".toList "\x7bnote\x7d".toList "\x7bx\x7d".toList
  forest := cardNodes "\x7by\x7d".toList "\x7bnote\x7d".toList "\x7bx\x7d".toList
  template := by rfl
  whole := whole_cardText (by decide) (by decide) (by decide)
  reads := by decide +kernel
  fragment := by decide +kernel

/-- A loop over a name of the template, and another one up to an include of it. -/
def cardLoops : Text :=
  "<foreach val=\"y\" in=\"a\">-</foreach><foreach val=\"x\" in=\"a\">\x7bx\x7d".toList

/-- An argument up to an include. -/
def cardArgument : Text :=
  "<include src=\"q\"><arg t>".toList

/-- The include. -/
def cardInclude : Element :=
  ⟨"include".toList, [⟨"src".toList, .quoted .double "p".toList⟩], .selfClosed⟩

theorem cardInclude_childless : cardInclude.Childless "<include src=\"p\"/>".toList :=
  .selfClosed (by decide +kernel) rfl

theorem cardPart_askedBy : cardPart.AskedBy cardInclude :=
  ⟨by decide, by decide⟩

theorem cardLoops_whole : Whole cardLoops := by
  have first : readMarkup? cardLoops = some (.opening "foreach".toList
      [⟨"val".toList, .quoted .double "y".toList⟩, ⟨"in".toList, .quoted .double "a".toList⟩] false,
      "-</foreach><foreach val=\"x\" in=\"a\">\x7bx\x7d".toList) := by decide +kernel
  have ending : readMarkup? "</foreach><foreach val=\"x\" in=\"a\">\x7bx\x7d".toList =
      some (.closing "foreach".toList, "<foreach val=\"x\" in=\"a\">\x7bx\x7d".toList) := by
    decide +kernel
  have second : readMarkup? "<foreach val=\"x\" in=\"a\">\x7bx\x7d".toList =
      some (.opening "foreach".toList [⟨"val".toList, .quoted .double "x".toList⟩,
        ⟨"in".toList, .quoted .double "a".toList⟩] false, "\x7bx\x7d".toList) := by
    decide +kernel
  exact .markup first (by decide) (.text "-".toList (by decide) (.markup ending rfl
    (.markup second (by decide) (.text "\x7bx\x7d".toList (by decide) .nil))))

theorem cardArgument_whole : Whole cardArgument := by
  have inclusion : readMarkup? cardArgument = some (.opening "include".toList
      [⟨"src".toList, .quoted .double "q".toList⟩] false, "<arg t>".toList) := by decide +kernel
  have argument : readMarkup? "<arg t>".toList =
      some (.opening "arg".toList [⟨"t".toList, .bare⟩] false, []) := by decide +kernel
  exact .markup inclusion (by decide) (.markup argument (by decide) .nil)

/-- What the names of the first template are filled with in an iteration. -/
def cardFills (now path shown : Text) : Prop :=
  (path, shown) ∈ [("y".toList, "z".toList), ("note".toList, []), ("x".toList, now)]

/-- The nodes of the template are filled with what its names have in the iteration. -/
theorem cardPart_unfolds {now : Model} {shown : Text} {looped : Prop} :
    Unfolds cardPart now (cardFills shown) looped true cardPart.forest
      (cardNodes "z".toList [] shown) := by
  have nil : Unfolds cardPart now (cardFills shown) looped true .nil .nil :=
    .of_alike ⟨_, .nil, .nil⟩
  have filled {path text : Text} (h : cardFills shown path text) (hne : path ≠ [])
      (hp : path.all notBrace = true) : Unfolds cardPart now (cardFills shown) looped true
        (Forest.joinText (placeholderText path) .nil) (Forest.joinText text .nil) :=
    .text (filledAhead_placeholder h hne (List.all_eq_true.mp hp)) nil
  have title := filled (.head _) (by decide) (by decide)
  have note := filled (.tail _ (.head _)) (by decide) (by decide)
  have hidden := filled (.tail _ (.tail _ (.head _))) (by decide) (by decide)
  exact .into (.refl _) (by decide) (by decide) title (.into (.refl _) (by decide) (by decide) note
    (.into (.refl _) (by decide) (by decide) hidden nil))

/-- The iterations that read different texts read the filled template where the include is. The
value of the loop is in no placeholder that is left. -/
theorem cardLoops_readings : ∀ pair ∈ (readings cardTemplates 1 listsAndTexts
      (cardLoops ++ "<include src=\"p\"/>".toList ++ "</foreach>".toList)).zip
        (readings cardTemplates 1 listsAndTexts
          (cardLoops ++ cardPart.text ++ "</foreach>".toList)),
    pair.1.text = pair.2.text ∨
      (∃ shown ∈ ["1".toList, "z".toList],
        pair.1.text = shown ++ ("<include src=\"p\"/>".toList ++ []) ∧
        pair.2.text = shown ++ (cardText "z".toList [] shown ++ [])) ∧
      (∀ e ∈ pair.1.pass.2.elements, e.isLink = false) ∧
      ¬ placeholderText "x".toList <:+: pair.1.pass.2.outsideLoops := by
  decide +kernel

theorem cardLoops_iterations {last : Model}
    (title : (last.get? "y".toList).map (·.display) = some "z".toList)
    (note : (last.get? "note".toList).map (·.display) = some []) :
    ∀ pair ∈ (readings cardTemplates 1 listsAndTexts
      (cardLoops ++ "<include src=\"p\"/>".toList ++ "</foreach>".toList)).zip
        (readings cardTemplates 1 listsAndTexts
          (cardLoops ++ cardPart.text ++ "</foreach>".toList)),
      pair.1.Unfolds cardPart last (fun _ => True) pair.2 := by
  have plain : ∀ shown ∈ ["1".toList, "z".toList], '<' ∉ shown ∧ openAfter shown = [] ∧
      readForest (cardText "z".toList [] shown) = (cardNodes "z".toList [] shown, []) := by
    decide +kernel
  rintro ⟨⟨read, pass⟩, ⟨read', pass'⟩⟩ hp
  rcases cardLoops_readings _ hp with same | ⟨⟨shown, hs, rfl, rfl⟩, linkless, hidden⟩
  · exact fun hne => absurd same hne
  · obtain ⟨hm, hopen, reads⟩ := plain shown hs
    have whole := Whole.text shown hm .nil
    rw [List.append_nil] at whole
    refine Reading.unfolds_of_childless whole cardInclude_childless (by decide)
      (by rw [hopen]; trivial) (fun _ => cardPart_askedBy)
      (whole_cardText (by decide) List.not_mem_nil hm) reads cardPart_unfolds
      (linksApart_of_linkless linkless) fun path text left hf => ?_
    rcases hf with _ | ⟨_, _ | ⟨_, _ | ⟨_, hf⟩⟩⟩
    · have flat : "z".toList.all notBrace = true := by decide
      exact ⟨True.intro, title, staysFilled_of_notBrace (List.all_eq_true.mp flat) last⟩
    · exact ⟨True.intro, note, staysFilled_of_notBrace (List.forall_mem_nil _) last⟩
    · exact absurd left hidden
    · cases hf

/-- The include around the argument. -/
def cardFraming : Element :=
  ⟨"include".toList, [⟨"src".toList, .quoted .double "q".toList⟩], .normal⟩

/-- What is in it. -/
def cardFramingArgument (bound : Forest) : Forest :=
  .node (.element ⟨"arg".toList, [⟨"t".toList, .bare⟩], .normal⟩) bound .nil

/-- What it brings in. -/
def cardFramed (bound : Forest) : Forest :=
  .node (.element ⟨"div".toList, [], .normal⟩) bound .nil

/-- In the argument the template brings in its nodes where the include brings in one of it. -/
theorem cardArgument_unfolds {last : Model} :
    (documentReading cardTemplates listsAndTexts
      (cardArgument ++ "<include src=\"p\"/>".toList ++ "</arg></include>".toList)).Unfolds cardPart
        last (fun _ => True) (documentReading cardTemplates listsAndTexts
          (cardArgument ++ cardPart.text ++ "</arg></include>".toList)) := by
  have linkless : ∀ e ∈ (documentPass cardTemplates listsAndTexts
      (cardArgument ++ "<include src=\"p\"/>".toList ++ "</arg></include>".toList)).2.elements,
      e.isLink = false := by decide +kernel
  refine fun _ => ⟨fun _ _ => False, ?_, linksApart_of_linkless linkless, fun _ _ _ => False.elim⟩
  have read : (readForest (cardArgument ++ "<include src=\"p\"/>".toList ++
      "</arg></include>".toList)).1 =
      .node (.element cardFraming) (cardFramingArgument (.node (.element cardInclude) .nil .nil))
        .nil := by
    decide +kernel
  have read' : (readForest (cardArgument ++ cardPart.text ++ "</arg></include>".toList)).1 =
      .node (.element cardFraming) (cardFramingArgument cardPart.forest) .nil := by decide +kernel
  have reply : cardTemplates.reply cardFraming
      (cardFramingArgument (.node (.element cardInclude) .nil .nil)) =
        .fragment (cardFramed (.node (.element cardInclude) .nil .nil)) := by decide +kernel
  have reply' : cardTemplates.reply cardFraming (cardFramingArgument cardPart.forest) =
      .fragment (cardFramed (cardPart.forest ++ .nil)) := by decide +kernel
  have nil {now : Model} : Unfolds cardPart now (fun _ _ => False) True true .nil .nil :=
    .of_alike ⟨_, .nil, .nil⟩
  simp only [documentReading, read, read']
  obtain ⟨split, hsplit, -⟩ := cardPart.alike
  have inner : Split (.node (.element cardInclude) .nil .nil) _ :=
    .node cardInclude.ne_text .nil .nil
  have outside {bound split : Forest} (h : Split bound split) :
      Split (cardFramingArgument bound) _ :=
    .node (Element.ne_text _) h .nil
  refine .bound (by decide) (by decide) ⟨_, outside inner, outside inner⟩
    ⟨_, outside hsplit, outside hsplit⟩ ?_ nil
  rw [reply, reply']
  exact .fragment (.into (.refl _) (by decide) (by decide)
    (.splice cardPart_askedBy (.of_alike cardPart.alike) nil) nil)

example : (render? cardTemplates 1 listsAndTexts
      (cardLoops ++ "<include src=\"p\"/>".toList ++ "</foreach>".toList)).map (·.text) =
    some "--1<b>z</b><i></i>z<b>z</b><i></i>".toList := by
  decide +kernel

end MarkupTemplate
