import MarkupTemplate.Proofs.Render.LoopPasses

namespace MarkupTemplate

/-- A step on the way goes into a loop. -/
def Frame.entersLoop : Frame → Bool
  | .past _ _ => false
  | .into content _ => content.isElement (·.isLoop)

theorem Place.inLoop_eq (place : Place) : place.inLoop = place.way.any Frame.entersLoop := by
  obtain ⟨way, content, children, next⟩ := place
  induction way with
  | nil => rfl
  | cons frame way ih =>
    cases frame with
    | past => simpa [Place.inLoop, Place.ancestors, Frame.entersLoop] using ih
    | into c n =>
      simp only [Place.inLoop, Place.ancestors] at ih
      simp [Place.inLoop, Place.ancestors, Frame.entersLoop, ih]

/-- The include that a node is. -/
def Content.inclusion? (content : Content) : Option Element :=
  content.element?.filter (·.isInclusion)

/-- What is found among the children of a node, unless it is a loop. -/
def Content.exposed {α : Type} (content : Content) (inside : Option α) : Option α :=
  if content.isElement (·.isLoop) then none else inside

namespace Forest

/-- The first include outside of loops, with its children. -/
def request? : Forest → Option (Element × Forest)
  | .nil => none
  | .node content children next =>
    match content.inclusion? with
    | some element => some (element, children)
    | none => (content.exposed children.request?).or next.request?

/-- The forest with a fragment in place of the first include outside of loops. -/
def replaceFirst : Forest → Forest → Forest
  | .nil, _ => .nil
  | .node content children next, fragment =>
    if content.inclusion?.isSome then fragment ++ next
    else if (content.exposed children.request?).isSome then
      .node content (children.replaceFirst fragment) next
    else .node content children (next.replaceFirst fragment)

end Forest

namespace Forest

variable {content : Content} (children next fragment : Forest)

theorem request?_inclusion {e : Element} (h : content.inclusion? = some e) :
    (Forest.node content children next).request? = some (e, children) := by
  rw [request?, h]

theorem request?_other (h : content.inclusion? = none) :
    (Forest.node content children next).request? =
      (content.exposed children.request?).or next.request? := by
  rw [request?, h]

theorem replaceFirst_inclusion {e : Element} (h : content.inclusion? = some e) :
    (Forest.node content children next).replaceFirst fragment = fragment ++ next := by
  rw [replaceFirst, h]
  rfl

theorem replaceFirst_children {found : Element × Forest} (h : content.inclusion? = none)
    (hf : content.exposed children.request? = some found) :
    (Forest.node content children next).replaceFirst fragment =
      .node content (children.replaceFirst fragment) next := by
  rw [replaceFirst, h, hf]
  rfl

theorem replaceFirst_next (h : content.inclusion? = none)
    (hn : content.exposed children.request? = none) :
    (Forest.node content children next).replaceFirst fragment =
      .node content children (next.replaceFirst fragment) := by
  rw [replaceFirst, h, hn]
  rfl

end Forest

/-- The place of an include that is not in a loop. -/
def Place.isOuterInclude (place : Place) : Bool :=
  place.content.isElement (·.isInclusion) && !place.inLoop

theorem findFrom?_of_entersLoop {way : List Frame} {forest : Forest}
    (h : way.any Frame.entersLoop = true) :
    forest.findFrom? Place.isOuterInclude way = none := by
  induction forest generalizing way with
  | nil => rfl
  | node content children next ihc ihn =>
    rw [Forest.findFrom?, Place.isOuterInclude, Place.inLoop_eq, h, ihc (by simp [h]),
      ihn (by simp [h])]
    simp

theorem Content.eq_of_inclusion? {content : Content} {e : Element}
    (h : content.inclusion? = some e) : content = .element e ∧ e.isInclusion = true := by
  obtain ⟨he, hi⟩ := Option.filter_eq_some_iff.mp h
  cases content with
  | element other =>
    obtain rfl := Option.some.inj he
    exact ⟨rfl, hi⟩
  | text | verbatim => cases he

theorem Content.isInclusion_of_none {content : Content} (h : content.inclusion? = none) :
    content.isElement (·.isInclusion) = false := by
  cases content with
  | element e => simpa [inclusion?, element?, isElement] using h
  | text | verbatim => rfl

/-- The include that is found is the first one, and replacing it replaces the first one. -/
theorem findFrom?_cases {way : List Frame} (outside : way.any Frame.entersLoop = false)
    (forest : Forest) :
    (forest.findFrom? Place.isOuterInclude way = none ∧ forest.request? = none) ∨
      ∃ place e, forest.findFrom? Place.isOuterInclude way = some place ∧
        place.content = .element e ∧ forest.request? = some (e, place.children) ∧
        ∀ fragment, place.replace fragment = plug (forest.replaceFirst fragment) way := by
  induction forest generalizing way with
  | nil => exact .inl ⟨rfl, rfl⟩
  | node content children next ihc ihn =>
    have past : (Frame.past content children :: way).any Frame.entersLoop = false := by
      simpa [Frame.entersLoop] using outside
    cases hi : content.inclusion? with
    | some e =>
      obtain ⟨rfl, he⟩ := Content.eq_of_inclusion? hi
      refine .inr ⟨⟨way, .element e, children, next⟩, e, ?_, rfl, ?_, ?_⟩
      · have hp : Place.isOuterInclude ⟨way, .element e, children, next⟩ = true := by
          rw [Place.isOuterInclude, Place.inLoop_eq, outside]
          simpa [Content.isElement, Content.element?] using he
        rw [Forest.findFrom?, if_pos hp]
      · rw [Forest.request?, hi]
      · intro fragment
        rw [Forest.replaceFirst, hi]
        rfl
    | none =>
      have hp : Place.isOuterInclude ⟨way, content, children, next⟩ = false := by
        rw [Place.isOuterInclude, Content.isInclusion_of_none hi, Bool.false_and]
      rw [Forest.findFrom?, hp]
      simp only [Bool.false_eq_true, if_false, Forest.request?, Forest.replaceFirst, hi,
        Option.isSome_none]
      have into (hl : content.isElement (·.isLoop) = false) :
          (Frame.into content next :: way).any Frame.entersLoop = false := by
        simpa [Frame.entersLoop, hl] using outside
      have inside : (children.findFrom? Place.isOuterInclude (.into content next :: way) = none ∧
          content.exposed children.request? = none) ∨
          ∃ place e, children.findFrom? Place.isOuterInclude (.into content next :: way) =
              some place ∧ place.content = .element e ∧
            content.exposed children.request? = some (e, place.children) ∧
            ∀ fragment, place.replace fragment =
              plug (children.replaceFirst fragment) (.into content next :: way) := by
        cases hl : content.isElement (·.isLoop) with
        | true =>
          exact .inl ⟨findFrom?_of_entersLoop (by simp [Frame.entersLoop, hl]), by
            rw [Content.exposed, hl, if_pos rfl]⟩
        | false =>
          have exposed : content.exposed children.request? = children.request? := by
            simp [Content.exposed, hl]
          rw [exposed]
          exact ihc (into hl)
      rcases inside with ⟨hf, hr⟩ | ⟨place, e, hf, he, hr, hplace⟩
      · rw [hf, hr]
        exact ihn past
      · rw [hf, hr]
        exact .inr ⟨place, e, rfl, he, rfl, hplace⟩

theorem firstInclude?_cases (forest : Forest) :
    (firstInclude? forest = none ∧ forest.request? = none) ∨
      ∃ place e, firstInclude? forest = some place ∧ place.content = .element e ∧
        forest.request? = some (e, place.children) ∧
        ∀ fragment, place.replace fragment = forest.replaceFirst fragment :=
  findFrom?_cases (by rfl) forest

/-- What an include gets: a fragment for its place or a whole document. -/
inductive Reply where
  | fragment (fragment : Forest)
  | document (document : Forest)
  deriving DecidableEq

/-- The template of an include with the arguments among its children bound. -/
def boundTemplate? : Forest → Text → Option Text
  | .nil, template => some template
  | .node (.element element) children next, template =>
    if element.role = .argument then
      match element.attributes with
      | [] => none
      | attr :: _ =>
        boundTemplate? next (bindArgument (lowerText attr.name) children.markup template)
    else boundTemplate? next template
  | .node _ _ next, template => boundTemplate? next template

/-- What an include with its children gets. An include that fails gets nothing. -/
def Context.reply (context : Context) (element : Element) (children : Forest) : Reply :=
  match element.setting? "src".toList with
  | none => .fragment .nil
  | some source =>
    match context.template source with
    | .error _ => .fragment .nil
    | .ok template =>
      match boundTemplate? children template with
      | none => .fragment .nil
      | some bound =>
        if isDocument template then .document (readForest bound).1
        else .fragment (readForest bound).1

/-- The forest after its first include got its reply. -/
def Forest.afterReply (forest : Forest) : Reply → Forest
  | .fragment fragment => forest.replaceFirst fragment
  | .document document => document

theorem bindArguments_eq (source : Text) (children : Forest) (run : Run) (template : Text) :
    (bindArguments source children run template).2 = boundTemplate? children template ∧
      (bindArguments source children run template).1.model = run.model := by
  induction children generalizing run template with
  | nil => exact ⟨rfl, rfl⟩
  | node content children next _ ih =>
    cases content with
    | element e =>
      rw [bindArguments, boundTemplate?]
      split
      next =>
        cases e.attributes with
        | nil => exact ⟨rfl, rfl⟩
        | cons attr attributes => exact ih _ _
      next => exact ih _ _
    | text shown =>
      rw [bindArguments]
      split
      next => exact ih _ _
      next => exact ih _ _
    | verbatim => exact ih _ _

theorem resolveInclude_eq (context : Context) (run : Run) {place : Place} {e : Element}
    {forest : Forest} (he : place.content = .element e)
    (hp : ∀ fragment, place.replace fragment = forest.replaceFirst fragment) :
    (resolveInclude context run place).2 = forest.afterReply (context.reply e place.children) ∧
      (resolveInclude context run place).1.model = run.model := by
  simp only [resolveInclude, he, Content.element?, Option.bind_some, Context.reply]
  cases e.setting? "src".toList with
  | none => exact ⟨hp .nil, rfl⟩
  | some source =>
    cases hs : context.template source with
    | error => simp only [hs]; exact ⟨hp .nil, rfl⟩
    | ok template =>
      obtain ⟨hb, hm⟩ := bindArguments_eq source place.children
        { run with expanded := some source :: run.expanded } template
      rcases hpair : bindArguments source place.children
        { run with expanded := some source :: run.expanded } template with ⟨next, found⟩
      rw [hpair] at hb hm
      cases found with
      | none =>
        simp only [hs, hpair, ← hb]
        exact ⟨hp .nil, hm⟩
      | some bound =>
        simp only [hs, hpair, ← hb, Run.read]
        split
        next => exact ⟨rfl, hm⟩
        next => exact ⟨hp _, hm⟩

theorem expandIncludes_of_none {context : Context} {forest : Forest}
    (h : forest.request? = none) (steps : Nat) (run : Run) :
    expandIncludes context steps run forest =
      ({ run with budget := .remaining steps }, forest) := by
  rcases firstInclude?_cases forest with ⟨hf, _⟩ | ⟨place, e, _, _, hr, _⟩
  · unfold expandIncludes
    simp only [hf]
  · cases h.symm.trans hr

/-- Where no include is asked for, resolving the tags is resolving the chains. -/
theorem resolveTags_of_none {forest : Forest} (h : forest.request? = none) (context : Context)
    (run : Run) :
    (resolveTags context run forest).2 = (resolveChains run.model forest).1 := by
  unfold resolveTags
  cases run.budget with
  | spent => rfl
  | remaining steps =>
    dsimp only
    rw [expandIncludes_of_none h]

theorem expandIncludes_spent {context : Context} {forest : Forest} {found : Element × Forest}
    (h : forest.request? = some found) (run : Run) :
    (expandIncludes context 0 run forest).1.budget = .spent := by
  rcases firstInclude?_cases forest with ⟨_, hr⟩ | ⟨place, _, hf, _, _, _⟩
  · cases h.symm.trans hr
  · simp only [expandIncludes, hf]

/-- Each step expands the first include. -/
theorem expandIncludes_step (context : Context) {forest : Forest} {found : Element × Forest}
    (h : forest.request? = some found) (steps : Nat) (run : Run) :
    ∃ next, next.model = run.model ∧ expandIncludes context (steps + 1) run forest =
      expandIncludes context steps next (forest.afterReply (context.reply found.1 found.2)) := by
  rcases firstInclude?_cases forest with ⟨_, hr⟩ | ⟨place, other, hf, he, hr, hp⟩
  · cases h.symm.trans hr
  · cases h.symm.trans hr
    obtain ⟨hforest, hmodel⟩ := resolveInclude_eq context run he hp
    refine ⟨(resolveInclude context run place).1, hmodel, ?_⟩
    rw [← hforest, expandIncludes, hf]

theorem expandIncludes_model (context : Context) (steps : Nat) (run : Run) (forest : Forest) :
    (expandIncludes context steps run forest).1.model = run.model := by
  induction steps generalizing run forest with
  | zero =>
    unfold expandIncludes
    split
    next => rfl
    next => rfl
  | succ steps ih =>
    cases hr : forest.request? with
    | none => rw [expandIncludes_of_none hr]
    | some found =>
      obtain ⟨next, hn, he⟩ := expandIncludes_step context hr steps run
      rw [he, ih, hn]

theorem resolveTags_model (context : Context) (run : Run) (forest : Forest) :
    (resolveTags context run forest).1.model = run.model := by
  cases hb : run.budget with
  | remaining steps =>
    simp only [resolveTags, hb]
    exact expandIncludes_model context steps run forest
  | spent =>
    simp only [resolveTags, hb]
    rfl

theorem iterationPass_model (context : Context) (loop : Loop) (body : List Piece)
    (entry : Value × Value) (run : Run) :
    (iterationPass context loop body entry run).1.model = loop.bind run.model entry :=
  resolveTags_model context _ _

theorem documentPass_model (context : Context) (model : Model) (compiled : Text) :
    (documentPass context model compiled).1.model = model :=
  resolveTags_model context _ _

end MarkupTemplate
