import MarkupTemplate.Proofs.Render.TextDivision

namespace MarkupTemplate

/-- No opening brace is without another brace after it. -/
def NoOpenBrace (text : Text) : Prop :=
  ∀ before inner, text = before ++ '{' :: inner → ∃ c ∈ inner, notBrace c = false

theorem NoOpenBrace.of_append {a b : Text} (h : NoOpenBrace (a ++ b)) : NoOpenBrace b := by
  rintro before inner rfl
  exact h (a ++ before) inner (List.append_assoc ..).symm

theorem NoOpenBrace.append {a b : Text} (ha : NoOpenBrace a) (hb : NoOpenBrace b) :
    NoOpenBrace (a ++ b) := by
  intro before inner he
  rcases List.append_eq_append_iff.mp he with ⟨between, rfl, hr⟩ | ⟨between, hl, hr⟩
  · exact hb between inner hr
  · cases between with
    | nil => exact hb [] inner hr.symm
    | cons c between =>
      obtain ⟨rfl, rfl⟩ := List.cons.inj hr
      obtain ⟨d, hd, hbrace⟩ := ha before between hl
      exact ⟨d, List.mem_append_left _ hd, hbrace⟩

theorem noOpenBrace_of_notMem {text : Text} (h : '{' ∉ text) : NoOpenBrace text := by
  rintro before inner rfl
  simp at h

theorem noOpenBrace_placeholder {path : Text} (h : '{' ∉ path) :
    NoOpenBrace (placeholderText path) := by
  intro before inner he
  cases before with
  | nil =>
    obtain rfl := (List.cons.inj he).2
    exact ⟨'}', by simp, rfl⟩
  | cons c before =>
    have hrest : path ++ ['}'] = before ++ '{' :: inner := (List.cons.inj he).2
    have hm : '{' ∈ path ++ ['}'] := by simp [hrest]
    simp [h] at hm

theorem closedBrace?_append {text : Text} (h : ∃ c ∈ text, notBrace c = false) (tail : Text) :
    closedBrace? (text ++ tail) =
      (closedBrace? text).map fun found => (found.1, found.2 ++ tail) := by
  have hne : text.dropWhile notBrace ≠ [] := by
    obtain ⟨c, hc, hb⟩ := h
    exact dropWhile_ne_nil_of_mem hc hb
  obtain ⟨htake, hdrop⟩ := dropWhile_append_of_ne_nil hne tail
  rw [closedBrace?, closedBrace?, htake, hdrop]
  cases text.takeWhile notBrace with
  | nil => rfl
  | cons c path =>
    cases hd : text.dropWhile notBrace with
    | nil => exact absurd hd hne
    | cons d after =>
      by_cases hc : d = '}'
      · subst hc
        rfl
      · simp [hc]

theorem fragments_plain {c : Char} (h : c ≠ '{') (rest : Text) :
    fragments (c :: rest) = .plain c :: fragments rest := by
  rw [fragments, if_neg h]

theorem fragments_placeholder {rest path after : Text}
    (h : closedBrace? rest = some (path, after)) :
    fragments ('{' :: rest) = .placeholder path :: fragments after := by
  rw [fragments, if_pos rfl]
  split
  next he =>
    cases h.symm.trans he
    rfl
  next he => cases h.symm.trans he

theorem fragments_brace {rest : Text} (h : closedBrace? rest = none) :
    fragments ('{' :: rest) = .plain '{' :: fragments rest := by
  rw [fragments, if_pos rfl]
  split
  next he => cases h.symm.trans he
  next => rfl

theorem fragments_append {a : Text} (h : NoOpenBrace a) (b : Text) :
    fragments (a ++ b) = fragments a ++ fragments b := by
  fun_induction fragments a with
  | case1 => rfl
  | case2 rest path after hc _ ih =>
    have hrest := closedBrace?_append (h [] rest rfl) b
    rw [hc] at hrest
    have hafter : NoOpenBrace after := by
      have he : '{' :: rest = ('{' :: path ++ ['}']) ++ after := by
        rw [← append_of_closedBrace? hc]
        simp
      rw [he] at h
      exact h.of_append
    rw [List.cons_append, fragments_placeholder hrest, ih hafter, List.cons_append]
  | case3 rest hc ih =>
    have hrest := closedBrace?_append (h [] rest rfl) b
    rw [hc] at hrest
    rw [List.cons_append, fragments_brace hrest, ih (NoOpenBrace.of_append (a := ['{']) h),
      List.cons_append]
  | case4 c rest hc ih =>
    rw [List.cons_append, fragments_plain hc, ih (NoOpenBrace.of_append (a := [c]) h),
      List.cons_append]

theorem substitute_append {a : Text} (h : NoOpenBrace a) (model : Model) (b : Text) :
    substitute model (a ++ b) = substitute model a ++ substitute model b := by
  rw [substitute, fragments_append h, List.flatMap_append]
  rfl

theorem substitute_of_notMem {text : Text} (h : '{' ∉ text) (model : Model) :
    substitute model text = text := by
  induction text with
  | nil => simp [substitute, fragments]
  | cons c text ih =>
    have hc : c ≠ '{' := fun he => h (by simp [he])
    have rest := ih fun hm => h (List.mem_cons_of_mem _ hm)
    rw [substitute, fragments_plain hc, List.flatMap_cons, ← substitute, rest]
    rfl

/-- A part of a text whose placeholders can be filled apart from what is around it. -/
structure Fills (model : Model) (source filled : Text) : Prop where
  closed : NoOpenBrace source
  filled : substitute model source = filled

namespace Fills

variable {model : Model} {a b a' b' : Text}

theorem append (ha : Fills model a a') (hb : Fills model b b') :
    Fills model (a ++ b) (a' ++ b') where
  closed := ha.closed.append hb.closed
  filled := by rw [substitute_append ha.closed, ha.filled, hb.filled]

theorem plain {text : Text} (h : '{' ∉ text) : Fills model text text where
  closed := noOpenBrace_of_notMem h
  filled := substitute_of_notMem h model

theorem text {text : Text} (h : NoOpenBrace text) : Fills model text (substitute model text) where
  closed := h
  filled := rfl

theorem flatMap {α : Type} {items : List α} {source filled : α → Text}
    (h : ∀ item ∈ items, Fills model (source item) (filled item)) :
    Fills model (items.flatMap source) (items.flatMap filled) := by
  induction items with
  | nil => exact plain List.not_mem_nil
  | cons item items ih =>
    rw [List.flatMap_cons, List.flatMap_cons]
    exact (h item List.mem_cons_self).append (ih fun i hi => h i (List.mem_cons_of_mem _ hi))

end Fills

/-- A value with its placeholders filled. -/
def AttributeValue.fill (model : Model) : AttributeValue → AttributeValue
  | .bare => .bare
  | .unquoted text => .unquoted (substitute model text)
  | .quoted quote text => .quoted quote (substitute model text)

/-- An attribute with the placeholders of its value filled. -/
def Attribute.fill (model : Model) (attr : Attribute) : Attribute :=
  { attr with value := attr.value.fill model }

/-- An element with the placeholders of its attributes filled. -/
def Element.fill (model : Model) (e : Element) : Element :=
  { e with attributes := e.attributes.map (·.fill model) }

/-- A node with its placeholders filled. -/
def Content.fill (model : Model) : Content → Content
  | .text shown => .text (substitute model shown)
  | .verbatim source => .verbatim (substitute model source)
  | .element e => .element (e.fill model)

/-- A forest with its placeholders filled, except in loops. -/
def Forest.fill (model : Model) : Forest → Forest
  | .nil => .nil
  | .node content children next =>
    if content.isElement (·.isLoop) then .node content children (next.fill model)
    else .node (content.fill model) (children.fill model) (next.fill model)

theorem Forest.fill_loop {content : Content} (h : content.isElement (·.isLoop) = true)
    (model : Model) (children next : Forest) :
    (Forest.node content children next).fill model =
      .node content children (next.fill model) := by
  rw [fill, if_pos h]

theorem Forest.fill_other {content : Content} (h : content.isElement (·.isLoop) = false)
    (model : Model) (children next : Forest) :
    (Forest.node content children next).fill model =
      .node (content.fill model) (children.fill model) (next.fill model) := by
  rw [fill, if_neg (by rw [h]; exact Bool.false_ne_true)]

/-- No brace is open after the value, and there is none in the name. -/
structure Attribute.Fillable (attr : Attribute) : Prop where
  name : '{' ∉ attr.name
  value : NoOpenBrace attr.text

/-- No brace is open after a text or a value, and there is none in a name. -/
def Content.Fillable : Content → Prop
  | .text shown => NoOpenBrace shown
  | .verbatim source => NoOpenBrace source
  | .element e => '{' ∉ e.name ∧ ∀ attr ∈ e.attributes, attr.Fillable

/-- Placeholders can be filled part by part, except in loops. -/
def Forest.Fillable : Forest → Prop
  | .nil => True
  | .node content children next =>
    (content.isElement (·.isLoop) = false → content.Fillable ∧ children.Fillable) ∧ next.Fillable

theorem Attribute.Fillable.markup {attr : Attribute} (h : attr.Fillable) (model : Model) :
    Fills model attr.markup (attr.fill model).markup := by
  obtain ⟨name, value⟩ := attr
  have hname : Fills model (' ' :: name) (' ' :: name) := .plain (by simpa using h.name)
  have hequal : Fills model ['='] ['='] := .plain (by decide)
  cases value with
  | bare => exact hname.append (.plain List.not_mem_nil)
  | unquoted text => exact hname.append (hequal.append (.text h.value))
  | quoted quote text =>
    have hquote : Fills model [quote.char] [quote.char] := .plain (by cases quote <;> decide)
    exact hname.append (hequal.append (hquote.append ((Fills.text h.value).append hquote)))

theorem Content.Fillable.opening {content : Content} (h : content.Fillable) (model : Model) :
    Fills model content.opening (content.fill model).opening := by
  cases content with
  | text shown => exact .text h
  | verbatim source => exact .text h
  | element e =>
    have hname : Fills model ('<' :: e.name) ('<' :: e.name) := .plain (by simpa using h.1)
    have hattributes : Fills model (e.attributes.flatMap Attribute.markup)
        (e.attributes.flatMap fun attr => (attr.fill model).markup) :=
      .flatMap fun attr ha => (h.2 attr ha).markup model
    have hend : Fills model (tagEnd (e.form == .selfClosed)) (tagEnd (e.form == .selfClosed)) :=
      .plain (by cases e.form <;> decide)
    have hsource : e.startTag = '<' :: e.name ++
        (e.attributes.flatMap Attribute.markup ++ tagEnd (e.form == .selfClosed)) := by
      simpa using e.startTag_eq []
    have hfilled : (e.fill model).startTag = '<' :: e.name ++
        ((e.attributes.flatMap fun attr => (attr.fill model).markup) ++
          tagEnd (e.form == .selfClosed)) := by
      simpa [Element.fill, List.flatMap_map] using (e.fill model).startTag_eq []
    rw [Content.opening, Content.fill, Content.opening, hsource, hfilled]
    exact hname.append (hattributes.append hend)

theorem Content.Fillable.closing {content : Content} (h : content.Fillable) (model : Model) :
    Fills model content.closing (content.fill model).closing := by
  cases content with
  | text | verbatim => exact .plain List.not_mem_nil
  | element e =>
    exact .plain (by simpa [Content.closing, Element.endTag] using h.1)

theorem isElement_fill (content : Content) (model : Model) {property : Element → Bool}
    (h : ∀ e, property (e.fill model) = property e) :
    (content.fill model).isElement property = content.isElement property := by
  cases content with
  | text | verbatim => rfl
  | element e => simp [Content.fill, Content.isElement, Content.element?, h]

theorem iterationText_consMarkup {text : Text} (h : NoOpenBrace text) (model : Model)
    (pieces : List Piece) :
    iterationText model (Piece.consMarkup text pieces) =
      substitute model text ++ iterationText model pieces := by
  cases pieces with
  | nil => rfl
  | cons piece pieces =>
    cases piece with
    | markup next =>
      rw [Piece.consMarkup]
      change substitute model (text ++ next) ++ iterationText model pieces =
        substitute model text ++ (substitute model next ++ iterationText model pieces)
      rw [substitute_append h, List.append_assoc]
    | kept => rfl

theorem iterationText_piecesBefore {body : Forest} (h : body.Fillable) (model : Model)
    (after : List Piece) :
    iterationText model (body.piecesBefore keptInBody after) =
      (body.fill model).markup ++ iterationText model after := by
  induction body generalizing after with
  | nil => rfl
  | node content children next ihc ih =>
    obtain ⟨hnode, hnext⟩ := h
    cases hl : content.isElement (·.isLoop) with
    | true =>
      have kept : iterationText model (.kept (Forest.node content children .nil).markup ::
          next.piecesBefore keptInBody after) =
          (Forest.node content children .nil).markup ++
            iterationText model (next.piecesBefore keptInBody after) := rfl
      rw [piecesBefore_loop hl, kept, ih hnext, Forest.fill_loop hl, ← List.append_assoc,
        ← Forest.markup_append]
      rfl
    | false =>
      obtain ⟨hcontent, hchildren⟩ := hnode hl
      have hopening := hcontent.opening model
      have hclosing := hcontent.closing model
      have hshows : (content.fill model).showsChildren = content.showsChildren :=
        isElement_fill content model fun _ => rfl
      rw [piecesBefore_other hl, iterationText_consMarkup hopening.closed, hopening.filled,
        Forest.fill_other hl, Forest.markup_node, hshows]
      split
      next =>
        rw [ihc hchildren, iterationText_consMarkup hclosing.closed, hclosing.filled, ih hnext]
        simp only [List.append_assoc]
      next =>
        rw [ih hnext]
        simp only [List.append_nil, List.append_assoc]

/-- The text of an iteration is that of the filled body. -/
theorem iterationText_bodyPieces {body : Forest} (h : body.Fillable) (model : Model) :
    iterationText model (bodyPieces body) = (body.fill model).markup := by
  have text := iterationText_piecesBefore h model []
  exact text.trans (List.append_nil _)

/-- No opening brace stands outside of loops. -/
def Forest.Braceless : Forest → Prop
  | .nil => True
  | .node content children next =>
    (content.isElement (·.isLoop) = false → '{' ∉ content.opening ∧ children.Braceless) ∧
      next.Braceless

theorem Attribute.notMem_of_markup {attr : Attribute} (h : '{' ∉ attr.markup) :
    '{' ∉ attr.name ∧ '{' ∉ attr.text := by
  obtain ⟨name, value⟩ := attr
  cases value <;> simp_all [Attribute.text, Attribute.markup]

theorem Element.notMem_of_startTag {e : Element} (h : '{' ∉ e.startTag) :
    '{' ∉ e.name ∧ ∀ attr ∈ e.attributes, '{' ∉ attr.name ∧ '{' ∉ attr.text := by
  refine ⟨fun hm => h ?_, fun attr ha => Attribute.notMem_of_markup fun hm => h ?_⟩
  · exact List.mem_append_left _ (List.mem_append_left _ (List.mem_cons_of_mem _ hm))
  · exact List.mem_append_left _ (List.mem_append_right _ (List.mem_flatMap.mpr ⟨attr, ha, hm⟩))

theorem Attribute.fill_of_notMem {attr : Attribute} (h : '{' ∉ attr.text) (model : Model) :
    attr.fill model = attr := by
  obtain ⟨name, value⟩ := attr
  cases value with
  | bare => rfl
  | unquoted text =>
    have ht := substitute_of_notMem h model
    exact congrArg (fun t => Attribute.mk name (.unquoted t)) ht
  | quoted quote text =>
    have ht := substitute_of_notMem h model
    exact congrArg (fun t => Attribute.mk name (.quoted quote t)) ht

theorem Content.fill_of_notMem {content : Content} (h : '{' ∉ content.opening) (model : Model) :
    content.fill model = content := by
  cases content with
  | text shown => exact congrArg Content.text (substitute_of_notMem h model)
  | verbatim source => exact congrArg Content.verbatim (substitute_of_notMem h model)
  | element e =>
    obtain ⟨_, hattributes⟩ := Element.notMem_of_startTag h
    have hmap : e.attributes.map (·.fill model) = e.attributes :=
      (List.map_congr_left fun attr ha =>
        Attribute.fill_of_notMem (hattributes attr ha).2 model).trans (List.map_id' _)
    rw [fill, Element.fill, hmap]

namespace Forest.Braceless

variable {forest : Forest}

theorem fill_eq (h : forest.Braceless) (model : Model) : forest.fill model = forest := by
  induction forest with
  | nil => rfl
  | node content children next ihc ih =>
    cases hl : content.isElement (·.isLoop) with
    | true => rw [fill_loop hl, ih h.2]
    | false =>
      obtain ⟨hcontent, hchildren⟩ := h.1 hl
      rw [fill_other hl, Content.fill_of_notMem hcontent, ihc hchildren, ih h.2]

end Forest.Braceless

end MarkupTemplate
