import MarkupTemplate.Proofs.Render.FirstOuter
import MarkupTemplate.Proofs.Render.SideBySide
import MarkupTemplate.Proofs.Data.PlainData
import MarkupTemplate.Proofs.Render.LoopVisits

namespace MarkupTemplate

/-- An element that the render does not just write. -/
def Element.steers (e : Element) : Bool :=
  e.isHead || e.isLink || e.isLoop || e.isInclusion

/-- A text that is written as it was read, and steers nothing. -/
structure Inert (text : Text) : Prop where
  markup : (readForest text).1.markup = text
  steers : ∀ e ∈ (readForest text).1.elements, e.steers = false

/-- The copies of a body, one for each entry, with the placeholders filled that have a value under
the bindings of the iteration. -/
def Loop.copies (loop : Loop) (model : Model) (body : Forest) : List Text :=
  loop.entries.map fun entry => substitute (loop.bind model entry) body.markup

/-- The loop over the entries of a collection that an element with a `val` asks for. -/
def Element.loopOver (element : Element) (valueName : Text) (entries : List (Value × Value)) :
    Loop :=
  ⟨lowerText valueName, (element.setting? "key".toList).map lowerText, entries⟩

theorem Loop.read_loopOver {model : Model} {element : Element} {valueName collection : Text}
    {value : Value} {entries : List (Value × Value)}
    (hval : element.setting? "val".toList = some valueName)
    (hin : element.setting? "in".toList = some collection)
    (hget : model.get? (lowerText collection) = some value)
    (hentries : value.entries? = some entries) :
    Loop.read model element = .ok (element.loopOver valueName entries) := by
  simp only [Loop.read, hval, hin, hget, hentries, Element.loopOver]

/-- The bindings of an iteration replace those of the one before. -/
theorem Loop.bind_bind (loop : Loop) (model : Model) (first last : Value × Value) :
    loop.bind (loop.bind model first) last = loop.bind model last := by
  unfold Loop.bind
  cases loop.keyName with
  | none => exact congrArg Model.mk (Table.insert_insert ..)
  | some key =>
    refine congrArg Model.mk ?_
    dsimp only [Model.set]
    by_cases hn : lowerText loop.valueName = lowerText key
    · simp only [hn, Table.insert_insert]
    · have there : lowerText loop.valueName ∈
          (model.fields.insert (lowerText loop.valueName) first.2).names := by
        rw [Table.names_insert]
        split
        next hm => exact hm
        next => exact List.mem_append_right _ List.mem_cons_self
      rw [Table.insert_comm hn _ _ there, Table.insert_insert, Table.insert_insert]

section Steerless

variable {forest : Forest}

theorem steerless_node {content : Content} {children next : Forest}
    (h : ∀ e ∈ (Forest.node content children next).elements, e.steers = false) :
    content.isElement Element.steers = false ∧ (∀ e ∈ children.elements, e.steers = false) ∧
      ∀ e ∈ next.elements, e.steers = false := by
  have inside (e : Element) (he : e ∈ children.elements) : e.steers = false :=
    h e (by simp [Forest.elements, he])
  have behind (e : Element) (he : e ∈ next.elements) : e.steers = false :=
    h e (by simp [Forest.elements, he])
  exact ⟨Content.isElement_eq_false fun e he => h e (by simp [Forest.elements, he]), inside, behind⟩

theorem Content.steerless {content : Content} (h : content.isElement Element.steers = false) :
    content.head? = none ∧ content.isElement (·.isLink) = false ∧
      content.isElement (·.isLoop) = false := by
  cases content with
  | element e =>
    have he : e.steers = false := h
    simp only [Element.steers, Bool.or_eq_false_iff] at he
    obtain ⟨⟨⟨hhead, hlink⟩, hloop⟩, _⟩ := he
    exact ⟨by simp [Content.head?, Content.element?, hhead], hlink, hloop⟩
  | text | verbatim => exact ⟨rfl, rfl, rfl⟩

theorem resolveChains_of_steerless (h : ∀ e ∈ forest.elements, e.steers = false) (model : Model) :
    (resolveChains model forest).1 = forest := by
  induction forest with
  | nil => exact Forest.resolveChains_nil model
  | node content children next ihc ihn =>
    obtain ⟨hcontent, hchildren, hnext⟩ := steerless_node h
    obtain ⟨hhead, _, hloop⟩ := Content.steerless hcontent
    rw [resolveChains_other hhead hloop, ihc hchildren, ihn hnext]

theorem removeLinks_of_steerless (h : ∀ e ∈ forest.elements, e.steers = false) :
    removeLinks forest = forest := by
  induction forest with
  | nil => rfl
  | node content children next ihc ihn =>
    obtain ⟨hcontent, hchildren, hnext⟩ := steerless_node h
    obtain ⟨_, hlink, _⟩ := Content.steerless hcontent
    rw [removeLinks, hlink, ihc hchildren, ihn hnext]
    rfl

theorem isLoop_of_steerless (h : ∀ e ∈ forest.elements, e.steers = false) :
    ∀ e ∈ forest.elements, e.isLoop = false := by
  intro e he
  have hs := h e he
  simp only [Element.steers, Bool.or_eq_false_iff] at hs
  exact hs.1.2

theorem resolveTags_of_steerless (h : ∀ e ∈ forest.elements, e.steers = false) (context : Context)
    (run : Run) : (resolveTags context run forest).2 = forest := by
  have noRequest : forest.request? = none := by
    refine Forest.request?_eq_none fun e he => ?_
    have hs := h e he
    simp only [Element.steers, Bool.or_eq_false_iff] at hs
    exact hs.2
  rw [resolveTags_of_none noRequest, resolveChains_of_steerless h]

/-- Without loops inside, the text of an iteration is the filled markup of the body. -/
theorem iterationText_of_loopless {body : Forest} (h : ∀ e ∈ body.elements, e.isLoop = false)
    (model : Model) : iterationText model (bodyPieces body) = substitute model body.markup := by
  suffices pieces : ∀ after, SamePieces model (body.piecesBefore keptInBody after)
      (Piece.consMarkup body.markup after) by
    have same := (pieces []).iterationText
    change iterationText model (body.piecesBefore keptInBody []) = _
    rw [same]
    exact List.append_nil _
  intro after
  induction body generalizing after with
  | nil =>
    intro text
    rw [consMarkup_consMarkup]
    exact congrArg (fun text => iterationText model (Piece.consMarkup text after))
      (List.append_nil text).symm
  | node content children next ihc ihn =>
    have hloop : content.isElement (·.isLoop) = false :=
      Content.isElement_eq_false fun e he => h e (by simp [Forest.elements, he])
    have inside := ihc fun e he => h e (by simp [Forest.elements, he])
    have behind := ihn fun e he => h e (by simp [Forest.elements, he])
    intro text
    rw [piecesBefore_other hloop, Forest.markup_node]
    split
    next =>
      rw [consMarkup_consMarkup, inside, consMarkup_consMarkup, consMarkup_consMarkup, behind,
        consMarkup_consMarkup, consMarkup_consMarkup]
      simp only [List.append_assoc]
    next =>
      rw [consMarkup_consMarkup, behind, consMarkup_consMarkup, consMarkup_consMarkup]
      simp only [List.append_nil, List.append_assoc]

theorem steerless_joined (h : ∀ e ∈ forest.elements, e.steers = false) :
    ∀ e ∈ forest.joined.elements, e.steers = false := by
  have joinText {shown : Text} {next : Forest} (hn : ∀ e ∈ next.elements, e.steers = false) :
      ∀ e ∈ (next.joinText shown).elements, e.steers = false := by
    unfold Forest.joinText
    split
    next => exact hn
    next =>
      split
      next => exact hn
      next => exact hn
  fun_induction Forest.joined forest with
  | case1 => exact h
  | case2 shown children next ih => exact joinText (ih (steerless_node h).2.2)
  | case3 content children next _ ihc ihn =>
    obtain ⟨_, hchildren, hnext⟩ := steerless_node h
    intro e he
    simp only [Forest.elements, List.mem_append] at he
    rcases he with (he | he) | he
    · exact h e (by simp [Forest.elements, he])
    · exact ihc hchildren e he
    · exact ihn hnext e he

theorem steerless_fill (h : ∀ e ∈ forest.elements, e.steers = false) (model : Model) :
    ∀ e ∈ (forest.fill model).elements, e.steers = false := by
  induction forest with
  | nil => exact h
  | node content children next ihc ihn =>
    obtain ⟨hcontent, hchildren, hnext⟩ := steerless_node h
    obtain ⟨_, _, hloop⟩ := Content.steerless hcontent
    rw [Forest.fill_other hloop]
    intro e he
    simp only [Forest.elements, List.mem_append] at he
    rcases he with (he | he) | he
    · cases content with
      | element old =>
        obtain rfl : e = old.fill model := by simpa [Content.fill, Content.element?] using he
        exact hcontent
      | text | verbatim => cases he
    · exact ihc hchildren e he
    · exact ihn hnext e he

end Steerless

/-- Well-formed markup without elements that steer is inert. -/
theorem Inert.of_writable {forest : Forest} (h : forest.Writable)
    (plain : ∀ e ∈ forest.elements, e.steers = false) : Inert forest.markup where
  markup := by rw [Forest.readForest_markup_joined h, Forest.markup_joined]
  steers := by
    rw [Forest.readForest_markup_joined h]
    exact steerless_joined plain

/-- The copies of a well-formed body with placeholders in its texts only are inert, if no text of
the data has a `<`. -/
theorem Loop.copies_inert {loop : Loop} {model : Model} {body : Forest} (hw : body.Writable)
    (hf : body.Fillable) (ht : body.FillsTexts) (plain : ∀ e ∈ body.elements, e.steers = false)
    (hm : model.Plain) (hentries : ∀ entry ∈ loop.entries, entry.1.Plain ∧ entry.2.Plain) :
    ∀ copy ∈ loop.copies model body, Inert copy := by
  intro copy hc
  obtain ⟨entry, he, rfl⟩ := List.mem_map.mp hc
  obtain ⟨hk, hv⟩ := hentries entry he
  rw [← iterationText_of_loopless (isLoop_of_steerless plain), iterationText_bodyPieces hf]
  exact .of_writable (hw.fill ht (Loop.bind_plain hm hk hv)) (steerless_fill plain _)

/-- An iteration over an inert text ends at once with what was read. -/
theorem iterationPass_of_inert {context : Context} {loop : Loop} {body : Forest}
    {entry : Value × Value} {run : Run} (hb : ∀ e ∈ body.elements, e.isLoop = false) {text : Text}
    (ht : substitute (loop.bind run.model entry) body.markup = text) (h : Inert text)
    (depth : Nat) :
    ∃ after, resolveLoops context depth
        (iterationPass context loop (bodyPieces body) entry run).1
        (iterationPass context loop (bodyPieces body) entry run).2 =
          some (after, (readForest text).1) ∧
      after.model = loop.bind run.model entry := by
  have forest : (iterationPass context loop (bodyPieces body) entry run).2 =
      (readForest text).1 := by
    rw [iterationPass_eq]
    have read : (iterationRead loop (bodyPieces body) entry run).2 = (readForest text).1 := by
      rw [iterationRead, iterationText_of_loopless hb, ht]
      rfl
    rw [read]
    exact resolveTags_of_steerless h.steers context _
  refine ⟨(iterationPass context loop (bodyPieces body) entry run).1, ?_, iterationPass_model ..⟩
  rw [forest, resolveLoops_eq]
  exact replaceLoops_loopless (isLoop_of_steerless h.steers) _ _

/-- The iterations write the copies one after the other. What is bound before them changes nothing
in the bindings of each. -/
theorem iterate_copies {context : Context} {loop : Loop} {model : Model} {body : Forest}
    (hb : ∀ e ∈ body.elements, e.isLoop = false) {entries : List (Value × Value)}
    (inert : ∀ entry ∈ entries, Inert (substitute (loop.bind model entry) body.markup)) {run : Run}
    (bound : ∀ entry, loop.bind run.model entry = loop.bind model entry) (depth : Nat) :
    ∃ after output, iterate context (resolveLoops context depth) loop (bodyPieces body) entries
        run = some (after, output) ∧
      written output = entries.flatMap fun entry =>
        substitute (loop.bind model entry) body.markup := by
  -- The run has the bindings of the iterations before it; `bound` says that they do not matter.
  induction entries generalizing run with
  | nil => exact ⟨run, .nil, rfl, rfl⟩
  | cons entry entries ih =>
    have copy := inert entry List.mem_cons_self
    obtain ⟨middle, hf, hm⟩ := @iterationPass_of_inert context loop body entry run hb _
      (congrArg (substitute · body.markup) (bound entry)) copy depth
    have rebound (later : Value × Value) :
        loop.bind middle.model later = loop.bind model later := by
      rw [hm, bound, Loop.bind_bind]
    obtain ⟨after, others, hr, hw⟩ := ih (fun later hl => inert later (List.mem_cons_of_mem _ hl))
      rebound
    let text := substitute (loop.bind model entry) body.markup
    refine ⟨after, (readForest text).1 ++ others, ?_, ?_⟩
    · exact iterate_cons_eq_some_iff.mpr ⟨_, _, hf, hr, rfl⟩
    · rw [written_append, hw, List.flatMap_cons, written, removeLinks_of_steerless copy.steers,
        copy.markup]

/-- A loop without loops inside writes the copies of its body, where these are inert. -/
theorem resolveLoop_copies {context : Context} {run : Run} {element : Element} {body : Forest}
    {loop : Loop} (hread : Loop.read run.model element = .ok loop)
    (hb : ∀ e ∈ body.elements, e.isLoop = false)
    (inert : ∀ copy ∈ loop.copies run.model body, Inert copy) (depth : Nat) :
    ∃ after output, resolveLoop context (resolveLoops context depth) run element body =
        some (after, output) ∧
      written output = (loop.copies run.model body).flatten := by
  obtain ⟨after, output, h, hw⟩ := @iterate_copies context loop run.model body hb loop.entries
    (fun entry he => inert _ (List.mem_map_of_mem he)) run (fun _ => rfl) depth
  refine ⟨after, output, ?_, ?_⟩
  · rw [resolveLoop_of_read hread, h]
  · rw [hw, Loop.copies, List.flatMap_def]

/-- The render shows the output of a loop element: the pass comes to it, or an iteration of a loop
that it comes to does. What is before it is written as the text. -/
inductive Shows (context : Context) : Pass → Text → Element → Forest → Run → Prop
  | here {pass : Pass} {before : Text} {element : Element} {body : Forest} {start : Run} :
      ComesTo context True pass.2 pass.1 before element body start →
      Shows context pass before element body start
  | inside {pass read : Pass} {before earlier : Text} {element : Element} {body : Forest}
      {start : Run} :
      Reads context True pass before read →
      Shows context (resolveTags context read.1 read.2) earlier element body start →
      Shows context pass (before ++ earlier) element body start

/-- The output of a loop that is shown is a part of what is written. -/
theorem Shows.ends {context : Context} {pass whole : Pass} {before : Text} {element : Element}
    {body : Forest} {start : Run} (shows : Shows context pass before element body start)
    {depth : Nat} (h : resolveLoops context depth pass.1 pass.2 = some whole) :
    ∃ part, resolveLoop context (resolveLoops context depth) start element body = some part ∧
      PartOf True before part whole := by
  induction shows generalizing whole with
  | here comes =>
    have deeper : replaceLoops (resolveLoop context (resolveLoops context depth)) _ _ =
        some whole := resolveLoops_mono (Nat.le_succ depth) h
    exact comes.ends deeper
  | inside reads _ ih =>
    obtain ⟨middle, hm, outside⟩ := reads.ends h
    obtain ⟨part, hp, inner⟩ := ih hm
    exact ⟨part, hp, outside.trans inner⟩

/-- A text whose placeholders have no values stays as it is. -/
theorem substitute_of_unresolved {model : Model} {text : Text}
    (h : ∀ path, .placeholder path ∈ fragments text → model.get? path = none) :
    substitute model text = text := by
  have same : ∀ fragment ∈ fragments text, fragment.fill model = fragment.source := by
    intro fragment hf
    cases fragment with
    | plain c => rfl
    | placeholder path => rw [Fragment.fill, h path hf]; rfl
  calc
    substitute model text = ((fragments text).map (·.fill model)).flatten := List.flatMap_def ..
    _ = ((fragments text).map Fragment.source).flatten := by rw [List.map_congr_left same]
    _ = (fragments text).flatMap Fragment.source := (List.flatMap_def ..).symm
    _ = text := Fragment.flatMap_source_fragments text

/-- A loop whose body steers nothing writes the copies of its body, one for each entry in order, if
these are inert, as they are for plain data (`Loop.copies_inert`). Where the render shows the loop,
they stand in the document, and in its text they stay as they are, if none of their placeholders has
a value in the end. -/
theorem loop_writes_copies {context : Context} {start : Run} {element : Element} {body : Forest}
    {valueName collection : Text} {value : Value} {entries : List (Value × Value)}
    (hval : element.setting? "val".toList = some valueName)
    (hin : element.setting? "in".toList = some collection)
    (hget : start.model.get? (lowerText collection) = some value)
    (hentries : value.entries? = some entries) (plain : ∀ e ∈ body.elements, e.steers = false)
    (inert : ∀ copy ∈ (element.loopOver valueName entries).copies start.model body, Inert copy) :
    let copies := ((element.loopOver valueName entries).copies start.model body).flatten
    (∀ depth, ∃ after output,
      resolveLoop context (resolveLoops context depth) start element body = some (after, output) ∧
        written output = copies) ∧
    ∀ {model compiled before}, Shows context (documentPass context model compiled) before element
        body start → ∀ {depth rendering}, render? context depth model compiled = some rendering →
      ∃ run forest rest, resolveDocument context depth model compiled = some (run, forest) ∧
        forest.markup = before ++ (copies ++ rest) ∧
        (NoOpenBrace before → NoOpenBrace copies →
          (∀ path, .placeholder path ∈ fragments copies → run.model.get? path = none) →
          rendering.text =
            substitute run.model before ++ (copies ++ substitute run.model rest)) := by
  intro copies
  have hread := Loop.read_loopOver hval hin hget hentries
  have output := @resolveLoop_copies context start element body _ hread
    (isLoop_of_steerless plain) inert
  refine ⟨output, fun {model compiled before} shows {depth rendering} h => ?_⟩
  rw [render?_eq] at h
  obtain ⟨⟨run, forest⟩, hd, rfl⟩ := Option.map_eq_some_iff.mp h
  have resolved := hd
  rw [resolveDocument_eq] at hd
  obtain ⟨whole, hw, hd⟩ := Option.bind_eq_some_iff.mp hd
  cases Option.some.inj hd
  obtain ⟨part, hp, shown⟩ := shows.ends hw
  obtain ⟨after, written, ho, copied⟩ := output depth
  cases hp.symm.trans ho
  obtain ⟨rest, hm⟩ := shown.written trivial
  rw [copied] at hm
  refine ⟨_, _, rest, resolved, hm, fun hbefore hcopies unresolved => ?_⟩
  change substitute whole.1.model (removeLinks whole.2).markup = _
  have document : (removeLinks whole.2).markup = before ++ (copies ++ rest) := hm
  rw [document, substitute_append hbefore, substitute_append hcopies,
    substitute_of_unresolved unresolved]

theorem brace_mem_of_placeholder {text path : Text} (h : .placeholder path ∈ fragments text) :
    '{' ∈ text := by
  rw [← Fragment.flatMap_source_fragments text]
  exact List.mem_flatMap.mpr ⟨_, h, List.mem_cons_self⟩

/-- A loop that writes an item of a list for each value. -/
def itemLoop : Text :=
  "<foreach val=\"x\" key=\"k\" in=\"a\"><li>\x7bk\x7d: \x7bx\x7d</li></foreach>".toList

/-- The loop as an element. -/
def itemLoopElement : Element :=
  ⟨"foreach".toList, [⟨"val".toList, .quoted .double "x".toList⟩,
    ⟨"key".toList, .quoted .double "k".toList⟩, ⟨"in".toList, .quoted .double "a".toList⟩],
    .normal⟩

/-- The body of the loop. -/
def itemLoopBody : Forest :=
  .node (.element ⟨"li".toList, [], .normal⟩)
    (.node (.text "\x7bk\x7d: \x7bx\x7d".toList) .nil .nil) .nil

/-- A title and one value. -/
def oneItem (shown : Text) : Model :=
  .ofValue (.record [("t".toList, .text "T".toList), ("a".toList, .list [.text shown])])

/-- A value that writes a placeholder with a value, a chain or an element that it does not end is
not written as it is. -/
theorem itemLoop_not_verbatim :
    readForest itemLoop = (.node (.element itemLoopElement) itemLoopBody .nil, []) ∧
      (∀ e ∈ itemLoopBody.elements, e.steers = false) ∧
      ∀ shown ∈ [placeholderText "t".toList, "<if t>1</if>".toList, "<b>1".toList],
        ((Loop.read (oneItem shown) itemLoopElement).toOption.map fun loop =>
          (loop.copies (oneItem shown) itemLoopBody).flatten) =
            some ("<li>0: ".toList ++ shown ++ "</li>".toList) ∧
          (render? noTemplates 1 (oneItem shown) itemLoop).isSome ∧
          (render? noTemplates 1 (oneItem shown) itemLoop).map (·.text) ≠
            some ("<li>0: ".toList ++ shown ++ "</li>".toList) := by
  decide +kernel

/-- A title and two values, one of them with markup. -/
def itemModel : Model :=
  .ofValue (.record [("t".toList, .text "T".toList),
    ("a".toList, .list [.text "<b>1</b>".toList, .text "2".toList])])

/-- The values of the loop with their keys. -/
def itemEntries : List (Value × Value) :=
  [(.number (.integer 0), .text "<b>1</b>".toList), (.number (.integer 1), .text "2".toList)]

/-- The loop behind a placeholder, in a list. -/
def itemDocument : Text :=
  "<ul>\x7bt\x7d".toList ++ itemLoop ++ "</ul>".toList

theorem shows_itemLoop : ∃ start, start.model = itemModel ∧
    Shows noTemplates (documentPass noTemplates itemModel itemDocument) "<ul>\x7bt\x7d".toList
      itemLoopElement itemLoopBody start := by
  let title : Content := .text "\x7bt\x7d".toList
  let start : Run := (documentPass noTemplates itemModel itemDocument).1
  have forest : (documentPass noTemplates itemModel itemDocument).2 =
      .node (.element ⟨"ul".toList, [], .normal⟩)
        (.node title .nil (.node (.element itemLoopElement) itemLoopBody .nil)) .nil := by
    decide +kernel
  refine ⟨start, documentPass_model .., .here ?_⟩
  rw [forest]
  have loop : ComesTo noTemplates True (.node (.element itemLoopElement) itemLoopBody .nil) start []
      itemLoopElement itemLoopBody start := .here (by decide)
  have nothing : resolveLoops noTemplates 0 start .nil = some (start, .nil) := rfl
  have behind : ComesTo noTemplates True
      (.node title .nil (.node (.element itemLoopElement) itemLoopBody .nil)) start
      (title.writtenAs (written .nil) []) itemLoopElement itemLoopBody start :=
    .after rfl nothing loop
  exact .inside (by decide) (fun _ => by decide) behind

/-- What the loop writes. -/
def itemCopies : Text :=
  "<li>0: <b>1</b></li><li>1: 2</li>".toList

theorem loop_writes_copies_items : ∃ rendering rest,
    render? noTemplates 1 itemModel itemDocument = some rendering ∧
      rendering.text = "<ul>T".toList ++ (itemCopies ++ rest) := by
  obtain ⟨start, hm, shows⟩ := shows_itemLoop
  have ends : (render? noTemplates 1 itemModel itemDocument).isSome := by decide +kernel
  obtain ⟨rendering, h⟩ := Option.isSome_iff_exists.mp ends
  have hval : itemLoopElement.setting? "val".toList = some "x".toList := by decide
  have hin : itemLoopElement.setting? "in".toList = some "a".toList := by decide
  have copies : (itemLoopElement.loopOver "x".toList itemEntries).copies itemModel itemLoopBody =
      ["<li>0: <b>1</b></li>".toList, "<li>1: 2</li>".toList] := by decide +kernel
  have inert : ∀ copy ∈ (itemLoopElement.loopOver "x".toList itemEntries).copies start.model
      itemLoopBody, Inert copy := by
    rw [hm, copies]
    exact List.forall_mem_cons.mpr ⟨⟨by decide +kernel, by decide +kernel⟩,
      List.forall_mem_singleton.mpr ⟨by decide +kernel, by decide +kernel⟩⟩
  have hget : start.model.get? (lowerText "a".toList) =
      some (.list [.text "<b>1</b>".toList, .text "2".toList]) := by
    have path : Path.read? (lowerText "a".toList) = some ⟨"a".toList, []⟩ := by decide +kernel
    rw [hm, Model.get?, path]
    rfl
  have hentries : (Value.list [.text "<b>1</b>".toList, .text "2".toList]).entries? =
      some itemEntries := rfl
  have steerless : ∀ e ∈ itemLoopBody.elements, e.steers = false := by decide
  obtain ⟨_, shown⟩ :=
    @loop_writes_copies noTemplates _ _ _ _ _ _ _ hval hin hget hentries steerless inert
  have joined : ["<li>0: <b>1</b></li>".toList, "<li>1: 2</li>".toList].flatten = itemCopies := rfl
  rw [hm, copies, joined] at shown
  obtain ⟨run, forest, rest, hd, _, text⟩ := shown shows h
  have title : (resolveDocument noTemplates 1 itemModel itemDocument).map
      (fun pass => substitute pass.1.model "<ul>\x7bt\x7d".toList) = some "<ul>T".toList := by
    decide +kernel
  rw [hd, Option.map_some, Option.some.injEq] at title
  have closed : NoOpenBrace "<ul>\x7bt\x7d".toList :=
    (@noOpenBrace_of_notMem "<ul>".toList (by decide)).append
      (@noOpenBrace_placeholder "t".toList (by decide))
  have plain : '{' ∉ itemCopies := by decide
  have written := text closed (noOpenBrace_of_notMem plain)
    fun path hp => absurd (brace_mem_of_placeholder hp) plain
  rw [title] at written
  exact ⟨rendering, substitute run.model rest, h, written⟩

end MarkupTemplate
