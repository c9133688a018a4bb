import MarkupTemplate.Proofs.Render.UnfoldedLoops

namespace MarkupTemplate

open Forest

variable {context : Context} {part : Part context} {now : Model} {fills : Text → Text → Prop}
variable {looped : Prop}

/-- The elements that are open after a text, innermost first. -/
def openAfter (text : Text) : List Element :=
  ((tokens text).foldl Builder.step {}).around.map (·.element)

/-- Each include that is open, innermost first, is in the body of a loop. -/
def Sheltered : List Element → Prop
  | [] => True
  | e :: around => (e.isInclusion = true → ∃ o ∈ around, o.isLoop = true) ∧ Sheltered around

theorem sheltered_of_none {around : List Element} (h : ∀ o ∈ around, o.isInclusion = false) :
    Sheltered around := by
  induction around with
  | nil => trivial
  | cons e around ih =>
    obtain ⟨he, h⟩ := List.forall_mem_cons.mp h
    refine ⟨fun hi => ?_, ih h⟩
    cases he.symm.trans hi

/-- A text that is one element without children. -/
inductive Element.Childless (e : Element) : Text → Prop
  | selfClosed {text : Text} :
      readMarkup? text = some (.opening e.name e.attributes true, []) → e.form = .selfClosed →
      Childless e text
  | closed {text rest name : Text} :
      readMarkup? text = some (.opening e.name e.attributes false, rest) →
      readMarkup? rest = some (.closing name, []) → sameName e.name name = true →
      e.form = .normal → Childless e text

theorem name_of_isInclusion {e : Element} (h : e.isInclusion = true) :
    isVoidName e.name = false ∧ isRawTextName e.name = false := by
  have void : ∀ n ∈ voidNames, (roleNames.lookup n).getD .plain ≠ .inclusion := by decide
  have raw : ∀ n ∈ rawTextNames, (roleNames.lookup n).getD .plain ≠ .inclusion := by decide
  have role : (roleNames.lookup (lowerAscii e.name)).getD .plain = .inclusion := by
    simpa [Element.isInclusion, Element.role] using h
  constructor
  · rw [isVoidName, List.contains_eq_mem, decide_eq_false_iff_not]
    exact fun hm => void _ hm role
  · rw [isRawTextName, List.contains_eq_mem, decide_eq_false_iff_not]
    exact fun hm => raw _ hm role

/-- The tokens of the element add it to any builder, whatever comes after it. -/
theorem Element.Childless.exists_tokens {e : Element} {text : Text} (h : e.Childless text)
    (hi : e.isInclusion = true) :
    ∃ written : List Token, (∀ tail, tokens (text ++ tail) = written ++ tokens tail) ∧
      ∀ builder : Builder, (spell written).foldl Builder.step builder =
        { builder with nodes := .node (.element e) .nil builder.nodes } := by
  obtain ⟨hvoid, hraw⟩ := name_of_isInclusion hi
  cases h with
  | selfClosed hm hf =>
    refine ⟨[.opening e.name e.attributes true], fun tail => ?_, fun builder => ?_⟩
    · exact tokensIn_of_readMarkup? (readMarkup?_extend hm tail)
    · simp [spell, Token.spelled, Builder.step, Builder.add, ← hf]
  | @closed rest name hm hc hn hf =>
    refine ⟨[.opening e.name e.attributes false, .closing name], fun tail => ?_,
      fun builder => ?_⟩
    · unfold tokens
      rw [tokensIn_of_readMarkup? (readMarkup?_extend hm tail), Token.rawText?, hraw,
        if_neg Bool.false_ne_true, tokensIn_of_readMarkup? (readMarkup?_extend hc tail)]
      rfl
    · simp [spell, Token.spelled, Builder.step, hvoid, ← hf, Builder.enter, List.findIdx?_cons, hn,
        Builder.leave, Builder.closeAll, Forest.reverseOnto]

/-- A text that needs no repairs adds what it reads, divided into characters, to any builder. -/
theorem Builder.exists_spelled {text : Text} {forest : Forest}
    (h : readForest text = (forest, [])) :
    ∃ content, forest.Split content ∧ ∀ builder : Builder,
      (spell (tokens text)).foldl Builder.step builder =
        { builder with nodes := content.reverse ++ builder.nodes } := by
  have empty : Builder.Split {} {} := .top .nil
  have spelled := empty.foldl (tokens text)
  rw [eq_of_finish h] at spelled
  generalize hb : (spell (tokens text)).foldl Builder.step {} = built at spelled
  cases spelled with
  | @top _ nodes _ hn =>
    rw [reverse_reverse] at hn
    refine ⟨nodes.reverse, hn, fun builder => ?_⟩
    have honto := foldl_onto builder (congrArg Builder.warnings hb)
    rw [hb] at honto
    rw [reverse_reverse]
    exact honto

/-- The second builder has the content of the part where the first one has an include of it, or
this is in a loop that is still open, which is so only if `looped` holds. -/
inductive Builder.Spliced {context : Context} (part : Part context) (now : Model)
    (fills : Text → Text → Prop) (looped : Prop) : Builder → Builder → Prop
  | here {nodes nodes' : Forest} {around : List OpenElement} {warnings : List Warning} :
      Sheltered (around.map (·.element)) →
      (∀ o ∈ around.map (·.element), o.isLoop = true → looped) →
      (MarkupTemplate.Spliced part now fills looped true nodes.reverse nodes'.reverse ∨
        ∃ o ∈ around.map (·.element), o.isLoop = true) →
      Spliced part now fills looped ⟨nodes, around, warnings⟩ ⟨nodes', around, warnings⟩
  | under {nodes before before' : Forest} {e : Element} {around around' : List OpenElement}
      {warnings : List Warning} :
      Spliced part now fills looped ⟨before, around, warnings⟩ ⟨before', around', warnings⟩ →
      Spliced part now fills looped ⟨nodes, ⟨e, before⟩ :: around, warnings⟩
        ⟨nodes, ⟨e, before'⟩ :: around', warnings⟩

namespace Builder.Spliced

variable {a b : Builder}

theorem names (h : Builder.Spliced part now fills looped a b) :
    a.around.map (·.element) = b.around.map (·.element) := by
  induction h with
  | here => rfl
  | under _ ih => exact congrArg (List.cons _) ih

theorem put (h : Builder.Spliced part now fills looped a b) (content : Content)
    (children : Forest) :
    Builder.Spliced part now fills looped { a with nodes := .node content children a.nodes }
      { b with nodes := .node content children b.nodes } := by
  cases h with
  | here hs hd h =>
    refine .here hs hd (h.imp_left fun h => ?_)
    rw [reverse_node, reverse_node]
    exact h.append (.same .nil)
  | under h => exact .under h

theorem warn (h : Builder.Spliced part now fills looped a b) (warning : Warning) :
    Builder.Spliced part now fills looped (a.warn warning) (b.warn warning) := by
  induction h with
  | here hs hd h => exact .here hs hd h
  | under _ ih => exact .under ih

theorem enter (h : Builder.Spliced part now fills looped a b) (e : Element) :
    Builder.Spliced part now fills looped (a.enter e) (b.enter e) := by
  cases h with
  | here hs hd h => exact .under (.here hs hd h)
  | under h => exact .under (.under h)

/-- A loop closes over all that differs in it. Other elements are no includes or in a loop. -/
theorem leave (h : Builder.Spliced part now fills looped a b) :
    Builder.Spliced part now fills looped (a.leave 1) (b.leave 1) := by
  cases h with
  | @here nodes nodes' around warnings hs hd h =>
    cases around with
    | nil => exact .here hs hd h
    | cons level around =>
      obtain ⟨hi, hs⟩ := hs
      refine .here hs (fun o ho => hd o (List.mem_cons_of_mem _ ho)) ?_
      have closed (h : MarkupTemplate.Spliced part now fills looped true
          (.node (.element level.element) nodes.reverse .nil)
          (.node (.element level.element) nodes'.reverse .nil)) :
          MarkupTemplate.Spliced part now fills looped true
            (Forest.node (.element level.element) nodes.reverse level.before).reverse
            (Forest.node (.element level.element) nodes'.reverse level.before).reverse := by
        rw [reverse_node, reverse_node]
        exact (MarkupTemplate.Spliced.refl true _).append h
      cases hl : level.element.isLoop with
      | true => exact .inl (closed (.loop hl (hd _ List.mem_cons_self hl) .nil))
      | false =>
        rcases h with h | ⟨o, ho, hloop⟩
        · cases hinclude : level.element.isInclusion with
          | true => exact .inr (hi hinclude)
          | false =>
            have none : Content.inclusion? (.element level.element) = none := by
              simp [Content.inclusion?, Content.element?, hinclude]
            exact .inl (closed (.into hl none (.refl _) h .nil))
        · rcases List.mem_cons.mp ho with rfl | ho
          · cases hl.symm.trans hloop
          · exact .inr ⟨o, ho, hloop⟩
  | @under nodes _ _ e _ _ _ h => exact h.put (.element e) nodes.reverse

theorem keeps : Keeps (Builder.Spliced part now fills looped) where
  names := names
  warn h := h.warn _
  add _ h := h.put _ .nil
  enter h := h.enter _
  leave := leave

theorem foldl (h : Builder.Spliced part now fills looped a b) (tokens : List Token) :
    Builder.Spliced part now fills looped (tokens.foldl step a) (tokens.foldl step b) := by
  induction tokens generalizing a b with
  | nil => exact h
  | cons token tokens ih =>
    apply ih
    cases token with
    | text shown => exact h.put (.text shown) .nil
    | comment | declaration | opening | closing => exact keeps.step h fun shown he => by cases he

theorem nodes (h : Builder.Spliced part now fills looped a b) (closed : a.around = []) :
    MarkupTemplate.Spliced part now fills looped true a.nodes.reverse b.nodes.reverse := by
  cases h with
  | here _ _ h =>
    obtain rfl := closed
    exact h.resolve_right fun ⟨_, ho, _⟩ => by cases ho
  | under => cases closed

theorem finish (h : Builder.Spliced part now fills looped a b) :
    MarkupTemplate.Spliced part now fills looped true a.finish.1 b.finish.1 := by
  have hlen := congrArg List.length h.names
  rw [List.length_map, List.length_map] at hlen
  rw [finish_forest, finish_forest, ← hlen]
  exact (keeps.leaveMany h _).nodes (by simp [Builder.leave])

end Builder.Spliced

/-- The forests of a text with an include of the part, and with another text in its place in which
the nodes of the part are read. -/
theorem unfolds_of_childless {before text other after : Text} {e : Element} {forest : Forest}
    (whole : Whole before) (alone : e.Childless text) (inclusion : e.isInclusion = true)
    (sheltered : Sheltered (openAfter before))
    (asked : (∀ o ∈ openAfter before, o.isLoop = false) → part.AskedBy e)
    (hd : ∀ o ∈ openAfter before, o.isLoop = true → looped)
    (otherWhole : Whole other) (reads : readForest other = (forest, []))
    (h : Unfolds part now fills looped true part.forest forest) :
    Unfolds part now fills looped true (readForest (before ++ (text ++ after))).1
      (readForest (before ++ (other ++ after))).1 := by
  obtain ⟨written, htokens, hbuild⟩ := alone.exists_tokens inclusion
  obtain ⟨content, hcontent, hother⟩ := Builder.exists_spelled reads
  obtain ⟨a, a', ha, ha', hspliced⟩ := h
  have empty : Builder.Split {} {} := .top .nil
  have names := (empty.foldl (tokens before)).names
  change openAfter before = _ at names
  generalize hb : (spell (tokens before)).foldl Builder.step {} = builder at names
  have start : Builder.Spliced part now fills looped
      { builder with nodes := .node (.element e) .nil builder.nodes }
      { builder with nodes := content.reverse ++ builder.nodes } := by
    refine .here (names ▸ sheltered) (names ▸ hd) ?_
    by_cases inside : ∃ o ∈ openAfter before, o.isLoop = true
    · exact .inr (names ▸ inside)
    · refine .inl ?_
      have he := asked fun o ho => Bool.eq_false_iff.mpr fun hl => inside ⟨o, ho, hl⟩
      obtain rfl := hcontent.unique ha'
      rw [reverse_node, reverse_append, reverse_reverse]
      have hole : MarkupTemplate.Spliced part now fills looped true
          (.node (.element e) .nil .nil) (content ++ .nil) := .splice he ha (hspliced.append .nil)
      rw [Forest.append_nil] at hole
      exact (MarkupTemplate.Spliced.refl true _).append hole
  have first : spell (tokens (before ++ (text ++ after))) =
      spell (tokens before) ++ (spell written ++ spell (tokens after)) := by
    rw [whole.spell_tokens, htokens, spell_append]
  have second : spell (tokens (before ++ (other ++ after))) =
      spell (tokens before) ++ (spell (tokens other) ++ spell (tokens after)) := by
    rw [whole.spell_tokens, otherWhole.spell_tokens]
  refine ⟨_, _, (empty.foldl _).finish, (empty.foldl _).finish, ?_⟩
  rw [first, second, List.foldl_append, List.foldl_append, List.foldl_append, List.foldl_append, hb,
    hbuild, hother]
  exact (start.foldl _).finish

/-- An iteration that reads the content of the part, as it is filled in the other one, where it
reads the include. -/
theorem Reading.unfolds_of_childless {last : Model} {may : Text → Prop}
    {before text other after : Text} {e : Element} {forest : Forest} {pass pass' : Pass}
    (whole : Whole before) (alone : e.Childless text) (inclusion : e.isInclusion = true)
    (sheltered : Sheltered (openAfter before))
    (asked : (∀ o ∈ openAfter before, o.isLoop = false) → part.AskedBy e)
    (otherWhole : Whole other) (reads : readForest other = (forest, []))
    (h : MarkupTemplate.Unfolds part pass.1.model fills True true part.forest forest)
    (apart : LinksApart fills pass.2)
    (lasting : ∀ path shown, placeholderText path <:+: pass.2.outsideLoops → fills path shown →
      Lasting last may path shown) :
    Reading.Unfolds part last may ⟨before ++ (text ++ after), pass⟩
      ⟨before ++ (other ++ after), pass'⟩ :=
  fun _ => ⟨fills, MarkupTemplate.unfolds_of_childless whole alone inclusion sheltered asked
    (fun _ _ _ => True.intro) otherWhole reads h, apart, lasting⟩

end MarkupTemplate
