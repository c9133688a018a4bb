import MarkupTemplate.Proofs.Render.LoopCourses
import MarkupTemplate.Proofs.Render.ResolvedTags

namespace MarkupTemplate

open Forest

theorem Content.loop?_eq_none {content : Content} {children next : Forest}
    (h : ∀ e ∈ (Forest.node content children next).elements, e.isLoop = false) :
    content.loop? = none := by
  cases content with
  | text | verbatim => rfl
  | element e =>
    have he : e.isLoop = false := h e (by simp [Forest.elements, Content.element?])
    simp [Content.loop?, Content.element?, he]

/-- Where no loop stands, a pass over loops does nothing. -/
theorem replaceLoops_loopless {forest : Forest} (h : ∀ e ∈ forest.elements, e.isLoop = false)
    (output : Run → Element → Forest → Option Pass) (run : Run) :
    replaceLoops output forest run = some (run, forest) := by
  induction forest with
  | nil => rfl
  | node content children next ihc ih =>
    rw [replaceLoops_other (Content.loop?_eq_none h),
      ihc fun e he => h e (by simp [Forest.elements, he]), Option.bind_some,
      ih fun e he => h e (by simp [Forest.elements, he]), Option.bind_some]

/-- A place of an element with the property that is not in a loop. -/
def Place.isOuter (property : Element → Bool) (place : Place) : Bool :=
  place.content.isElement property && !place.inLoop

/-- The first element with the property that is in no loop, with its children, the nodes after it,
and the forest around these. -/
inductive FirstOuter (property : Element → Bool) :
    Forest → Element → Forest → Forest → (Forest → Forest) → Prop
  | here {e : Element} {children next : Forest} : property e = true →
      FirstOuter property (.node (.element e) children next) e children next id
  | inside {content : Content} {inner next children after : Forest} {e : Element}
      {around : Forest → Forest} : content.isElement property = false →
      content.isElement (·.isLoop) = false →
      FirstOuter property inner e children after around →
      FirstOuter property (.node content inner next) e children after
        fun rest => .node content (around rest) next
  | later {content : Content} {inner next children after : Forest} {e : Element}
      {around : Forest → Forest} : content.isElement property = false →
      (content.isElement (·.isLoop) = false → ∀ e ∈ inner.outerElements, property e = false) →
      FirstOuter property next e children after around →
      FirstOuter property (.node content inner next) e children after
        fun rest => .node content inner (around rest)

section Finding

variable {property : Element → Bool} {forest : Forest} {way : List Frame}

theorem findFrom?_isOuter_of_entersLoop (h : way.any Frame.entersLoop = true) :
    forest.findFrom? (Place.isOuter property) way = none := by
  induction forest generalizing way with
  | nil => rfl
  | node content children next ihc ihn =>
    rw [Forest.findFrom?, Place.isOuter, Place.inLoop_eq, h, ihc (by simp [h]),
      ihn (by simp [h])]
    simp

/-- An outer element is found if there is one, and it is the first one. -/
theorem findFrom?_isOuter_cases (outside : way.any Frame.entersLoop = false) (forest : Forest) :
    (forest.findFrom? (Place.isOuter property) way = none ∧
        ∀ e ∈ forest.outerElements, property e = false) ∨
      ∃ place e around, forest.findFrom? (Place.isOuter property) way = some place ∧
        place.content = .element e ∧
        FirstOuter property forest e place.children place.next around ∧
        ∀ rest, plug rest place.way = plug (around rest) way := by
  induction forest generalizing way with
  | nil => exact .inl ⟨rfl, by simp [Forest.outerElements]⟩
  | node content children next ihc ihn =>
    have past : (Frame.past content children :: way).any Frame.entersLoop = false := by
      simpa [Frame.entersLoop] using outside
    rw [Forest.findFrom?, Place.isOuter, Place.inLoop_eq, outside]
    cases hp : content.isElement property with
    | true =>
      obtain ⟨e, he, hpe⟩ := (Option.any_eq_true ..).mp hp
      cases content with
      | element other =>
        cases he
        exact .inr ⟨⟨way, .element e, children, next⟩, e, id, rfl, rfl, .here hpe, fun _ => rfl⟩
      | text | verbatim => cases he
    | false =>
      simp only [Bool.false_and, Bool.false_eq_true, if_false]
      have here : ∀ e, content.element? = some e → property e = false := fun e he => by
        simpa [Content.isElement, he] using hp
      have within (hl : content.isElement (·.isLoop) = false) :
          (Frame.into content next :: way).any Frame.entersLoop = false := by
        simpa [Frame.entersLoop, hl] using outside
      -- Of what is inside a loop nothing is found, and nothing is an outer element.
      have inside : (children.findFrom? (Place.isOuter property) (.into content next :: way) = none ∧
          (content.isElement (·.isLoop) = false →
            ∀ e ∈ children.outerElements, property e = false)) ∨
          ∃ place e around, children.findFrom? (Place.isOuter property) (.into content next :: way) =
              some place ∧ place.content = .element e ∧
            FirstOuter property (.node content children next) e place.children place.next around ∧
            ∀ rest, plug rest place.way = plug (around rest) way := by
        cases hl : content.isElement (·.isLoop) with
        | true =>
          exact .inl ⟨findFrom?_isOuter_of_entersLoop (by simp [Frame.entersLoop, hl]),
            fun outside => by cases outside⟩
        | false =>
          rcases ihc (within hl) with ⟨hf, hnone⟩ | ⟨place, e, around, hf, he, hfirst, hplug⟩
          · exact .inl ⟨hf, fun _ => hnone⟩
          · exact .inr ⟨place, e, _, hf, he, .inside hp hl hfirst, hplug⟩
      rcases inside with ⟨hf, hnone⟩ | ⟨place, e, around, hf, he, hfirst, hplug⟩
      · rw [hf]
        rcases ihn past with ⟨hf', hnone'⟩ | ⟨place, e, around, hf', he, hfirst, hplug⟩
        · refine .inl ⟨hf', fun e he => ?_⟩
          simp only [Forest.outerElements, List.mem_append, Option.mem_toList] at he
          rcases he with (he | he) | he
          · exact here e he
          · split at he
            next => cases he
            next hl => exact hnone (by simpa using hl) e he
          · exact hnone' e he
        · exact .inr ⟨place, e, _, hf', he, .later hp hnone hfirst, hplug⟩
      · rw [hf]
        exact .inr ⟨place, e, around, rfl, he, hfirst, hplug⟩

theorem find?_isOuter_cases (property : Element → Bool) (forest : Forest) :
    (forest.find? (Place.isOuter property) = none ∧
        ∀ e ∈ forest.outerElements, property e = false) ∨
      ∃ place e around, forest.find? (Place.isOuter property) = some place ∧
        place.content = .element e ∧
        FirstOuter property forest e place.children place.next around ∧
        ∀ rest, plug rest place.way = around rest :=
  findFrom?_isOuter_cases rfl forest

theorem FirstOuter.mem {e : Element} {children after : Forest} {around : Forest → Forest}
    (h : FirstOuter property forest e children after around) :
    e ∈ forest.outerElements ∧ property e = true := by
  induction h with
  | here hp => exact ⟨by simp [Forest.outerElements, Content.element?], hp⟩
  | inside _ hl _ ih => exact ⟨Forest.mem_outerElements_of_mem_children hl ih.1, ih.2⟩
  | later _ _ _ ih => exact ⟨Forest.mem_outerElements_of_mem_next ih.1, ih.2⟩

theorem find?_isOuter_eq_none_iff :
    forest.find? (Place.isOuter property) = none ↔
      ∀ e ∈ forest.outerElements, property e = false := by
  rcases find?_isOuter_cases property forest with ⟨hf, hnone⟩ | ⟨_, e, _, hf, _, hfirst, _⟩
  · exact ⟨fun _ => hnone, fun _ => hf⟩
  · refine ⟨fun h => ?_, fun h => ?_⟩
    · cases h.symm.trans hf
    · have hp := hfirst.mem.2
      rw [h e hfirst.mem.1] at hp
      cases hp

/-- The place that is found is that of the first outer element. -/
theorem firstOuter_of_find? {place : Place} {e : Element}
    (hf : forest.find? (Place.isOuter property) = some place) (he : place.content = .element e) :
    ∃ around, FirstOuter property forest e place.children place.next around ∧
      ∀ rest, plug rest place.way = around rest := by
  rcases find?_isOuter_cases property forest with
    ⟨hnone, _⟩ | ⟨same, other, around, hsome, ho, hfirst, hplug⟩
  · cases hnone.symm.trans hf
  · cases hsome.symm.trans hf
    cases he.symm.trans ho
    exact ⟨around, hfirst, hplug⟩

end Finding

section Chains

variable {model : Model} {forest children after : Forest} {e : Element} {around : Forest → Forest}

theorem resolveChains_of_headless (h : ∀ e ∈ forest.outerElements, e.isHead = false) :
    resolveChains model forest = (forest, []) := by
  induction forest with
  | nil => rw [resolveChains]
  | node content children next ihc ihn =>
    have hh : content.head? = none := by
      refine Option.filter_eq_none_iff.mpr fun e he => ?_
      simp [h e (by simp [Forest.outerElements, he])]
    have hn := ihn fun e he => h e (Forest.mem_outerElements_of_mem_next he)
    rw [resolveChains]
    simp only [hh, hn]
    split
    next => rfl
    next hl =>
      have hl : content.isElement (·.isLoop) = false := by simpa using hl
      rw [ihc fun e he => h e (Forest.mem_outerElements_of_mem_children hl he)]
      rfl

/-- All chains are resolved as if the first one were resolved before all others. -/
theorem FirstOuter.resolveChains (h : FirstOuter (·.isHead) forest e children after around)
    (model : Model) :
    MarkupTemplate.resolveChains model forest =
      let chain := links after after
      let chosen := choose model (⟨e, children⟩ :: chain.1)
      let rest := MarkupTemplate.resolveChains model (around (chosen.1 ++ chain.2))
      (rest.1, chosen.2 ++ rest.2) := by
  have headless {content : Content} (hp : content.isElement (·.isHead) = false) :
      content.head? = none := by
    refine Option.filter_eq_none_iff.mpr fun e he => ?_
    simpa [Content.isElement, he] using hp
  induction h with
  | @here e children next hp =>
    have hh : (Content.element e).head? = some e := by simp [Content.head?, Content.element?, hp]
    rw [MarkupTemplate.resolveChains]
    simp only [hh, id]
  | inside hp hl _ ih =>
    dsimp only
    rw [MarkupTemplate.resolveChains, MarkupTemplate.resolveChains]
    simp only [headless hp, hl, ih, Bool.false_eq_true, if_false, List.append_assoc]
  | later hp hnone _ ih =>
    dsimp only
    rw [MarkupTemplate.resolveChains, MarkupTemplate.resolveChains]
    simp only [headless hp, ih]
    split
    next => rfl
    next hl =>
      rw [resolveChains_of_headless (hnone (by simpa using hl))]
      rfl

end Chains

section Loops

variable {output : Run → Element → Forest → Option Pass} {forest children after : Forest}
  {e : Element} {around : Forest → Forest} {run : Run}

/-- Where no loop is outermost, there is none. -/
theorem loopless_of_outer (h : ∀ e ∈ forest.outerElements, e.isLoop = false) :
    ∀ e ∈ forest.elements, e.isLoop = false := by
  induction forest with
  | nil => simp [Forest.elements]
  | node content children next ihc ihn =>
    have hl : content.isElement (·.isLoop) = false :=
      Content.isElement_eq_false fun e he => h e (by simp [Forest.outerElements, he])
    intro e he
    simp only [Forest.elements, List.mem_append, Option.mem_toList] at he
    rcases he with (he | he) | he
    · exact h e (by simp [Forest.outerElements, he])
    · exact ihc (fun e he => h e (Forest.mem_outerElements_of_mem_children hl he)) e he
    · exact ihn (fun e he => h e (Forest.mem_outerElements_of_mem_next he)) e he

theorem replaceLoops_append (output : Run → Element → Forest → Option Pass) (a b : Forest)
    (run : Run) :
    replaceLoops output (a ++ b) run =
      (replaceLoops output a run).bind fun first =>
        (replaceLoops output b first.1).bind fun rest => some (rest.1, first.2 ++ rest.2) := by
  induction a generalizing run with
  | nil =>
    rw [Forest.nil_append, replaceLoops, Option.bind_some]
    cases replaceLoops output b run <;> rfl
  | node content children next ihc ihn =>
    rw [Forest.node_append]
    cases hl : content.loop? with
    | some element =>
      simp only [replaceLoops_loop hl, ihn, Option.bind_assoc, Option.bind_some,
        Forest.append_assoc]
    | none =>
      simp only [replaceLoops_other hl, ihn, Option.bind_assoc, Option.bind_some,
        Forest.node_append]

/-- All loops are resolved as if the first one were replaced before all others, as its output has no
loops. -/
theorem FirstOuter.replaceLoops (h : FirstOuter (·.isLoop) forest e children after around)
    (loopless : ∀ {pass : Pass}, output run e children = some pass →
      ∀ e ∈ pass.2.elements, e.isLoop = false) :
    MarkupTemplate.replaceLoops output forest run =
      (output run e children).bind fun first =>
        MarkupTemplate.replaceLoops output (around (first.2 ++ after)) first.1 := by
  have other {content : Content} (hp : content.isElement (·.isLoop) = false) :
      content.loop? = none := by
    refine Option.filter_eq_none_iff.mpr fun e he => ?_
    simpa [Content.isElement, he] using hp
  induction h with
  | @here e children next hp =>
    have hl : (Content.element e).loop? = some e := by simp [Content.loop?, Content.element?, hp]
    rw [replaceLoops_loop hl]
    refine Option.bind_congr fun first hf => ?_
    rw [id, replaceLoops_append, replaceLoops_loopless (loopless hf), Option.bind_some]
  | inside hp _ _ ih =>
    simp only [replaceLoops_other (other hp), ih loopless, Option.bind_assoc]
  | later hp hnone _ ih =>
    have inner := replaceLoops_loopless (loopless_of_outer (hnone hp)) output
    simp only [replaceLoops_other (other hp), inner, ih loopless, Option.bind_assoc,
      Option.bind_some]

end Loops

end MarkupTemplate
