import MarkupTemplate.Proofs.Render.IncludeExpansion

namespace MarkupTemplate

namespace Forest

/-- The elements of a forest at all depths, in document order. -/
def elements : Forest → List Element
  | .nil => []
  | .node content children next => content.element?.toList ++ children.elements ++ next.elements

/-- The elements that are in no loop; loops themselves are among them. -/
def outerElements : Forest → List Element
  | .nil => []
  | .node content children next =>
    content.element?.toList ++
      (if content.isElement (·.isLoop) then [] else children.outerElements) ++ next.outerElements

@[simp] theorem elements_append (a b : Forest) :
    (a ++ b).elements = a.elements ++ b.elements := by
  induction a with
  | nil => rfl
  | node content children next _ ih => simp [elements, ih]

@[simp] theorem outerElements_append (a b : Forest) :
    (a ++ b).outerElements = a.outerElements ++ b.outerElements := by
  induction a with
  | nil => rfl
  | node content children next _ ih => simp [outerElements, ih]

theorem mem_outerElements_of_mem_next {content : Content} {children next : Forest} {e : Element}
    (h : e ∈ next.outerElements) : e ∈ (Forest.node content children next).outerElements :=
  List.mem_append_right _ h

theorem mem_outerElements_of_mem_children {content : Content} {children next : Forest}
    {e : Element} (hl : content.isElement (·.isLoop) = false) (h : e ∈ children.outerElements) :
    e ∈ (Forest.node content children next).outerElements := by
  simp [outerElements, hl, h]

end Forest

theorem Content.isElement_eq_false {content : Content} {property : Element → Bool}
    (h : ∀ e, content.element? = some e → property e = false) :
    content.isElement property = false := by
  cases content with
  | element e => exact h e rfl
  | text | verbatim => rfl

theorem Content.isHead_eq_false {content : Content} (h : content.head? = none) {e : Element}
    (he : content.element? = some e) : e.isHead = false := by
  simpa [Content.head?, he] using h

theorem isLoop_eq_false_of_isLink {e : Element} (h : e.isLink = true) : e.isLoop = false := by
  cases hr : e.role <;> simp_all [Element.isLink, Element.isLoop]

theorem isLoop_eq_false_of_isHead {e : Element} (h : e.isHead = true) : e.isLoop = false := by
  cases hr : e.role <;> simp_all [Element.isHead, Element.isLoop]

/-- A chain and what follows it bring in no elements that were not there. -/
theorem mem_outerElements_of_links {rest forest : Forest}
    (h : ∀ e ∈ forest.outerElements, e ∈ rest.outerElements) :
    (∀ branch ∈ (links rest forest).1, ∀ e ∈ branch.children.outerElements,
      e ∈ rest.outerElements) ∧
    ∀ e ∈ (links rest forest).2.outerElements, e ∈ rest.outerElements := by
  fun_induction links rest forest with
  | case1 rest text children next _ ih =>
    exact ih fun e he => h e (Forest.mem_outerElements_of_mem_next he)
  | case2 => exact ⟨by simp, fun e he => he⟩
  | case3 rest element children next hl _ =>
    have hloop := isLoop_eq_false_of_isLink hl
    refine ⟨?_, fun e he => h e (Forest.mem_outerElements_of_mem_next he)⟩
    intro branch hb e he
    cases List.mem_singleton.mp hb
    exact h e (Forest.mem_outerElements_of_mem_children hloop he)
  | case4 rest element children next hl _ following ih =>
    have hloop := isLoop_eq_false_of_isLink hl
    obtain ⟨hbranches, hrest⟩ := ih fun e he => he
    have hnext : ∀ e ∈ next.outerElements, e ∈ rest.outerElements :=
      fun e he => h e (Forest.mem_outerElements_of_mem_next he)
    refine ⟨?_, fun e he => hnext e (hrest e he)⟩
    intro branch hb e he
    rcases List.mem_cons.mp hb with rfl | hb
    · exact h e (Forest.mem_outerElements_of_mem_children hloop he)
    · exact hnext e (hbranches branch hb e he)
  | case5 => exact ⟨by simp, fun e he => he⟩
  | case6 => exact ⟨by simp, fun e he => he⟩

theorem choose_eq_nil_or_children (model : Model) (branches : List Branch) :
    (choose model branches).1 = .nil ∨
      ∃ branch ∈ branches, (choose model branches).1 = branch.children := by
  induction branches with
  | nil => exact .inl rfl
  | cons branch branches ih =>
    rw [choose]
    split
    next => exact .inr ⟨branch, List.mem_cons_self, rfl⟩
    next =>
      rcases ih with hn | ⟨other, ho, he⟩
      · exact .inl hn
      · exact .inr ⟨other, List.mem_cons_of_mem _ ho, he⟩

/-- Outside of loops, resolving the chains leaves no head and brings in no element. -/
theorem resolveChains_outerElements {model : Model} {forest : Forest} {e : Element}
    (h : e ∈ (resolveChains model forest).1.outerElements) :
    e ∈ forest.outerElements ∧ e.isHead = false := by
  fun_induction resolveChains model forest with
  | case1 => simp [Forest.outerElements] at h
  | case2 content children next element hh chain chosen rest ih =>
    obtain ⟨hm, hhead⟩ := ih h
    obtain ⟨hc, hp⟩ := Option.filter_eq_some_iff.mp hh
    have hloop : content.isElement (·.isLoop) = false := by
      simp [Content.isElement, hc, isLoop_eq_false_of_isHead hp]
    obtain ⟨hbranches, hrest⟩ := @mem_outerElements_of_links next next fun e he => he
    refine ⟨?_, hhead⟩
    rcases List.mem_append.mp (by simpa using hm) with hm | hm
    · rcases choose_eq_nil_or_children model (⟨element, children⟩ :: chain.1) with
        hn | ⟨branch, hb, he⟩
      · rw [show chosen.1 = .nil from hn] at hm
        simp [Forest.outerElements] at hm
      · rw [show chosen.1 = branch.children from he] at hm
        rcases List.mem_cons.mp hb with rfl | hb
        · exact Forest.mem_outerElements_of_mem_children hloop hm
        · exact Forest.mem_outerElements_of_mem_next (hbranches branch hb e hm)
    · exact Forest.mem_outerElements_of_mem_next (hrest e hm)
  | case3 content children next hh hloop rest ih =>
    simp only [Forest.outerElements, hloop, if_true, List.append_nil, List.mem_append,
      Option.mem_toList] at h ⊢
    rcases h with h | h
    · exact ⟨.inl h, Content.isHead_eq_false hh h⟩
    · exact ⟨.inr (ih h).1, (ih h).2⟩
  | case4 content children next hh hloop inside rest ihc ihn =>
    simp only [Forest.outerElements, hloop, List.mem_append, Option.mem_toList] at h ⊢
    rcases h with (h | h) | h
    · exact ⟨.inl (.inl h), Content.isHead_eq_false hh h⟩
    · exact ⟨.inl (.inr (ihc h).1), (ihc h).2⟩
    · exact ⟨.inr (ihn h).1, (ihn h).2⟩

theorem Forest.request?_eq_none {forest : Forest}
    (h : ∀ e ∈ forest.elements, e.isInclusion = false) : forest.request? = none := by
  induction forest with
  | nil => rfl
  | node content children next ihc ihn =>
    have hi : content.inclusion? = none := by
      refine Option.filter_eq_none_iff.mpr fun e he => ?_
      simp [h e (by simp [Forest.elements, he])]
    rw [Forest.request?_other children next hi, ihc fun e he => h e (by simp [Forest.elements, he]),
      ihn fun e he => h e (by simp [Forest.elements, he]), Content.exposed, ite_self]
    rfl

/-- Where no include is asked for, there is none outside of loops. -/
theorem isInclusion_eq_false_of_request? {forest : Forest} (h : forest.request? = none) :
    ∀ e ∈ forest.outerElements, e.isInclusion = false := by
  induction forest with
  | nil => simp [Forest.outerElements]
  | node content children next ihc ihn =>
    rw [Forest.request?] at h
    cases hi : content.inclusion? with
    | some e =>
      rw [hi] at h
      cases h
    | none =>
      rw [hi] at h
      obtain ⟨hc, hn⟩ := Option.or_eq_none_iff.mp h
      intro e he
      simp only [Forest.outerElements, List.mem_append, Option.mem_toList] at he
      rcases he with (he | he) | he
      · have hp := Content.isInclusion_of_none hi
        simpa [Content.isElement, he] using hp
      · cases hl : content.isElement (·.isLoop) with
        | true => simp [hl] at he
        | false =>
          rw [hl] at he
          rw [Content.exposed, hl] at hc
          exact ihc hc e he
      · exact ihn hn e he

/-- Expanding goes on until no include is left outside of loops, or the budget is spent. -/
theorem expandIncludes_inclusions (context : Context) (steps : Nat) (run : Run)
    (forest : Forest) :
    (expandIncludes context steps run forest).1.budget = .spent ∨
      ∀ e ∈ (expandIncludes context steps run forest).2.outerElements, e.isInclusion = false := by
  induction steps generalizing run forest with
  | zero =>
    cases hr : forest.request? with
    | none =>
      rw [expandIncludes_of_none hr]
      exact .inr (isInclusion_eq_false_of_request? hr)
    | some found => exact .inl (expandIncludes_spent hr run)
  | succ steps ih =>
    cases hr : forest.request? with
    | none =>
      rw [expandIncludes_of_none hr]
      exact .inr (isInclusion_eq_false_of_request? hr)
    | some found =>
      obtain ⟨next, _, he⟩ := expandIncludes_step context hr steps run
      rw [he]
      exact ih _ _

/-- The tags outside of loops are resolved. -/
structure Settled (pass : Pass) : Prop where
  heads : ∀ e ∈ pass.2.outerElements, e.isHead = false
  inclusions : pass.1.budget = .spent ∨ ∀ e ∈ pass.2.outerElements, e.isInclusion = false

theorem resolveTags_settled (context : Context) (run : Run) (forest : Forest) :
    Settled (resolveTags context run forest) := by
  have expanded : ∃ pass : Pass,
      (pass.1.budget = .spent ∨ ∀ e ∈ pass.2.outerElements, e.isInclusion = false) ∧
        resolveTags context run forest =
          (pass.1.noteAll (resolveChains pass.1.model pass.2).2,
            (resolveChains pass.1.model pass.2).1) := by
    cases hb : run.budget with
    | spent => exact ⟨(run, forest), .inl hb, by simp only [resolveTags, hb]⟩
    | remaining steps =>
      exact ⟨expandIncludes context steps run forest, expandIncludes_inclusions ..,
        by simp only [resolveTags, hb]⟩
  obtain ⟨pass, hi, he⟩ := expanded
  rw [he]
  refine ⟨fun e h => (resolveChains_outerElements h).2, ?_⟩
  rcases hi with hs | hi
  · exact .inl hs
  · exact .inr fun e h => hi e (resolveChains_outerElements h).1

/-- What comes out of a pass that starts with a run: neither heads nor loops, no includes unless
the budget is spent, and no budget if there was none. -/
structure Resolves (run : Run) (pass : Pass) : Prop where
  spent : run.budget = .spent → pass.1.budget = .spent
  heads : ∀ e ∈ pass.2.elements, e.isHead = false
  loops : ∀ e ∈ pass.2.elements, e.isLoop = false
  inclusions : pass.1.budget = .spent ∨ ∀ e ∈ pass.2.elements, e.isInclusion = false

theorem Resolves.nil (run : Run) : Resolves run (run, .nil) where
  spent := id
  heads := by simp [Forest.elements]
  loops := by simp [Forest.elements]
  inclusions := .inr (by simp [Forest.elements])

theorem Resolves.append {run : Run} {first rest : Pass} (hf : Resolves run first)
    (hr : Resolves first.1 rest) : Resolves run (rest.1, first.2 ++ rest.2) where
  spent h := hr.spent (hf.spent h)
  heads := by
    rw [Forest.elements_append, List.forall_mem_append]
    exact ⟨hf.heads, hr.heads⟩
  loops := by
    rw [Forest.elements_append, List.forall_mem_append]
    exact ⟨hf.loops, hr.loops⟩
  inclusions := by
    rcases hf.inclusions with hs | hi
    · exact .inl (hr.spent hs)
    · rw [Forest.elements_append, List.forall_mem_append]
      exact hr.inclusions.imp_right fun hn => ⟨hi, hn⟩

theorem Resolves.weaken {run start : Run} {pass : Pass} (h : Resolves start pass)
    (hs : run.budget = .spent → start.budget = .spent) : Resolves run pass :=
  { h with spent := fun hr => h.spent (hs hr) }

theorem iterate_resolves {context : Context} {inner : Run → Forest → Option Pass} {loop : Loop}
    {body : List Piece}
    (resolves : ∀ {run forest pass}, Settled (run, forest) → inner run forest = some pass →
      Resolves run pass)
    {entries : List (Value × Value)} {run : Run} {pass : Pass}
    (h : iterate context inner loop body entries run = some pass) : Resolves run pass := by
  induction entries generalizing run pass with
  | nil =>
    cases Option.some.inj h
    exact .nil run
  | cons entry entries ih =>
    obtain ⟨first, rest, hf, hr, rfl⟩ := iterate_cons_eq_some_iff.mp h
    have settled : Settled (iterationPass context loop body entry run) :=
      resolveTags_settled context _ _
    exact ((resolves settled hf).weaken iterationPass_spent).append (ih hr)

theorem resolveLoop_resolves {context : Context} {inner : Run → Forest → Option Pass}
    (resolves : ∀ {run forest pass}, Settled (run, forest) → inner run forest = some pass →
      Resolves run pass)
    {run : Run} {element : Element} {body : Forest} {pass : Pass}
    (h : resolveLoop context inner run element body = some pass) : Resolves run pass := by
  cases hr : Loop.read run.model element with
  | error notice =>
    rw [resolveLoop_of_error hr] at h
    cases Option.some.inj h
    exact (Resolves.nil (run.note notice)).weaken id
  | ok loop =>
    rw [resolveLoop_of_read hr] at h
    exact iterate_resolves resolves h

/-- A pass keeps what is settled outside of loops and puts resolved nodes in the place of loops. -/
theorem replaceLoops_resolves {output : Run → Element → Forest → Option Pass}
    (resolves : ∀ {run element body pass}, output run element body = some pass →
      Resolves run pass)
    {forest : Forest} {run : Run} {pass : Pass} (settled : Settled (run, forest))
    (h : replaceLoops output forest run = some pass) : Resolves run pass := by
  induction forest generalizing run pass with
  | nil =>
    cases Option.some.inj h
    exact .nil run
  | node content children next ihc ihn =>
    have hnext (after : Run) (hs : run.budget = .spent → after.budget = .spent) :
        Settled (after, next) :=
      ⟨fun e he => settled.heads e (Forest.mem_outerElements_of_mem_next he),
        settled.inclusions.imp hs fun hi e he =>
          hi e (Forest.mem_outerElements_of_mem_next he)⟩
    cases hl : content.loop? with
    | some element =>
      obtain ⟨inside, rest, hi, hr, rfl⟩ := (replaceLoops_loop_eq_some_iff hl).mp h
      have first := resolves hi
      exact first.append (ihn (hnext inside.1 first.spent) hr)
    | none =>
      obtain ⟨inside, rest, hi, hr, rfl⟩ := (replaceLoops_other_eq_some_iff hl).mp h
      have notLoop (e : Element) (he : content.element? = some e) : e.isLoop = false := by
        simpa [Content.loop?, he] using hl
      have hc : content.isElement (·.isLoop) = false := by
        cases he : content.element? with
        | none => simp [Content.isElement, he]
        | some e => simp [Content.isElement, he, notLoop e he]
      have self (e : Element) (he : content.element? = some e) :
          e ∈ (Forest.node content children next).outerElements := by
        simp [Forest.outerElements, he]
      have hchildren : Settled (run, children) :=
        ⟨fun e he => settled.heads e (Forest.mem_outerElements_of_mem_children hc he),
          settled.inclusions.imp_right fun hi e he =>
            hi e (Forest.mem_outerElements_of_mem_children hc he)⟩
      have first := ihc hchildren hi
      have others := first.append (ihn (hnext inside.1 first.spent) hr)
      have node (p : Element → Prop) (hp : ∀ e, content.element? = some e → p e)
          (ho : ∀ e ∈ (inside.2 ++ rest.2).elements, p e) :
          ∀ e ∈ (Forest.node content inside.2 rest.2).elements, p e := by
        intro e he
        simp only [Forest.elements, List.append_assoc, List.mem_append, Option.mem_toList] at he
        rcases he with he | he
        · exact hp e he
        · exact ho e (by simpa using he)
      refine ⟨others.spent, node _ (fun e he => settled.heads e (self e he)) others.heads,
        node _ notLoop others.loops, ?_⟩
      rcases settled.inclusions with hs | hi
      · exact .inl (others.spent hs)
      · exact others.inclusions.imp_right fun ho => node _ (fun e he => hi e (self e he)) ho

theorem resolveLoops_resolves {context : Context} {depth : Nat} {run : Run} {forest : Forest}
    {pass : Pass} (settled : Settled (run, forest))
    (h : resolveLoops context depth run forest = some pass) : Resolves run pass := by
  induction depth generalizing run forest pass with
  | zero => exact replaceLoops_resolves (fun hi => by simp at hi) settled h
  | succ depth ih =>
    exact replaceLoops_resolves (fun hi => resolveLoop_resolves ih hi) settled h

theorem mem_elements_of_removeLinks {forest : Forest} {e : Element}
    (h : e ∈ (removeLinks forest).elements) : e ∈ forest.elements ∧ e.isLink = false := by
  induction forest with
  | nil => simp [removeLinks, Forest.elements] at h
  | node content children next ihc ihn =>
    rw [removeLinks] at h
    split at h
    next =>
      obtain ⟨hm, hl⟩ := ihn h
      exact ⟨List.mem_append_right _ hm, hl⟩
    next hl =>
      simp only [Forest.elements, List.mem_append, Option.mem_toList] at h ⊢
      rcases h with (h | h) | h
      · exact ⟨.inl (.inl h), by simpa [Content.isElement, h] using hl⟩
      · exact ⟨.inl (.inr (ihc h).1), (ihc h).2⟩
      · exact ⟨.inr (ihn h).1, (ihn h).2⟩

/-- The names of the elements that steer a render, but for includes and their arguments. -/
def steeringNames : List Text :=
  ["if", "unless", "elseif", "elseunless", "else", "foreach"].map String.toList

theorem lowerAscii_of_sameName {a b : Text} (lower : lowerAscii b = b)
    (h : sameName a b = true) : lowerAscii a = b :=
  (beq_iff_eq.mp h).trans lower

theorem isInclusion_of_sameName {e : Element} (h : sameName e.name "include".toList = true) :
    e.isInclusion = true := by
  rw [Element.isInclusion, Element.role, lowerAscii_of_sameName (by decide) h]
  decide

theorem steers_of_sameName {e : Element} {name : Text} (hm : name ∈ steeringNames)
    (h : sameName e.name name = true) :
    e.isHead = true ∨ e.isLink = true ∨ e.isLoop = true := by
  have lower : ∀ n ∈ steeringNames, lowerAscii n = n := by decide
  have roles : ∀ n ∈ steeringNames, let r := (roleNames.lookup n).getD .plain
      (∃ opposite, r = .head opposite) ∨ (∃ opposite, r = .link opposite) ∨ r = .otherwise ∨
        r = .loop := by decide
  have hn : lowerAscii e.name = name := lowerAscii_of_sameName (lower name hm) h
  rcases roles name hm with ⟨o, hr⟩ | ⟨o, hr⟩ | hr | hr
  · exact .inl (by simp [Element.isHead, Element.role, hn, hr])
  · exact .inr (.inl (by simp [Element.isLink, Element.role, hn, hr]))
  · exact .inr (.inl (by simp [Element.isLink, Element.role, hn, hr]))
  · exact .inr (.inr (by simp [Element.isLoop, Element.role, hn, hr]))

/-- The document that is written at the end of a render holds no element that steers one, and
includes only if the budget ran out. -/
theorem render?_writes_resolved {context : Context} {depth : Nat} {model : Model}
    {compiled : Text} {rendering : Rendering}
    (h : render? context depth model compiled = some rendering) :
    ∃ run forest, resolveDocument context depth model compiled = some (run, forest) ∧
      rendering.text = substitute run.model forest.markup ∧
      (∀ e ∈ forest.elements, ∀ name ∈ steeringNames, sameName e.name name = false) ∧
      ((∃ e ∈ forest.elements, sameName e.name "include".toList = true) →
        run.budget = .spent) := by
  obtain ⟨⟨run, forest⟩, hd, h⟩ := Option.bind_eq_some_iff.mp h
  cases Option.some.inj h
  refine ⟨run, forest, hd, rfl, ?_⟩
  rw [resolveDocument_eq] at hd
  obtain ⟨pass, hp, hd⟩ := Option.bind_eq_some_iff.mp hd
  cases Option.some.inj hd
  have settled : Settled (documentPass context model compiled) := by
    unfold documentPass
    apply resolveTags_settled
  have resolved := resolveLoops_resolves settled hp
  constructor
  · intro e he name hm
    obtain ⟨he, hlink⟩ := mem_elements_of_removeLinks he
    apply Bool.eq_false_iff.mpr
    intro hs
    rcases steers_of_sameName hm hs with hh | hl | hl
    · simp [resolved.heads e he] at hh
    · simp [hlink] at hl
    · simp [resolved.loops e he] at hl
  · rintro ⟨e, he, hs⟩
    obtain ⟨he, _⟩ := mem_elements_of_removeLinks he
    rcases resolved.inclusions with spent | none
    · exact spent
    · have := isInclusion_of_sameName hs
      simp [none e he] at this

/-- A render without templates. -/
def noTemplates : Context :=
  { template := fun _ => .ok [], maxSteps := 0 }

/-- Templates that include themselves, with a budget of two steps. -/
def recursiveContext : Context where
  template _ := .ok "<include src=\"p\"/>!".toList
  maxSteps := 2

/-- A document with a loop, a chain inside of it, a link without a chain and an include. -/
def steeredDocument : Text :=
  "<foreach val=\"x\" in=\"a\"><IF x>\x7bx\x7d</IF><else>no</else></foreach>".toList ++
    "<elseif y>?</elseif><include src=\"p\"/>".toList

/-- The values of the loop: one that counts as false and one that counts as true. -/
def steeredModel : Model :=
  .ofValue (.record [("a".toList, .list [.text [], .text "yes".toList])])

theorem render?_writes_resolved_steered : ∃ rendering,
    render? recursiveContext 1 steeredModel steeredDocument = some rendering ∧
    ∃ run forest,
      resolveDocument recursiveContext 1 steeredModel steeredDocument = some (run, forest) ∧
      rendering.text = substitute run.model forest.markup ∧
      (∀ e ∈ forest.elements, ∀ name ∈ steeringNames, sameName e.name name = false) ∧
      ((∃ e ∈ forest.elements, sameName e.name "include".toList = true) →
        run.budget = .spent) := by
  have some : (render? recursiveContext 1 steeredModel steeredDocument).isSome = true := by
    decide +kernel
  obtain ⟨rendering, h⟩ := Option.isSome_iff_exists.mp some
  exact ⟨rendering, h, render?_writes_resolved h⟩

example : (render? recursiveContext 1 steeredModel steeredDocument).map (·.text) =
    some "noyes<include src=\"p\"/>!!".toList := by
  decide +kernel

end MarkupTemplate
