import MarkupTemplate.Proofs.Render.ResolvedTags
import Mathlib.Logic.Relation

namespace MarkupTemplate

namespace Forest

/-- The link that a forest begins with, blank text aside, and the nodes after it. -/
def nextLink? : Forest → Option (Branch × Forest)
  | .node (.text text) _ next => if isBlankText text then next.nextLink? else none
  | .node (.element element) children next =>
    if element.isLink then some (⟨element, children⟩, next) else none
  | _ => none

theorem size_nextLink? {forest after : Forest} {branch : Branch}
    (h : forest.nextLink? = some (branch, after)) :
    branch.children.size + after.size < forest.size := by
  fun_induction nextLink? forest with
  | case1 text children next _ ih =>
    have := ih h
    simp only [size]
    omega
  | case2 => cases h
  | case3 =>
    cases h
    simp only [size]
    omega
  | case4 => cases h
  | case5 => cases h

/-- The branches that continue a chain before a forest, up to the first `else`, and the nodes after
the chain. -/
def chain (forest : Forest) : List Branch × Forest :=
  match _h : forest.nextLink? with
  | none => ([], forest)
  | some (branch, after) =>
    if branch.element.role = .otherwise then ([branch], after)
    else (branch :: after.chain.1, after.chain.2)
termination_by forest.size
decreasing_by
  all_goals
    have := size_nextLink? _h
    omega

end Forest

/-- The branch is satisfied. -/
def Branch.holds (model : Model) (branch : Branch) : Bool :=
  (branch.element.verdict model).1

/-- The children of the first branch that is satisfied, if there is one. -/
def firstHolding (model : Model) (branches : List Branch) : Forest :=
  (branches.find? (Branch.holds model)).elim .nil Branch.children

theorem choose_eq_firstHolding (model : Model) (branches : List Branch) :
    (choose model branches).1 = firstHolding model branches := by
  induction branches with
  | nil => rfl
  | cons branch branches ih =>
    rw [choose_cons, firstHolding, List.find?_cons, Branch.holds]
    cases (branch.element.verdict model).1 with
    | true => rfl
    | false => exact ih

namespace Forest

theorem chain_of_none {forest : Forest} (h : forest.nextLink? = none) :
    forest.chain = ([], forest) := by
  rw [chain]
  split
  next => rfl
  next hs => cases h.symm.trans hs

theorem chain_of_some {forest after : Forest} {branch : Branch}
    (h : forest.nextLink? = some (branch, after)) :
    forest.chain = if branch.element.role = .otherwise then ([branch], after)
      else (branch :: after.chain.1, after.chain.2) := by
  rw [chain]
  split
  next hn => cases h.symm.trans hn
  next hs =>
    cases h.symm.trans hs
    rfl

/-- The chain that is read node by node is that of the source. -/
theorem links_eq (rest forest : Forest) :
    links rest forest = if forest.nextLink?.isSome then forest.chain else ([], rest) := by
  fun_induction links rest forest with
  | case1 rest text children next hb ih =>
    have same : (Forest.node (.text text) children next).nextLink? = next.nextLink? := by
      rw [nextLink?, if_pos hb]
    rw [ih, same]
    cases hn : next.nextLink? with
    | none => rfl
    | some found =>
      rw [chain_of_some hn, chain_of_some (same.trans hn)]
  | case2 rest text children next hb =>
    rw [nextLink?, if_neg hb]
    rfl
  | case3 rest element children next hl hr =>
    have found : (Forest.node (.element element) children next).nextLink? =
        some (⟨element, children⟩, next) := by rw [nextLink?, if_pos hl]
    rw [found, chain_of_some found, if_pos hr]
    rfl
  | case4 rest element children next hl hr following ih =>
    have found : (Forest.node (.element element) children next).nextLink? =
        some (⟨element, children⟩, next) := by rw [nextLink?, if_pos hl]
    rw [found, chain_of_some found, if_neg hr]
    have same : following = next.chain := by
      rw [show following = links next next from rfl, ih]
      cases hn : next.nextLink? with
      | none => rw [chain_of_none hn]; rfl
      | some _ => rfl
    rw [same]
    rfl
  | case5 rest element children next hl =>
    rw [nextLink?, if_neg hl]
    rfl
  | case6 forest rest ht he =>
    have none : forest.nextLink? = none := by
      cases forest with
      | nil => rfl
      | node content children next =>
        cases content with
        | text text => exact (ht text children next rfl).elim
        | element element => exact (he element children next rfl).elim
        | verbatim source => rfl
    rw [none]
    rfl

theorem links_eq_chain (forest : Forest) : links forest forest = forest.chain := by
  rw [links_eq]
  cases h : forest.nextLink? with
  | none => rw [chain_of_none h]; rfl
  | some _ => rfl

theorem size_chain_le (forest : Forest) :
    branchesSize forest.chain.1 + forest.chain.2.size ≤ forest.size := by
  rw [← links_eq_chain]
  exact size_links_le (Nat.le_refl _)

theorem size_firstHolding_lt (model : Model) (element : Element) (content : Content)
    (children next : Forest) :
    (firstHolding model (⟨element, children⟩ :: next.chain.1)).size + next.chain.2.size <
      (Forest.node content children next).size := by
  have chosen := size_choose_le model (⟨element, children⟩ :: next.chain.1)
  have after := size_chain_le next
  rw [choose_eq_firstHolding] at chosen
  simp only [branchesSize] at chosen
  simp only [size]
  omega

/-- The forest with its first chain outside of loops replaced by the children of the first branch
that is satisfied, if there is a chain. -/
def resolveFirst? (model : Model) : Forest → Option Forest
  | .nil => none
  | .node content children next =>
    match content.head? with
    | some element =>
      some (firstHolding model (⟨element, children⟩ :: next.chain.1) ++ next.chain.2)
    | none =>
      match content.exposed (children.resolveFirst? model) with
      | some inside => some (.node content inside next)
      | none => (next.resolveFirst? model).map (.node content children ·)

theorem size_resolveFirst? {model : Model} {forest resolved : Forest}
    (h : forest.resolveFirst? model = some resolved) : resolved.size < forest.size := by
  induction forest generalizing resolved with
  | nil => cases h
  | node content children next ihc ihn =>
    rw [resolveFirst?] at h
    split at h
    next element _ =>
      cases Option.some.inj h
      rw [size_append]
      exact size_firstHolding_lt model element content children next
    next =>
      split at h
      next inside hi =>
        cases Option.some.inj h
        unfold Content.exposed at hi
        split at hi
        next => cases hi
        next =>
          have := ihc hi
          simp only [size]
          omega
      next =>
        obtain ⟨rest, hr, rfl⟩ := Option.map_eq_some_iff.mp h
        have := ihn hr
        simp only [size]
        omega

/-- Resolving the first chain first changes nothing in what all chains come to. -/
theorem resolveChains_of_resolveFirst? {model : Model} {forest resolved : Forest}
    (h : forest.resolveFirst? model = some resolved) :
    (resolveChains model forest).1 = (resolveChains model resolved).1 := by
  induction forest generalizing resolved with
  | nil => cases h
  | node content children next ihc ihn =>
    rw [resolveFirst?] at h
    split at h
    next element hh =>
      cases Option.some.inj h
      rw [resolveChains_head hh, choose_eq_firstHolding, links_eq_chain]
    next hh =>
      cases hl : content.isElement (·.isLoop) with
      | true =>
        simp only [Content.exposed, hl, if_true] at h
        obtain ⟨rest, hr, rfl⟩ := Option.map_eq_some_iff.mp h
        rw [resolveChains_loop hh hl, resolveChains_loop hh hl, ihn hr]
      | false =>
        simp only [Content.exposed, hl, Bool.false_eq_true, if_false] at h
        split at h
        next inside hi =>
          cases Option.some.inj h
          rw [resolveChains_other hh hl, resolveChains_other hh hl, ihc hi]
        next =>
          obtain ⟨rest, hr, rfl⟩ := Option.map_eq_some_iff.mp h
          rw [resolveChains_other hh hl, resolveChains_other hh hl, ihn hr]

theorem resolveChains_of_none {model : Model} {forest : Forest}
    (h : forest.resolveFirst? model = none) : (resolveChains model forest).1 = forest := by
  induction forest with
  | nil => rw [resolveChains]
  | node content children next ihc ihn =>
    rw [resolveFirst?] at h
    split at h
    next => cases h
    next hh =>
      split at h
      next => cases h
      next hi =>
        have hn : next.resolveFirst? model = none := Option.map_eq_none_iff.mp h
        cases hl : content.isElement (·.isLoop) with
        | true => rw [resolveChains_loop hh hl, ihn hn]
        | false =>
          have hc : children.resolveFirst? model = none := by
            simpa [Content.exposed, hl] using hi
          rw [resolveChains_other hh hl, ihc hc, ihn hn]

/-- All chains are resolved in one go as if, again and again, the first one that is left were. -/
theorem resolveChains_steps (model : Model) (forest : Forest) :
    Relation.ReflTransGen (fun before after => before.resolveFirst? model = some after) forest
        (resolveChains model forest).1 ∧
      (resolveChains model forest).1.resolveFirst? model = none := by
  induction hs : forest.size using Nat.strongRecOn generalizing forest with
  | ind size ih =>
    cases h : forest.resolveFirst? model with
    | none =>
      rw [resolveChains_of_none h]
      exact ⟨.refl, h⟩
    | some resolved =>
      obtain ⟨steps, last⟩ := ih resolved.size (hs ▸ size_resolveFirst? h) resolved rfl
      rw [resolveChains_of_resolveFirst? h]
      exact ⟨.head h steps, last⟩

/-- What the conditional elements of a forest mean: a chain stands for the children of its first
branch that is satisfied, evaluated on their own, and a link of no chain for nothing. -/
def evaluate (model : Model) : Forest → Forest
  | .nil => .nil
  | .node content children next =>
    match content.head? with
    | some element =>
      (firstHolding model (⟨element, children⟩ :: next.chain.1)).evaluate model ++
        next.chain.2.evaluate model
    | none =>
      if content.isElement (·.isLink) then next.evaluate model
      else .node content (children.evaluate model) (next.evaluate model)
termination_by forest => forest.size
decreasing_by
  · have := size_firstHolding_lt model element content children next
    omega
  · have := size_chain_le next
    simp only [size]
    omega
  all_goals
    simp only [size]
    omega

/-- Nothing but blank text. -/
def isBlank : Forest → Bool
  | .nil => true
  | .node (.text text) _ next => isBlankText text && next.isBlank
  | .node _ _ _ => false

/-- The chain ends with an `else`. -/
def isClosed (branches : List Branch) : Bool :=
  branches.any (·.element.role == .otherwise)

/-- A forest ends, blank text aside, with a chain that a link after it would continue: with one that
has no `else`, or with one whose chosen branch ends so. -/
def endsOpen (model : Model) : Forest → Bool
  | .nil => false
  | .node content children next =>
    match content.head? with
    | some element =>
      if next.chain.2.isBlank then
        !isClosed next.chain.1 ||
          (firstHolding model (⟨element, children⟩ :: next.chain.1)).endsOpen model
      else next.chain.2.endsOpen model
    | none => next.endsOpen model
termination_by forest => forest.size
decreasing_by
  · have := size_firstHolding_lt model element content children next
    omega
  · have := size_chain_le next
    simp only [size]
    omega
  · simp only [size]
    omega

/-- No link follows a chain whose chosen branch ends with an open chain, in the forest and in all
branches that are chosen. -/
def isApart (model : Model) : Forest → Bool
  | .nil => true
  | .node content children next =>
    match content.head? with
    | some element =>
      let chosen := firstHolding model (⟨element, children⟩ :: next.chain.1)
      (next.chain.2.nextLink?.isNone || !chosen.endsOpen model) &&
        (chosen.isApart model && next.chain.2.isApart model)
    | none =>
      if content.isElement (·.isLink) then next.isApart model
      else children.isApart model && next.isApart model
termination_by forest => forest.size
decreasing_by
  · have := size_firstHolding_lt model element content children next
    omega
  · have := size_chain_le next
    simp only [size]
    omega
  all_goals
    simp only [size]
    omega

theorem nextLink?_append (a b : Forest) :
    (a ++ b).nextLink? =
      (a.nextLink?.map fun found => (found.1, found.2 ++ b)).or
        (if a.isBlank then b.nextLink? else none) := by
  fun_induction nextLink? a with
  | case1 text children next hb ih =>
    rw [node_append, nextLink?, if_pos hb, isBlank, hb]
    exact ih
  | case2 text children next hb =>
    have full : (Forest.node (.text text) children next).isBlank = false := by simp [isBlank, hb]
    rw [node_append, nextLink?, if_neg hb, full]
    rfl
  | case3 element children next hl =>
    rw [node_append, nextLink?, if_pos hl]
    rfl
  | case4 element children next hl =>
    rw [node_append, nextLink?, if_neg hl]
    rfl
  | case5 forest ht he =>
    cases forest with
    | nil => rfl
    | node content children next =>
      cases content with
      | text text => exact (ht text children next rfl).elim
      | element element => exact (he element children next rfl).elim
      | verbatim source => rfl

/-- A chain stays the same before other nodes that do not continue it. -/
theorem chain_append {a b : Forest}
    (h : b.nextLink? = none ∨ a.chain.2.isBlank = false ∨ isClosed a.chain.1 = true) :
    (a ++ b).chain = (a.chain.1, a.chain.2 ++ b) := by
  fun_induction chain a with
  | case1 a hn =>
    have none : (a ++ b).nextLink? = none := by
      rw [nextLink?_append, hn]
      rcases h with hb | hb | hc
      · rw [hb]
        exact ite_self _
      · rw [if_neg (by rw [hb]; exact Bool.false_ne_true)]
        rfl
      · cases hc
    exact chain_of_none none
  | case2 a branch after hs hr =>
    have found : (a ++ b).nextLink? = some (branch, after ++ b) := by
      rw [nextLink?_append, hs]
      rfl
    rw [chain_of_some found, if_pos hr]
  | case3 a branch after hs hr ih =>
    have found : (a ++ b).nextLink? = some (branch, after ++ b) := by
      rw [nextLink?_append, hs]
      rfl
    have open_ : isClosed (branch :: after.chain.1) = isClosed after.chain.1 := by
      simp [isClosed, hr]
    rw [open_] at h
    rw [chain_of_some found, if_neg hr, ih h]

theorem outerElements_of_chain {content : Content} {element : Element} {children next : Forest}
    (hh : content.head? = some element) (model : Model) :
    (∀ e ∈ (firstHolding model (⟨element, children⟩ :: next.chain.1)).outerElements,
      e ∈ (Forest.node content children next).outerElements) ∧
    ∀ e ∈ next.chain.2.outerElements, e ∈ (Forest.node content children next).outerElements := by
  obtain ⟨hc, hp⟩ := Option.filter_eq_some_iff.mp hh
  have hloop : content.isElement (·.isLoop) = false := by
    simp [Content.isElement, hc, isLoop_eq_false_of_isHead hp]
  obtain ⟨hbranches, hrest⟩ := @mem_outerElements_of_links next next fun e he => he
  rw [links_eq_chain] at hbranches hrest
  refine ⟨fun e he => ?_, fun e he => mem_outerElements_of_mem_next (hrest e he)⟩
  rw [← choose_eq_firstHolding] at he
  rcases choose_eq_nil_or_children model (⟨element, children⟩ :: next.chain.1) with
    hn | ⟨branch, hb, hchildren⟩
  · rw [hn] at he
    cases he
  · rw [hchildren] at he
    rcases List.mem_cons.mp hb with rfl | hb
    · exact mem_outerElements_of_mem_children hloop he
    · exact mem_outerElements_of_mem_next (hbranches branch hb e he)

theorem endsOpen_of_isBlank {forest : Forest} (h : forest.isBlank = true) (model : Model) :
    forest.endsOpen model = false := by
  induction forest with
  | nil => rw [endsOpen]
  | node content children next _ ih =>
    cases content with
    | text text =>
      rw [isBlank, Bool.and_eq_true] at h
      rw [endsOpen]
      exact ih h.2
    | element | verbatim => cases h

section Equations

variable {content : Content} (model : Model) (children next : Forest)

theorem endsOpen_head {element : Element} (h : content.head? = some element) :
    (Forest.node content children next).endsOpen model = false ↔
      next.chain.2.isBlank = true ∧ isClosed next.chain.1 = true ∧
          (firstHolding model (⟨element, children⟩ :: next.chain.1)).endsOpen model = false ∨
        next.chain.2.isBlank = false ∧ next.chain.2.endsOpen model = false := by
  rw [endsOpen, h]
  cases next.chain.2.isBlank <;> simp

theorem isApart_head {element : Element} (h : content.head? = some element) :
    (Forest.node content children next).isApart model = true ↔
      (next.chain.2.nextLink? = none ∨
        (firstHolding model (⟨element, children⟩ :: next.chain.1)).endsOpen model = false) ∧
      (firstHolding model (⟨element, children⟩ :: next.chain.1)).isApart model = true ∧
      next.chain.2.isApart model = true := by
  rw [isApart, h]
  simp

end Equations

/-- Chains are resolved apart from what follows, unless that begins with a link and they end with
an open chain. -/
theorem removeLinks_resolveChains_append (model : Model) {a b : Forest}
    (apart : a.isApart model = true) (loopless : ∀ e ∈ a.outerElements, e.isLoop = false)
    (h : b.nextLink? = none ∨ a.endsOpen model = false) :
    removeLinks (resolveChains model (a ++ b)).1 =
      a.evaluate model ++ removeLinks (resolveChains model b).1 := by
  -- The chosen children are resolved before the rest of `a` and `b`, the rest of `a` before `b`.
  fun_induction evaluate model a generalizing b with
  | case1 => rfl
  | case2 content children next element hh ihc ihr =>
    obtain ⟨joins, chosenApart, restApart⟩ := (isApart_head model children next hh).mp apart
    obtain ⟨hchosen, hrest⟩ := @outerElements_of_chain content element children next hh model
    -- The chain does not go on in `b`, nor does an open chain of the branch that is chosen.
    obtain ⟨ended, chosen, rest⟩ : (b.nextLink? = none ∨ next.chain.2.isBlank = false ∨
          isClosed next.chain.1 = true) ∧
        ((next.chain.2 ++ b).nextLink? = none ∨
          (firstHolding model (⟨element, children⟩ :: next.chain.1)).endsOpen model = false) ∧
        (b.nextLink? = none ∨ next.chain.2.endsOpen model = false) := by
      rw [endsOpen_head model children next hh] at h
      rw [nextLink?_append]
      rcases h with hb | ⟨blank, closed, shut⟩ | ⟨full, shut⟩
      · refine ⟨.inl hb, joins.imp_left fun hn => ?_, .inl hb⟩
        rw [hn, hb]
        exact ite_self _
      · exact ⟨.inr (.inr closed), .inr shut, .inr (endsOpen_of_isBlank blank model)⟩
      · refine ⟨.inr (.inl full), joins.imp_left fun hn => ?_, .inr shut⟩
        rw [hn, full]
        rfl
    rw [node_append, resolveChains_head hh, links_eq_chain, chain_append ended,
      choose_eq_firstHolding, ihc chosenApart (fun e he => loopless e (hchosen e he)) chosen,
      ihr restApart (fun e he => loopless e (hrest e he)) rest, append_assoc]
  | case3 content children next hh hl ihn =>
    have hloop : content.isElement (·.isLoop) = false :=
      Content.isElement_eq_false fun e he => loopless e (by simp [outerElements, he])
    rw [isApart, hh] at apart
    rw [endsOpen, hh] at h
    have nextApart : next.isApart model = true := by simpa [hl] using apart
    rw [node_append, resolveChains_other hh hloop, removeLinks, if_pos hl]
    exact ihn nextApart (fun e he => loopless e (mem_outerElements_of_mem_next he)) h
  | case4 content children next hh hl ihc ihn =>
    have hloop : content.isElement (·.isLoop) = false :=
      Content.isElement_eq_false fun e he => loopless e (by simp [outerElements, he])
    rw [isApart, hh] at apart
    rw [endsOpen, hh] at h
    obtain ⟨childrenApart, nextApart⟩ :
        children.isApart model = true ∧ next.isApart model = true := by
      simpa [hl] using apart
    have inside : removeLinks (resolveChains model children).1 = children.evaluate model := by
      have alone := @ihc .nil childrenApart
        (fun e he => loopless e (mem_outerElements_of_mem_children hloop he)) (.inl rfl)
      rw [resolveChains, append_nil] at alone
      exact alone.trans (append_nil _)
    rw [node_append, resolveChains_other hh hloop, removeLinks, if_neg hl, inside,
      ihn nextApart (fun e he => loopless e (mem_outerElements_of_mem_next he)) h, node_append]

theorem mem_elements_of_mem_outerElements {forest : Forest} {e : Element}
    (h : e ∈ forest.outerElements) : e ∈ forest.elements := by
  induction forest with
  | nil => exact h
  | node content children next ihc ihn =>
    simp only [outerElements, elements, List.mem_append] at h ⊢
    rcases h with (h | h) | h
    · exact .inl (.inl h)
    · split at h
      next => cases h
      next => exact .inl (.inr (ihc h))
    · exact .inr (ihn h)

end Forest

/-- Without includes and loops, resolving the tags of a forest and removing the links that are left
gives what its conditional elements mean, unless a link follows a chain whose chosen branch ends
with an open one. -/
theorem removeLinks_resolveTags (context : Context) (run : Run) {forest : Forest}
    (plain : ∀ e ∈ forest.elements, e.isInclusion = false ∧ e.isLoop = false)
    (apart : forest.isApart run.model = true) :
    removeLinks (resolveTags context run forest).2 = forest.evaluate run.model := by
  have chains : removeLinks (resolveChains run.model forest).1 = forest.evaluate run.model := by
    have resolved := @Forest.removeLinks_resolveChains_append run.model forest .nil apart
      (fun e he => (plain e (Forest.mem_elements_of_mem_outerElements he)).2) (.inl rfl)
    rw [resolveChains, Forest.append_nil] at resolved
    exact resolved.trans (Forest.append_nil _)
  rw [resolveTags_of_none (Forest.request?_eq_none fun e he => (plain e he).1)]
  exact chains

/-- A model in which only the first of two names counts as true. -/
def firstOnly : Model :=
  .ofValue (.record [("a".toList, .number (.integer 1)), ("b".toList, .number (.integer 0))])

/-- A chain in a branch of another one, with an `else` of its own, and links of no chain. -/
def nestedChains : Forest :=
  (readForest ("<if a><p>1</p> <if b>2</if> <else>3</else></if><else>4</else> <else>5</else>" ++
    "<p><unless a>6</unless><elseunless b>7</elseunless></p><elseif a>8</elseif>").toList).1

theorem removeLinks_resolveTags_nested :
    ((∀ e ∈ nestedChains.elements, e.isInclusion = false ∧ e.isLoop = false) ∧
      nestedChains.isApart firstOnly = true) ∧
    (removeLinks (resolveTags noTemplates (.start noTemplates firstOnly) nestedChains).2).markup =
      "<p>1</p> 3 <p>7</p>".toList := by
  have meaning : ((∀ e ∈ nestedChains.elements, e.isInclusion = false ∧ e.isLoop = false) ∧
      nestedChains.isApart firstOnly = true) ∧
      (nestedChains.evaluate firstOnly).markup = "<p>1</p> 3 <p>7</p>".toList := by decide +kernel
  obtain ⟨⟨plain, apart⟩, markup⟩ := meaning
  have resolved := removeLinks_resolveTags noTemplates (.start noTemplates firstOnly) plain apart
  exact ⟨⟨plain, apart⟩, resolved ▸ markup⟩

/-- A chain whose chosen branch is a chain without an `else`, and two links after it. -/
def openChain : Forest :=
  (readForest "<if a><if b>A</if></if><else>B</else><else>C</else>".toList).1

/-- The second link belongs to no chain of the source, but continues the chain that is left once the
first one is resolved. -/
theorem resolveTags_joins_openChain :
    (∀ e ∈ openChain.elements, e.isInclusion = false ∧ e.isLoop = false) ∧
    (removeLinks (resolveTags noTemplates (.start noTemplates firstOnly) openChain).2).markup =
      "C".toList ∧
    (openChain.evaluate firstOnly).markup = [] := by
  decide +kernel

end MarkupTemplate
