import MarkupTemplate.Proofs.InPlace.ArenaLoops
import MarkupTemplate.Proofs.Render.ChainMeaning

namespace MarkupTemplate

/-- A place of a link. -/
def Place.isLink (place : Place) : Bool :=
  place.content.isElement (·.isLink)

/-- Taking out the link that is found first takes out one of all links. -/
theorem findFrom?_isLink_cases (way : List Frame) (forest : Forest) :
    (forest.findFrom? Place.isLink way = none ∧ removeLinks forest = forest) ∨
      ∃ place rest, forest.findFrom? Place.isLink way = some place ∧
        place.remove = plug rest way ∧ removeLinks rest = removeLinks forest ∧
        rest.size < forest.size := by
  induction forest generalizing way with
  | nil => exact .inl ⟨rfl, rfl⟩
  | node content children next ihc ihn =>
    rw [Forest.findFrom?, Place.isLink, removeLinks]
    cases hl : content.isElement (·.isLink) with
    | true =>
      refine .inr ⟨⟨way, content, children, next⟩, next, rfl, rfl, rfl, ?_⟩
      simp only [Forest.size]
      omega
    | false =>
      simp only [Bool.false_eq_true, if_false]
      rcases ihc (.into content next :: way) with ⟨hf, hsame⟩ | ⟨place, rest, hf, hr, hsame, hlt⟩
      · rw [hf, hsame]
        rcases ihn (.past content children :: way) with
          ⟨hf', hsame'⟩ | ⟨place, rest, hf', hr, hsame', hlt⟩
        · exact .inl ⟨hf', by rw [hsame']⟩
        · refine .inr ⟨place, .node content children rest, hf', hr, ?_, ?_⟩
          · rw [removeLinks, hl, hsame, hsame']
            rfl
          · simp only [Forest.size]
            omega
      · rw [hf]
        refine .inr ⟨place, .node content rest next, rfl, hr, ?_, ?_⟩
        · rw [removeLinks, hl, hsame]
          rfl
        · simp only [Forest.size]
          omega

/-- Where the first outer loop is replaced by an output without loops, fewer of them are left. -/
theorem FirstOuter.countP_lt {forest children after output : Forest} {e : Element}
    {around : Forest → Forest} (h : FirstOuter (·.isLoop) forest e children after around)
    (loopless : ∀ e ∈ output.elements, e.isLoop = false) :
    (around (output ++ after)).outerElements.countP (·.isLoop) <
      forest.outerElements.countP (·.isLoop) := by
  induction h with
  | @here e children next hp =>
    have loopfree : output.outerElements.countP (·.isLoop) = 0 := List.countP_eq_zero.mpr fun e he => by
      simp [loopless e (Forest.mem_elements_of_mem_outerElements he)]
    simp only [Forest.outerElements, Content.element?, Option.toList_some, id,
      Forest.outerElements_append, List.countP_append, List.countP_singleton, hp, loopfree, if_true]
    omega
  | inside _ hl _ ih => simpa [Forest.outerElements, hl] using ih
  | later _ _ _ ih => simpa [Forest.outerElements] using ih

theorem Place.countP_replace_lt (place : Place) {output : Forest} {e : Element}
    (hf : place.whole.find? (Place.isOuter (·.isLoop)) = some place)
    (he : place.content = .element e) (loopless : ∀ e ∈ output.elements, e.isLoop = false) :
    (place.replace output).outerElements.countP (·.isLoop) <
      place.whole.outerElements.countP (·.isLoop) := by
  obtain ⟨around, hfirst, hplug⟩ := firstOuter_of_find? hf he
  rw [Place.replace, hplug]
  exact hfirst.countP_lt loopless

namespace Arena

variable {tree result : Arena} {forest : Forest} {context : Context} {turns depth : Nat}
  {run last : Run}

namespace Represents

/-- Links are taken out of the arena as they are taken out of the forest. -/
theorem removeLinks? (h : tree.Represents forest) :
    ∃ result, result.Represents (removeLinks forest) ∧
      ∀ turns, forest.size < turns → Arena.removeLinks? turns tree = some result := by
  induction hsize : forest.size using Nat.strongRecOn generalizing tree forest with
  | ind size ih =>
    subst hsize
    obtain ⟨document, hd, hnone⟩ := h.linked.node_root (·.isLink)
    have root : (tree.node? 0).map (·.isElement (·.isLink)) = some false := by rw [hd, ← hnone]; rfl
    have agree {place : Place} {id : Nat} (hat : tree.At place id) :
        (tree.node? id).map (·.isElement (·.isLink)) = some place.isLink := by
      obtain ⟨node, hn, hc⟩ := hat.node h.linked
      rw [hn, Option.map_some, ArenaNode.isElement_of_content hc]
      rfl
    have turn {turns : Nat} (ht : forest.size < turns) : ∃ rest, turns = rest + 1 :=
      Nat.exists_eq_succ_of_ne_zero (Nat.ne_zero_of_lt ht)
    rcases h.holds.find?_at h.linked root agree with ⟨hf, hnone⟩ | ⟨place, id, hf, hplace, hat⟩
    · rcases findFrom?_isLink_cases [] forest with ⟨_, hsame⟩ | ⟨_, _, hsome, _⟩
      · refine ⟨tree, by rwa [hsame], fun turns ht => ?_⟩
        obtain ⟨turns, rfl⟩ := turn ht
        rw [Arena.removeLinks?, hf]
        rfl
      · cases hnone.symm.trans hsome
    · rcases findFrom?_isLink_cases [] forest with ⟨hnone, _⟩ | ⟨same, rest, hs, hrest, hsame, hlt⟩
      · cases hnone.symm.trans hplace
      · cases hs.symm.trans hplace
        -- The links of the forest without this one are those of the whole forest.
        obtain rfl := (Forest.whole_of_find? hplace).1
        obtain ⟨removed, hremoved, represents⟩ := h.detach hat
        rw [hrest] at represents
        obtain ⟨result, hresult, ends⟩ := ih _ hlt represents rfl
        refine ⟨result, hsame ▸ hresult, fun turns ht => ?_⟩
        obtain ⟨turns, rfl⟩ := turn ht
        rw [Arena.removeLinks?, hf, Option.bind_eq_bind, Option.bind_some]
        dsimp only
        rw [hremoved, Option.bind_eq_bind, Option.bind_some]
        exact ends turns (by omega)

/-- An arena is written as the forest that it holds. -/
theorem markup? (h : tree.Represents forest) : tree.markup? 0 = some forest.markup := by
  obtain ⟨document, all, hd, hlists, hpos⟩ := h.holds
  obtain ⟨same, hs, hc, _⟩ := h.linked.document
  cases hd.symm.trans hs
  obtain ⟨depth, hsize, deeper⟩ := exists_deeper hd (Nat.le_add_left ..)
  have below : ∀ k ∈ all, tree.size ≤ k + depth := fun k hk => deeper k (hpos k hk)
  obtain ⟨texts, ht, hflat⟩ := h.linked.mapM_markupBelow? hlists below
  rw [Arena.markup?, hsize, markupBelow?, hd, ← hflat]
  simp only [Option.bind_eq_bind, Option.bind_some, hc, ht]
  rfl

end Represents

section Ends

variable {inner : Run → Forest → Option Pass} {output : Run → Element → Forest → Option Pass}
  {place : Place} {id : Nat} {e : Element} {loop : Loop} {body : List Piece}
  {entries : List (Value × Value)} {shown : Forest} {fragment : Arena}

/-- Resolving loops in the arena comes to an end where it does in the forest, and to the same. -/
structure LoopsEnd (context : Context) (inner : Run → Forest → Option Pass) : Prop where
  ended {run last : Run} {tree : Arena} {forest resolved : Forest} : tree.Represents forest →
    inner run forest = some (last, resolved) → ∃ turns result,
      Arena.resolveLoops? context turns run tree = some (last, result) ∧ result.Represents resolved

/-- Resolving one loop in the arena comes to an end where it does in the forest, and to the same. -/
structure LoopEnds (context : Context) (output : Run → Element → Forest → Option Pass) : Prop where
  ended {run last : Run} {tree : Arena} {place : Place} {id : Nat} {e : Element} {shown : Forest} :
    tree.Represents place.whole → tree.At place id → place.content = .element e →
    output run e place.children = some (last, shown) → ∃ turns result,
      Arena.resolveLoop? context turns (Arena.resolveLoops? context turns) run tree id =
        some (last, result) ∧ result.Represents (place.replace shown)

theorem LoopsEnd.iterate? (ends : LoopsEnd context inner) (hf : fragment.Represents forest)
    (h : iterate context inner loop body entries run = some (last, shown)) :
    ∃ turns result, Arena.iterate? context turns (Arena.resolveLoops? context turns) loop body
        entries run fragment = some (last, result) ∧ result.Represents (forest ++ shown) := by
  induction entries generalizing run fragment forest shown with
  | nil =>
    cases h
    exact ⟨0, fragment, rfl, by simpa using hf⟩
  | cons entry entries ih =>
    obtain ⟨⟨left, first⟩, ⟨after, others⟩, hfirst, hothers, ended⟩ :=
      iterate_cons_eq_some_iff.mp h
    cases ended
    obtain ⟨enough, settled, represents, begins⟩ := exists_iteration context loop body entry run
    obtain ⟨more, resolved, hloops, represents⟩ := ends.ended represents hfirst
    obtain ⟨next, hnext, _⟩ := hf.linked.appendFragment represents.linked
    obtain ⟨rest, result, hrest, represents⟩ :=
      ih (hf.appendFragment represents hnext) hothers
    refine ⟨max enough (max more rest), result, ?_, ?_⟩
    · rw [begins _ _ _ (Nat.le_max_left ..), resolveLoops?_mono (by omega) hloops,
        Option.bind_some, hnext, Option.bind_some]
      exact iterate?_mono (resolveLoops?_mono (by omega)) (by omega) hrest
    · rwa [Forest.append_assoc] at represents

theorem LoopsEnd.loopEnds (ends : LoopsEnd context inner) :
    LoopEnds context (resolveLoop context inner) := by
  refine ⟨fun {run last tree place id e shown} h hat he hr => ?_⟩
  obtain ⟨node, hn, hc⟩ := hat.node h.linked
  rw [he] at hc
  have read : node.element?.map (Loop.read run.model) = some (Loop.read run.model e) := by
    rw [ArenaNode.element?_of_content hc]
    rfl
  cases hread : Loop.read run.model e with
  | error notice =>
    rw [resolveLoop_of_error hread] at hr
    cases hr
    obtain ⟨result, hresult, represents⟩ := h.detach hat
    refine ⟨0, result, ?_, represents⟩
    rw [Arena.resolveLoop?, hn, Option.bind_eq_bind, Option.bind_some, read, hread]
    simp only [hresult, Option.bind_eq_bind, Option.bind_some]
  | ok loop =>
    rw [resolveLoop_of_read hread] at hr
    obtain ⟨marked, hm, pieces, replaced⟩ := h.markLooped hat
    obtain ⟨turns, output, hi, represents⟩ := ends.iterate? Represents.empty hr
    obtain ⟨result, hresult, represents⟩ := replaced represents
    refine ⟨turns, result, ?_, represents⟩
    rw [Arena.resolveLoop?, hn, Option.bind_eq_bind, Option.bind_some, read, hread]
    simp only [hm, pieces, hi, hresult, Option.bind_eq_bind, Option.bind_some]

/-- The pass ends, as each of the outer loops is replaced by an output without loops. -/
theorem LoopEnds.loopsEnd {depth : Nat} (ends : LoopEnds context (loopOutput context depth)) :
    LoopsEnd context (resolveLoops context depth) := by
  refine ⟨fun {run last tree forest resolved} h hr => ?_⟩
  induction hcount : forest.outerElements.countP (·.isLoop) using Nat.strongRecOn
    generalizing run tree forest with
  | ind count ih =>
    subst hcount
    rcases h.holds.find_outer h.linked (·.isLoop) with
      ⟨hf, _, same⟩ | ⟨place, id, e, hf, hat, rfl, he, _, same⟩
    · have loopless := loopless_of_outer (find?_isOuter_eq_none_iff.mp (same h.apart))
      rw [resolveLoops_eq, replaceLoops_loopless loopless] at hr
      cases hr
      refine ⟨1, tree, ?_, h⟩
      rw [Arena.resolveLoops?, hf]
      rfl
    · rw [place.resolveLoops_whole (same h.apart) he] at hr
      obtain ⟨⟨left, shown⟩, hfirst, hr⟩ := Option.bind_eq_some_iff.mp hr
      obtain ⟨turns, next, hnext, represents⟩ := ends.ended h hat he hfirst
      -- The output has no loops of its own, so that one outer loop less is left.
      have fewer := place.countP_replace_lt (same h.apart) he (loopOutput_loopless hfirst)
      obtain ⟨more, result, hrest, represents⟩ := ih _ fewer represents hr rfl
      refine ⟨max turns more + 1, result, ?_, represents⟩
      rw [Arena.resolveLoops?, hf, Option.bind_eq_bind, Option.bind_some]
      dsimp only
      rw [resolveLoop?_mono (resolveLoops?_mono (Nat.le_max_left ..)) (Nat.le_max_left ..) hnext,
        Option.bind_eq_bind, Option.bind_some]
      exact resolveLoops?_mono (Nat.le_max_right ..) hrest

theorem loopsEnd (context : Context) (depth : Nat) :
    LoopsEnd context (resolveLoops context depth) := by
  induction depth with
  | zero => exact LoopEnds.loopsEnd ⟨fun _ _ _ hr => by cases hr⟩
  | succ depth ih => exact LoopEnds.loopsEnd ih.loopEnds

end Ends

end Arena

/-- A render in place comes to an end, if it may take enough turns, exactly if a render of forests
does, if it may go deep enough. Both give the same. -/
theorem renderInPlace?_iff (context : Context) (model : Model) (compiled : Text)
    (rendering : Rendering) :
    (∃ turns, renderInPlace? context turns model compiled = some rendering) ↔
      ∃ depth, render? context depth model compiled = some rendering := by
  obtain ⟨tree, hread, represents⟩ := Arena.Represents.read (Run.start context model) compiled
  constructor
  · rintro ⟨turns, h⟩
    rw [renderInPlace?, hread, Option.bind_eq_bind, Option.bind_some] at h
    dsimp only at h
    obtain ⟨⟨tagged, settled⟩, htags, h⟩ := Option.bind_eq_some_iff.mp h
    obtain ⟨⟨last, looped⟩, hloops, h⟩ := Option.bind_eq_some_iff.mp h
    obtain ⟨result, hlinks, h⟩ := Option.bind_eq_some_iff.mp h
    obtain ⟨htagged, represents⟩ := represents.resolveTags? htags
    rw [htagged] at hloops
    obtain ⟨depth, resolved, hresolved, represents⟩ :=
      (Arena.loopsAlike context turns).resolved represents hloops
    obtain ⟨same, represents, ends⟩ := represents.removeLinks?
    have hsame := ends (max turns (resolved.size + 1)) (by omega)
    rw [Arena.removeLinks?_mono (Nat.le_max_left ..) hlinks] at hsame
    cases hsame
    rw [represents.markup?, Option.bind_eq_bind, Option.bind_some] at h
    refine ⟨depth, ?_⟩
    rw [render?_eq, resolveDocument_of_ends hresolved]
    exact h
  · rintro ⟨depth, h⟩
    rw [render?_eq, resolveDocument_eq] at h
    obtain ⟨pass, hd, h⟩ := Option.map_eq_some_iff.mp h
    obtain ⟨⟨last, resolved⟩, hloops, hd⟩ := Option.bind_eq_some_iff.mp hd
    cases hd
    obtain ⟨enough, tagged, settled, _, tags⟩ := represents.linked.resolveTags? context
      ((Run.start context model).read compiled).1
    obtain ⟨htagged, represents⟩ := represents.resolveTags? (tags enough (Nat.le_refl enough))
    have htagged : tagged = (documentPass context model compiled).1 := htagged
    obtain ⟨turns, looped, hlooped, represents⟩ :=
      (Arena.loopsEnd context depth).ended represents hloops
    obtain ⟨result, represents, ends⟩ := represents.removeLinks?
    refine ⟨max enough (max turns (resolved.size + 1)), ?_⟩
    rw [renderInPlace?, hread, Option.bind_eq_bind, Option.bind_some]
    dsimp only
    rw [tags _ (Nat.le_max_left ..), Option.bind_some, htagged]
    dsimp only
    rw [Arena.resolveLoops?_mono (Nat.le_trans (Nat.le_max_left ..) (Nat.le_max_right ..)) hlooped,
      Option.bind_some]
    dsimp only
    rw [ends _ (by omega), Option.bind_eq_bind, Option.bind_some, represents.markup?,
      Option.bind_eq_bind, Option.bind_some]
    exact congrArg some h

end MarkupTemplate
