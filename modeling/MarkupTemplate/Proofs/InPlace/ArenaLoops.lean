import MarkupTemplate.Proofs.Render.LoopCopies
import MarkupTemplate.Proofs.Render.BoundNames
import MarkupTemplate.Proofs.Arena.LoopPieces
import MarkupTemplate.Proofs.InPlace.TagRounds
import MarkupTemplate.Proofs.InPlace.TurnBounds

namespace MarkupTemplate

/-- The iterations of a loop for entries, in order, each with its output. The first one starts from
the run, and each of the others from what the one before it left. -/
inductive Loop.Iterations (context : Context) (loop : Loop) (body : List Piece) :
    List (Value × Value) → Run → Run → List Forest → Prop
  | nil {run : Run} : loop.Iterations context body [] run run []
  | cons {entry : Value × Value} {entries : List (Value × Value)} {run left after : Run}
      {output : Forest} {outputs : List Forest} {depth : Nat} :
      resolveLoops context depth (iterationPass context loop body entry run).1
        (iterationPass context loop body entry run).2 = some (left, output) →
      loop.Iterations context body entries left after outputs →
      loop.Iterations context body (entry :: entries) run after (output :: outputs)

/-- Forests one after the other. -/
def joinForests (forests : List Forest) : Forest :=
  forests.foldr (· ++ ·) .nil

namespace Loop.Iterations

variable {context : Context} {loop : Loop} {body : List Piece} {entries : List (Value × Value)}
  {run after : Run} {outputs : List Forest}

theorem length (h : loop.Iterations context body entries run after outputs) :
    outputs.length = entries.length := by
  induction h with
  | nil => rfl
  | cons _ _ ih => rw [List.length_cons, List.length_cons, ih]

theorem iterate (h : loop.Iterations context body entries run after outputs) :
    ∃ depth, iterate context (resolveLoops context depth) loop body entries run =
      some (after, joinForests outputs) := by
  induction h with
  | nil => exact ⟨0, rfl⟩
  | @cons entry entries run left after output outputs depth hfirst _ ih =>
    obtain ⟨others, ho⟩ := ih
    have first := resolveLoops_mono (Nat.le_max_left depth others) hfirst
    have rest := iterate_mono (resolveLoops_mono (Nat.le_max_right depth others)) ho
    exact ⟨max depth others, iterate_cons_eq_some_iff.mpr ⟨_, _, first, rest, rfl⟩⟩

end Loop.Iterations

theorem loopOutput_loopless {context : Context} {depth : Nat} {run : Run} {e : Element}
    {body : Forest} {pass : Pass} (h : loopOutput context depth run e body = some pass) :
    ∀ e ∈ pass.2.elements, e.isLoop = false := by
  cases depth with
  | zero => cases h
  | succ => exact (resolveLoop_resolves resolveLoops_resolves h).loops

/-- All loops are resolved as if the one that is found first were resolved before all others. -/
theorem Place.resolveLoops_whole (place : Place) {e : Element}
    (hf : place.whole.find? (Place.isOuter (·.isLoop)) = some place)
    (he : place.content = .element e) (context : Context) (depth : Nat) (run : Run) :
    resolveLoops context depth run place.whole =
      (loopOutput context depth run e place.children).bind fun first =>
        resolveLoops context depth first.1 (place.replace first.2) := by
  obtain ⟨around, hfirst, hplug⟩ := firstOuter_of_find? hf he
  simp only [Place.replace, hplug, resolveLoops_eq]
  exact hfirst.replaceLoops loopOutput_loopless

namespace Arena

variable {tree marked after result fragment : Arena} {parent id turns : Nat}
  {before ids all : List Nat} {forest rest : Forest} {way : List Frame} {place : Place}
  {context : Context} {run last : Run}

/-- The same nodes, but for their marks. -/
structure Remarked (tree after : Arena) : Prop where
  node {k : Nat} {found : ArenaNode} : tree.node? k = some found →
    ∃ looped, after.node? k = some { found with looped }

theorem remarked_of_markLooped? (h : tree.markLooped? id = some marked) :
    Remarked tree marked := by
  have hu := updated_of_update? h
  refine ⟨fun {k found} hn => ?_⟩
  by_cases hk : id = k
  · subst hk
    exact ⟨_, hu.self hn⟩
  · exact ⟨found.looped, (hu.other hk).trans hn⟩

theorem Lists.remarked (h : tree.Lists parent ids forest all) (hr : Remarked tree marked) :
    marked.Lists parent ids forest all := by
  induction h with
  | nil => exact .nil
  | cons hn hc hp _ _ ihc ihn =>
    obtain ⟨looped, hm⟩ := hr.node hn
    exact .cons hm hc hp ihc ihn

theorem Leads.remarked (h : tree.Leads way parent before ids forest) (hr : Remarked tree marked) :
    marked.Leads way parent before ids forest := by
  induction h with
  | document hd hlists hpos =>
    obtain ⟨looped, hm⟩ := hr.node hd
    have leads := Leads.document hm (hlists.remarked hr) hpos
    exact leads
  | past _ ih => exact .past ih
  | into _ hn ih =>
    obtain ⟨looped, hm⟩ := hr.node hn
    have leads := Leads.into ih hm
    exact leads

theorem At.remarked (h : tree.At place id) (hr : Remarked tree marked) : marked.At place id := by
  obtain ⟨parent, before, later, hl⟩ := h
  exact ⟨parent, before, later, hl.remarked hr⟩

/-- A linked arena that holds the forest, where only nodes without a parent are marked. -/
structure Represents (tree : Arena) (forest : Forest) : Prop where
  linked : tree.Linked []
  holds : tree.Holds forest
  apart : tree.MarkedApart []

namespace Represents

theorem empty : Represents {} .nil :=
  ⟨linked_empty, ⟨_, [], rfl, .nil, by simp⟩, .empty⟩

theorem read (run : Run) (text : Text) :
    ∃ tree, run.readArena? text = some ((run.read text).1, tree) ∧
      tree.Represents (run.read text).2 := by
  obtain ⟨tree, ht, hl, hh, apart⟩ := run.readArena?_eq text
  exact ⟨tree, ht, hl, hh, apart⟩

theorem resolveTags? (h : tree.Represents forest)
    (ht : Arena.resolveTags? context turns run tree = some (last, result)) :
    last = (resolveTags context run forest).1 ∧
      result.Represents (resolveTags context run forest).2 := by
  obtain ⟨enough, after, other, resolves, ends⟩ := h.linked.resolveTags? context run
  have same := ends (max turns enough) (Nat.le_max_right ..)
  rw [resolveTags?_mono (Nat.le_max_left ..) ht] at same
  cases same
  obtain ⟨hlast, holds, apart⟩ := resolves.same h.holds h.apart
  exact ⟨hlast, resolves.linked, holds, apart⟩

theorem appendFragment (h : tree.Represents forest) (hf : fragment.Represents rest)
    (ha : tree.appendFragment? fragment = some after) : after.Represents (forest ++ rest) := by
  obtain ⟨same, hs, hl⟩ := h.linked.appendFragment hf.linked
  cases ha.symm.trans hs
  exact ⟨hl, h.holds.appendFragment hf.holds ha,
    MarkedApart.appendFragment? hf.linked hf.apart h.apart ha⟩

theorem detach (h : tree.Represents place.whole) (hat : tree.At place id) :
    ∃ result, tree.detach? id = some result ∧ result.Represents place.remove := by
  obtain ⟨result, hr, follows⟩ := hat.detach h.linked
  exact ⟨result, hr, follows.linked, follows.holds, follows.apart h.apart⟩

/-- A node can be marked, which leaves the pieces of its body, and then be replaced by what stands for
a forest. -/
theorem markLooped (h : tree.Represents place.whole) (hat : tree.At place id) :
    ∃ marked, tree.markLooped? id = some marked ∧
      marked.pieces? (·.isElement (·.isLoop)) id = some (bodyPieces place.children) ∧
      ∀ {output : Arena} {forest : Forest}, output.Represents forest →
        ∃ result, marked.replace? id output = some result ∧
          result.Represents (place.replace forest) := by
  obtain ⟨node, hn, _⟩ := hat.node h.linked
  obtain ⟨marked, hm, hl⟩ := h.linked.markLooped hn
  obtain ⟨_, _, _, _, _, inside⟩ := (hat.remarked (remarked_of_markLooped? hm)).inside hl
  refine ⟨marked, hm, ?_, fun {output forest} represents => ?_⟩
  · cases inside.lists with
    | cons hmarked _ _ hchildren _ => exact hl.pieces?_eq hmarked hchildren
  · obtain ⟨_, _, result, _, hr, replaced, holds⟩ :=
      inside.replace hl represents.linked represents.holds
    exact ⟨result, hr, replaced.linked, holds, MarkedApart.replaceRun? represents.linked
      represents.apart (h.apart.markLooped? hm) hl inside.owner (by simp [inside.children]) hr⟩

end Represents

/-- Resolving loops in the arena comes to what it comes to in the forest. -/
structure LoopsAlike (context : Context)
    (inner : Run → Arena → Option (Run × Arena)) : Prop where
  resolved {run last : Run} {tree result : Arena} {forest : Forest} : tree.Represents forest →
    inner run tree = some (last, result) → ∃ depth resolved,
      resolveLoops context depth run forest = some (last, resolved) ∧ result.Represents resolved

section Loops

variable {inner : Run → Arena → Option (Run × Arena)} {loop : Loop} {body : List Piece}
  {entries : List (Value × Value)} {node : ArenaNode} {e : Element}

/-- An iteration begins in an arena as it does in a forest. -/
theorem exists_iteration (context : Context) (loop : Loop) (body : List Piece)
    (entry : Value × Value) (run : Run) :
    ∃ enough settled, settled.Represents (iterationPass context loop body entry run).2 ∧
      ∀ {turns : Nat} (inner : Run → Arena → Option (Run × Arena)) (entries : List (Value × Value))
        (output : Arena), enough ≤ turns →
        Arena.iterate? context turns inner loop body (entry :: entries) run output =
          (inner (iterationPass context loop body entry run).1 settled).bind fun first =>
            (output.appendFragment? first.2).bind fun next =>
              Arena.iterate? context turns inner loop body entries first.1 next := by
  obtain ⟨tree, hread, represents⟩ := Represents.read
    { run with model := loop.bind run.model entry }
    (iterationText (loop.bind run.model entry) body)
  obtain ⟨enough, tagged, settled, _, ends⟩ := represents.linked.resolveTags? context _
  obtain ⟨same, represents⟩ := represents.resolveTags? (ends enough (Nat.le_refl enough))
  refine ⟨enough, settled, represents, fun {turns} inner entries output le => ?_⟩
  rw [Arena.iterate?, hread, Option.bind_eq_bind, Option.bind_some]
  dsimp only
  rw [ends turns le, Option.bind_some, same]
  rfl

theorem LoopsAlike.iterate? (alike : LoopsAlike context inner) {output : Arena}
    (hout : output.Represents forest)
    (h : Arena.iterate? context turns inner loop body entries run output = some (last, result)) :
    ∃ outputs, loop.Iterations context body entries run last outputs ∧
      result.Represents (forest ++ joinForests outputs) := by
  induction entries generalizing run output forest turns with
  | nil =>
    cases h
    exact ⟨[], .nil, by simpa [joinForests] using hout⟩
  | cons entry entries ih =>
    obtain ⟨enough, settled, represents, begins⟩ := exists_iteration context loop body entry run
    -- With more turns the result is the same, and the rounds over the tags have enough of them.
    have h := iterate?_mono (fun hi => hi) (Nat.le_max_left turns enough) h
    rw [begins inner entries output (Nat.le_max_right turns enough)] at h
    obtain ⟨⟨left, resolved⟩, hloops, h⟩ := Option.bind_eq_some_iff.mp h
    obtain ⟨next, hnext, h⟩ := Option.bind_eq_some_iff.mp h
    obtain ⟨depth, shown, hforest, represents⟩ := alike.resolved represents hloops
    obtain ⟨outputs, iterations, hlast⟩ := ih (hout.appendFragment represents hnext) h
    refine ⟨shown :: outputs, .cons hforest iterations, ?_⟩
    rwa [Forest.append_assoc] at hlast

/-- A loop that can run runs the iterations for its entries, and is marked and replaced by what they
give. -/
theorem LoopsAlike.iterations (alike : LoopsAlike context inner) (h : tree.Linked [])
    (hn : tree.node? id = some node) (hc : node.content = some (.element e))
    (hread : Loop.read run.model e = .ok loop)
    (hr : Arena.resolveLoop? context turns inner run tree id = some (last, result)) :
    ∃ children all outputs marked output, tree.Lists id node.children children all ∧
      loop.Iterations context (bodyPieces children) loop.entries run last outputs ∧
      tree.markLooped? id = some marked ∧ marked.Linked [] ∧
      output.Represents (joinForests outputs) ∧ marked.replace? id output = some result := by
  have he : node.element?.map (Loop.read run.model) = some (.ok loop) := by
    rw [ArenaNode.element?_of_content hc]
    exact congrArg some hread
  obtain ⟨marked, hm, hl⟩ := h.markLooped hn
  have remarked := remarked_of_markLooped? hm
  obtain ⟨children, all, hlists⟩ := h.exists_lists (h.child hn)
  obtain ⟨looped, hmarked⟩ := remarked.node hn
  have pieces := hl.pieces?_eq hmarked (hlists.remarked remarked)
  rw [Arena.resolveLoop?, hn, Option.bind_eq_bind, Option.bind_some, he] at hr
  dsimp only at hr
  simp only [hm, pieces, Option.bind_eq_bind, Option.bind_some] at hr
  obtain ⟨⟨left, output⟩, hi, hr⟩ := Option.bind_eq_some_iff.mp hr
  obtain ⟨replaced, ha, hr⟩ := Option.bind_eq_some_iff.mp hr
  cases hr
  obtain ⟨outputs, iterations, represents⟩ := alike.iterate? Represents.empty hi
  exact ⟨children, all, outputs, marked, output, hlists, iterations, hm, hl, represents, ha⟩

/-- Resolving a loop in the arena puts its output in the place of the loop in the forest. -/
theorem LoopsAlike.resolveLoop? (alike : LoopsAlike context inner)
    (h : tree.Represents place.whole) (hat : tree.At place id) (he : place.content = .element e)
    (hr : Arena.resolveLoop? context turns inner run tree id = some (last, result)) :
    ∃ depth output,
      resolveLoop context (resolveLoops context depth) run e place.children =
        some (last, output) ∧ result.Represents (place.replace output) := by
  obtain ⟨_, _, _, _, _, hi⟩ := hat.inside h.linked
  cases hi.lists with
  | @cons _ _ node _ _ _ _ _ _ hn hc _ hchildren _ =>
    rw [he] at hc
    cases hread : Loop.read run.model e with
    | error notice =>
      have failed : node.element?.map (Loop.read run.model) = some (.error notice) := by
        rw [ArenaNode.element?_of_content hc]
        exact congrArg some hread
      rw [Arena.resolveLoop?, hn, Option.bind_eq_bind, Option.bind_some, failed] at hr
      obtain ⟨removed, hremoved, hr⟩ := Option.bind_eq_some_iff.mp hr
      cases hr
      obtain ⟨same, hs, represents⟩ := h.detach hat
      cases hremoved.symm.trans hs
      exact ⟨0, .nil, resolveLoop_of_error hread, represents⟩
    | ok loop =>
      obtain ⟨children, all, outputs, marked, output, hlists, iterations, hm, _, represents, ha⟩ :=
        alike.iterations h.linked hn hc hread hr
      obtain ⟨rfl, _⟩ := hlists.unique hchildren
      obtain ⟨depth, hd⟩ := iterations.iterate
      obtain ⟨same, hs, _, replaced⟩ := h.markLooped hat
      cases hm.symm.trans hs
      obtain ⟨same, hs, represents⟩ := replaced represents
      cases ha.symm.trans hs
      exact ⟨depth, joinForests outputs, (resolveLoop_of_read hread).trans hd, represents⟩

end Loops

/-- A pass over all loops of the arena comes to what a pass over those of the forest comes to. -/
theorem loopsAlike (context : Context) (turns : Nat) :
    LoopsAlike context (Arena.resolveLoops? context turns) := by
  induction turns with
  | zero => exact ⟨fun _ hr => by cases hr⟩
  | succ turns ih =>
    refine ⟨fun {run last tree result forest} h hr => ?_⟩
    rw [Arena.resolveLoops?] at hr
    rcases h.holds.find_outer h.linked (·.isLoop) with
      ⟨hf, _, same⟩ | ⟨place, id, e, hf, hat, rfl, he, _, same⟩
    · rw [hf, Option.bind_eq_bind, Option.bind_some] at hr
      cases hr
      have loopless := loopless_of_outer (find?_isOuter_eq_none_iff.mp (same h.apart))
      exact ⟨0, forest, replaceLoops_loopless loopless _ _, h⟩
    · rw [hf, Option.bind_eq_bind, Option.bind_some] at hr
      obtain ⟨⟨left, next⟩, hfirst, hr⟩ := Option.bind_eq_some_iff.mp hr
      obtain ⟨depth, output, ho, represents⟩ := ih.resolveLoop? h hat he hfirst
      obtain ⟨others, resolved, hrest, represents⟩ := ih.resolved represents hr
      refine ⟨max depth others + 1, resolved, ?_, represents⟩
      rw [place.resolveLoops_whole (same h.apart) he, loopOutput,
        resolveLoop_deeper (Nat.le_max_left depth others) ho, Option.bind_some]
      exact resolveLoops_mono (Nat.le_succ_of_le (Nat.le_max_right depth others)) hrest

section Collections

variable {node : ArenaNode} {e : Element} {valueName collection : Text} {value : Value}
  {entries : List (Value × Value)}

/-- A node was marked and, if it has a parent, replaced by copies of nodes that hold the forest. Every
other node stays as it was. -/
def LoopReplaced (tree result : Arena) (id : Nat) (node : ArenaNode) (forest : Forest) : Prop :=
  ∃ marked fragment top, tree.markLooped? id = some marked ∧
    (∀ k, k ≠ id → marked.node? k = tree.node? k) ∧
    fragment.node? 0 = some top ∧ fragment.Holds forest ∧
    (node.parent = none → result = marked) ∧
    ∀ parent, node.parent = some parent → ∃ owner before later new,
      tree.node? parent = some owner ∧ owner.children = before ++ [id] ++ later ∧
      Replaced marked result parent owner before [id] later fragment top.children new

theorem Linked.loopReplaced (h : tree.Linked []) (hn : tree.node? id = some node)
    (hm : tree.markLooped? id = some marked) (hl : marked.Linked [])
    (hf : fragment.Represents forest) (ha : marked.replace? id fragment = some result) :
    tree.LoopReplaced result id node forest := by
  have other {k : Nat} (hk : k ≠ id) : marked.node? k = tree.node? k :=
    (updated_of_update? hm).other hk.symm
  obtain ⟨top, htop, _⟩ := hf.linked.document
  refine ⟨marked, fragment, top, hm, fun k => other, htop, hf.holds, fun hp => ?_,
    fun parent hp => ?_⟩
  · obtain ⟨looped, hmid⟩ := (remarked_of_markLooped? hm).node hn
    rw [Arena.replace?, replaceRun?, indexInParent?_top hmid hp] at ha
    exact (Option.some.inj ha).symm
  · obtain ⟨owner, ho, hmem⟩ := h.listed hn hp List.not_mem_nil
    obtain ⟨before, later, hsplit⟩ := List.append_of_mem hmem
    rw [List.append_cons] at hsplit
    have howner := (other (Nat.ne_of_lt (h.child ho id hmem).1)).trans ho
    obtain ⟨same, new, after, hs, hafter, replaced⟩ :=
      hl.replaced hf.linked howner hsplit (List.cons_ne_nil id [])
    cases htop.symm.trans hs
    cases ha.symm.trans hafter
    exact ⟨owner, before, later, new, ho, hsplit, replaced⟩

/-- A node that is replaced by nothing is taken out. -/
theorem LoopReplaced.removed {owner : ArenaNode} (hr : tree.LoopReplaced result id node .nil)
    (h : tree.Linked []) (hp : node.parent = some parent) (ho : tree.node? parent = some owner) :
    result.node? parent = some { owner with children := owner.children.erase id } := by
  obtain ⟨marked, fragment, top, _, _, htop, hh, _, replaced⟩ := hr
  obtain ⟨same, before, later, new, hs, hsplit, replaced⟩ := replaced parent hp
  cases ho.symm.trans hs
  obtain ⟨document, _, hd, hnil, _⟩ := hh
  cases htop.symm.trans hd
  have hcopies := replaced.copies
  rw [hnil.eq_nil] at hcopies
  have hnodup := h.nodup ho
  rw [hsplit] at hnodup
  have erased : (before ++ [id] ++ later).erase id = before ++ later := foldl_erase_run hnodup
  rw [replaced.owner, hcopies.eq_nil, List.append_nil, hsplit, erased]

/-- A loop over a collection runs one iteration for each of the entries that the collection had
before it, in order. Each iteration starts from the model that the one before it left, with the value
and then the key bound, and reads the body, in which the loops are left as they are. Then the loop,
and no other node, is replaced by the outputs of the iterations, in order. A name that no loop has
bound in an iteration keeps its value, and without entries nothing changes but that the loop goes. -/
theorem resolveLoop?_iterates (h : tree.Sound) (hn : tree.node? id = some node)
    (hc : node.content = some (.element e)) (hval : e.setting? "val".toList = some valueName)
    (hin : e.setting? "in".toList = some collection)
    (hget : run.model.get? (lowerText collection) = some value)
    (hentries : value.entries? = some entries)
    (hr : Arena.resolveLoop? context turns (Arena.resolveLoops? context turns) run tree id =
      some (last, result)) :
    ∃ children all outputs, tree.Lists id node.children children all ∧
      (bodyPieces children).flatMap Piece.text = children.markup ∧
      (bodyPieces children).filterMap Piece.kept? = children.loopTexts ∧
      (e.loopOver valueName entries).Iterations context (bodyPieces children) entries run last
        outputs ∧
      outputs.length = entries.length ∧
      (∀ model entry name, ((e.loopOver valueName entries).bind model entry).fields.find? name =
        if (e.loopOver valueName entries).keyName.map lowerText = some name then some entry.1
        else if lowerText (e.loopOver valueName entries).valueName = name then some entry.2
        else model.fields.find? name) ∧
      (∃ depth, resolveLoop context (resolveLoops context depth) run e children =
        some (last, joinForests outputs)) ∧
      tree.LoopReplaced result id node (joinForests outputs) ∧
      (∀ name, (entries ≠ [] → name ∉ (e.loopOver valueName entries).names) →
        (∀ begun other, (e.loopOver valueName entries).Begins context (bodyPieces children) entries
          run begun → Iterates context begun other → name ∉ other.names) →
        last.model.fields.find? name = run.model.fields.find? name) ∧
      (entries = [] → last = run ∧ ∀ parent owner, node.parent = some parent →
        tree.node? parent = some owner →
        result.node? parent = some { owner with children := owner.children.erase id }) := by
  have hl := h.linked
  have hread := Loop.read_loopOver hval hin hget hentries
  obtain ⟨children, all, outputs, marked, output, hlists, iterations, hm, hmarked, represents, ha⟩ :=
    (loopsAlike context turns).iterations hl hn hc hread hr
  obtain ⟨depth, hd⟩ := iterations.iterate
  have replaced := hl.loopReplaced hn hm hmarked represents ha
  refine ⟨children, all, outputs, hlists, text_bodyPieces children, kept_bodyPieces children,
    iterations, iterations.length, (e.loopOver valueName entries).find?_bind,
    ⟨depth, (resolveLoop_of_read hread).trans hd⟩, replaced,
    fun name => iterate_keepsName resolveLoops_keepsName hd, ?_⟩
  rintro rfl
  cases iterations
  exact ⟨rfl, fun parent owner hp ho => replaced.removed hl hp ho⟩

end Collections

/-- An element that binds `a` to each value of `a` in turn. -/
def rebindingLoop : Element :=
  ⟨"foreach".toList,
    [⟨"val".toList, .quoted .double ['a']⟩, ⟨"in".toList, .quoted .double ['a']⟩], .normal⟩

/-- An element that binds `b` to each value of `c` in turn. -/
def innerLoop : Element :=
  ⟨"foreach".toList,
    [⟨"val".toList, .quoted .double ['b']⟩, ⟨"in".toList, .quoted .double ['c']⟩], .normal⟩

/-- The arena of a paragraph around both loops, one inside the other. -/
def loopsArena : Arena where
  nodes := #[
    { content := none, children := [1] },
    { content := some (.element ⟨['p'], [], .normal⟩), parent := some 0, children := [2] },
    { content := some (.element rebindingLoop), parent := some 1, children := [3, 4] },
    { content := some (.text "\x7ba\x7d".toList), parent := some 2 },
    { content := some (.element innerLoop), parent := some 2, children := [5] },
    { content := some (.text "\x7bb\x7d".toList), parent := some 4 }]

theorem sound_loopsArena : loopsArena.Sound := by
  let text : Text := "<p>".toList ++ rebindingLoop.startTag ++ "\x7ba\x7d".toList ++
    innerLoop.startTag ++ "\x7bb\x7d</foreach></foreach></p>".toList
  obtain ⟨tree, ht, hl⟩ := linked_read text
  have read : read? text = some loopsArena := by decide +kernel
  cases ht.symm.trans read
  exact hl.sound

/-- The state of a render with two values in `a` and one in `c`. -/
def loopsRun : Run :=
  .start (dashes 0) ⟨[(['a'], .list [.text ['u'], .text ['v']]), (['c'], .list [.text ['1']])]⟩

/-- Both values have an iteration, though the first one takes the place of the collection. -/
theorem resolveLoop?_iterates_rebinding :
    loopsArena.Sound ∧ ∃ last result,
      Arena.resolveLoop? (dashes 0) 4 (Arena.resolveLoops? (dashes 0) 4) loopsRun loopsArena 2 =
        some (last, result) ∧
      ∃ children outputs, children.markup = "\x7ba\x7d".toList ++ innerLoop.startTag ++
          "\x7bb\x7d</foreach>".toList ∧
        outputs.length = 2 ∧
        (∃ depth, resolveLoop (dashes 0) (resolveLoops (dashes 0) depth) loopsRun rebindingLoop
          children = some (last, joinForests outputs)) ∧
        loopsArena.LoopReplaced result 2
          { content := some (.element rebindingLoop), parent := some 1, children := [3, 4] }
          (joinForests outputs) := by
  have returns : (Arena.resolveLoop? (dashes 0) 4 (Arena.resolveLoops? (dashes 0) 4) loopsRun
      loopsArena 2).isSome = true := by decide +kernel
  obtain ⟨⟨last, result⟩, hr⟩ := Option.isSome_iff_exists.mp returns
  have hn : loopsArena.node? 2 = some
      { content := some (.element rebindingLoop), parent := some 1, children := [3, 4] } := rfl
  have hval : rebindingLoop.setting? "val".toList = some ['a'] := by decide +kernel
  have hin : rebindingLoop.setting? "in".toList = some ['a'] := by decide +kernel
  have path : Path.read? (lowerText ['a']) = some ⟨['a'], []⟩ := by decide +kernel
  have hget : loopsRun.model.get? (lowerText ['a']) =
      some (.list [.text ['u'], .text ['v']]) := by
    rw [Model.get?, path]
    rfl
  have hentries : (Value.list [.text ['u'], .text ['v']]).entries? =
    some [(.number (.integer 0), .text ['u']), (.number (.integer 1), .text ['v'])] := rfl
  obtain ⟨children, all, outputs, hlists, _, _, _, hlength, _, hforest, hreplaced, _⟩ :=
    resolveLoop?_iterates sound_loopsArena hn rfl hval hin hget hentries hr
  have body : loopsArena.childrenMarkup? 2 = some ("\x7ba\x7d".toList ++ innerLoop.startTag ++
      "\x7bb\x7d</foreach>".toList) := by decide +kernel
  rw [sound_loopsArena.linked.childrenMarkup?_eq hn hlists] at body
  exact ⟨sound_loopsArena, last, result, hr, children, outputs, Option.some.inj body, hlength,
    hforest, hreplaced⟩

example :
    (Arena.resolveLoop? (dashes 0) 4 (Arena.resolveLoops? (dashes 0) 4) loopsRun loopsArena 2).bind
        (·.2.markup? 0) =
      some "<p>u1v1</p>".toList := by decide +kernel

end Arena

end MarkupTemplate
