import MarkupTemplate.Markup.Stack
import MarkupTemplate.Proofs.Arena.AncestorNodes
import MarkupTemplate.Proofs.Arena.Soundness
import Mathlib.Data.List.Perm.Subperm

namespace MarkupTemplate

namespace Arena

/-- The one node comes before the other one in the text: it is above it, or it is at or below a
child that stands before one that the other is at or below. -/
inductive Precedes (tree : Arena) (a b : Nat) : Prop
  | above : tree.Above a b → Precedes tree a b
  | beside {parent first second : Nat} {owner : ArenaNode} : tree.node? parent = some owner →
      [first, second].Sublist owner.children → Relation.ReflTransGen tree.Names first a →
      Relation.ReflTransGen tree.Names second b → Precedes tree a b

/-- The attached nodes in the order of the text, as they are found by recursion, each once. -/
structure DocumentOrder (tree : Arena) (order : List Nat) : Prop where
  recursive : tree.inOrder? = some order
  mem (id : Nat) : id ∈ order ↔ tree.Attached id
  nodup : order.Nodup
  sorted : order.Pairwise tree.Precedes

/-- The first of the nodes for which something holds is this one, or there is none. -/
def First (holds : Nat → Prop) (order : List Nat) : Option Nat → Prop
  | some id => holds id ∧ ∃ before after, order = before ++ id :: after ∧
      ∀ other ∈ before, ¬ holds other
  | none => ∀ id ∈ order, ¬ holds id

/-- Looking for a node ends and finds the first one for which something holds, with a stack in as
many turns as there are nodes or more, as well as by recursion. -/
def FindsFirst (tree : Arena) (order : List Nat) (property : Nat → Option Bool)
    (holds : Nat → Prop) : Prop :=
  ∃ found, First holds order found ∧
    (∀ turns, tree.size ≤ turns → tree.search? turns property = some found) ∧
    tree.find? property = some found

/-- The node is an element with the property, and no node above it is a loop that is not marked. -/
structure Outside (tree : Arena) (property : Element → Bool) (id : Nat) : Prop where
  element : ∃ node, tree.node? id = some node ∧ node.isElement property = true
  unlooped {top : Nat} {owner : ArenaNode} : tree.Above top id → tree.node? top = some owner →
    owner.isWaitingLoop = false

/-- Nodes as a stack, the first one on top. -/
def stacked (ids : List Nat) : Array Nat :=
  ids.reverse.toArray

/-- The order in which nodes are taken from a stack that has these, if the children of each come
before the others. -/
inductive Unstacks (tree : Arena) : List Nat → List Nat → Prop
  | nil : Unstacks tree [] []
  | cons {id : Nat} {node : ArenaNode} {pending later : List Nat} : tree.node? id = some node →
      Unstacks tree (node.children ++ pending) later → Unstacks tree (id :: pending) (id :: later)

variable {tree : Arena} {parent id turns : Nat} {ids pending later order all : List Nat}
  {node owner : ArenaNode} {forest : Forest} {property : Nat → Option Bool} {test : Nat → Bool}
  {holds : Nat → Prop}

theorem searchFrom?_nil (tree : Arena) (property : Nat → Option Bool) (turns : Nat) :
    tree.searchFrom? property turns (stacked []) = some none := by
  rw [searchFrom?]
  rfl

/-- A turn takes a node from the stack, and puts its children there if the search goes on. -/
theorem searchFrom?_cons (hn : tree.node? id = some node) (ht : property id = some (test id))
    (turns : Nat) (pending : List Nat) :
    tree.searchFrom? property (turns + 1) (stacked (id :: pending)) =
      if test id then some (some id)
      else tree.searchFrom? property turns (stacked (node.children ++ pending)) := by
  rw [searchFrom?]
  simp [stacked, ht, hn]

/-- With a turn for each node the search comes to the first one. -/
theorem Unstacks.searchFrom? (h : tree.Unstacks pending order) (hturns : order.length ≤ turns)
    (tested : ∀ id ∈ order, property id = some (test id)) :
    tree.searchFrom? property turns (stacked pending) = some (order.find? test) := by
  induction h generalizing turns with
  | nil => exact searchFrom?_nil tree property turns
  | @cons id node pending later hn _ ih =>
    obtain ⟨ht, tested⟩ := List.forall_mem_cons.mp tested
    cases turns with
    | zero => exact absurd hturns (Nat.not_succ_le_zero _)
    | succ turns =>
      rw [searchFrom?_cons hn ht, List.find?_cons, ih (Nat.le_of_succ_le_succ hturns) tested]
      cases test id <;> rfl

/-- Nodes next to each other are taken with all below them before the others. -/
theorem Lists.unstacks (h : tree.Lists parent ids forest all) (hv : tree.Unstacks pending later) :
    tree.Unstacks (ids ++ pending) (all ++ later) := by
  induction h generalizing pending later with
  | nil => exact hv
  | cons hn _ _ _ _ ihc ihn =>
    rw [List.cons_append, List.cons_append, List.append_assoc]
    -- the children come on top of the nodes beside, which come on top of those that wait already
    exact .cons hn (ihc (ihn hv))

theorem Order.unstacks (ho : tree.Order forest all) : tree.Unstacks [0] (0 :: all) := by
  obtain ⟨document, hd, hlists⟩ := ho.lists
  have below := hlists.unstacks .nil
  rw [List.append_nil all] at below
  exact .cons hd below

theorem Lists.within (h : tree.Lists parent ids forest all) {k : Nat} (hk : k ∈ all) :
    ∃ top ∈ ids, Relation.ReflTransGen tree.Names top k := by
  induction h with
  | nil => cases hk
  | @cons parent id node _ _ _ _ _ _ hn _ _ _ _ ihc ihn =>
    rcases List.mem_cons.mp hk with rfl | hk
    · exact ⟨k, List.mem_cons_self, .refl⟩
    · rcases List.mem_append.mp hk with hk | hk
      · obtain ⟨child, hm, hdown⟩ := ihc hk
        exact ⟨id, List.mem_cons_self, .head ⟨node, hn, hm⟩ hdown⟩
      · obtain ⟨top, hm, hdown⟩ := ihn hk
        exact ⟨top, List.mem_cons_of_mem _ hm, hdown⟩

theorem Lists.above (h : tree.Lists id node.children forest all) (hn : tree.node? id = some node)
    {k : Nat} (hk : k ∈ all) : tree.Above id k := by
  obtain ⟨child, hm, hdown⟩ := h.within hk
  exact .head' ⟨node, hn, hm⟩ hdown

/-- What is listed below a node is in the order of the text. -/
theorem Lists.sorted (h : tree.Lists parent ids forest all) (ho : tree.node? parent = some owner)
    (hids : ids.Sublist owner.children) : all.Pairwise tree.Precedes := by
  induction h generalizing owner with
  | nil => exact .nil
  | @cons parent id node _ rest inner others _ _ hn _ _ hchildren hnext ihc ihn =>
    have later {k : Nat} (hk : k ∈ others) :
        ∃ second, [id, second].Sublist owner.children ∧
          Relation.ReflTransGen tree.Names second k := by
      obtain ⟨second, hm, hdown⟩ := hnext.within hk
      exact ⟨second, ((List.singleton_sublist.mpr hm).cons_cons id).trans hids, hdown⟩
    refine List.pairwise_cons.mpr ⟨fun k hk => ?_, List.pairwise_append.mpr
      ⟨ihc hn (.refl _), ihn ho ((List.sublist_cons_self id rest).trans hids), fun a ha b hb => ?_⟩⟩
    · rcases List.mem_append.mp hk with hk | hk
      · exact .above (hchildren.above hn hk)
      · obtain ⟨second, hs, hdown⟩ := later hk
        exact .beside ho hs .refl hdown
    · obtain ⟨second, hs, hdown⟩ := later hb
      exact .beside ho hs (hchildren.above hn ha).to_reflTransGen hdown

/-- Walking down an arena by recursion gives its attached nodes in the order of the text. -/
theorem Linked.documentOrder (h : tree.Linked []) (ho : tree.Order forest all) :
    tree.DocumentOrder (0 :: all) := by
  obtain ⟨document, hd, hlists⟩ := ho.lists
  have hnot : 0 ∉ all := fun hm => Nat.lt_irrefl 0 (ho.pos 0 hm)
  exact {
    recursive := h.nodesBelow?_eq hd hlists
    mem := fun id => (ho.attached id).symm
    nodup := List.nodup_cons.mpr ⟨hnot, h.nodup_of_lists hlists (h.nodup hd)⟩
    sorted := List.pairwise_cons.mpr
      ⟨fun _ hk => .above (hlists.above hd hk), hlists.sorted hd (.refl _)⟩ }

theorem DocumentOrder.length_le (ho : tree.DocumentOrder order) (h : tree.Linked []) :
    order.length ≤ tree.size := by
  have within : order ⊆ List.range tree.size := fun id hid =>
    List.mem_range.mpr (((ho.mem id).mp hid).lt_size h)
  exact Nat.le_trans (ho.nodup.subperm within).length_le (Nat.le_of_eq List.length_range)

theorem first_find? (hiff : ∀ id ∈ order, test id = true ↔ holds id) :
    First holds order (order.find? test) := by
  cases hf : order.find? test with
  | none => exact fun id hid hh => List.find?_eq_none.mp hf id hid ((hiff id hid).mpr hh)
  | some id =>
    obtain ⟨ht, before, after, rfl, hbefore⟩ := List.find?_eq_some_iff_append.mp hf
    refine ⟨(hiff id (by simp)).mp ht, before, after, rfl, fun other hm hh => ?_⟩
    have := hbefore other hm
    rw [(hiff other (by simp [hm])).mpr hh] at this
    cases this

/-- A property that is known of all attached nodes is found where it holds first. -/
theorem Linked.findsFirst (h : tree.Linked []) (ho : tree.Order forest all)
    (known : ∀ id, tree.Attached id → ∃ found, property id = some found ∧
      (found = true ↔ holds id)) :
    tree.FindsFirst (0 :: all) property holds := by
  let test (id : Nat) : Bool := property id == some true
  have both : ∀ id ∈ 0 :: all, property id = some (test id) ∧ (test id = true ↔ holds id) := by
    intro id hid
    obtain ⟨found, hf, hiff⟩ := known id ((ho.attached id).mpr hid)
    have same : test id = found := by
      simp only [test, hf]
      cases found <;> rfl
    rw [same]
    exact ⟨hf, hiff⟩
  have tested : ∀ id ∈ 0 :: all, property id = some (test id) := fun id hid => (both id hid).1
  refine ⟨_, first_find? fun id hid => (both id hid).2, fun turns hturns => ?_,
    h.find?_eq ho tested⟩
  exact ho.unstacks.searchFrom? (Nat.le_trans ((h.documentOrder ho).length_le h) hturns) tested

theorem Linked.names_iff (h : tree.Linked []) : tree.Names parent id ↔
    ∃ node, tree.node? id = some node ∧ node.parent = some parent := by
  constructor
  · rintro ⟨owner, ho, hm⟩
    exact (h.child ho id hm).2
  · rintro ⟨node, hn, hp⟩
    exact h.listed hn hp List.not_mem_nil

/-- Going up by the parents meets a loop that is not marked exactly if one of the nodes above is
one. -/
theorem Linked.inWaitingLoop_iff (h : tree.Linked []) : tree.InWaitingLoop id ↔
    ∃ top owner, tree.Above top id ∧ tree.node? top = some owner ∧
      owner.isWaitingLoop = true := by
  constructor
  · intro hw
    induction hw with
    | parent hn hp ho hw => exact ⟨_, _, .single (h.names_iff.mpr ⟨_, hn, hp⟩), ho, hw⟩
    | above hn hp _ ih =>
      obtain ⟨top, owner, ha, ho, hw⟩ := ih
      exact ⟨top, owner, ha.tail (h.names_iff.mpr ⟨_, hn, hp⟩), ho, hw⟩
  · rintro ⟨top, owner, ha, ho, hw⟩
    induction ha with
    | single named =>
      obtain ⟨node, hn, hp⟩ := h.names_iff.mp named
      exact .parent hn hp ho hw
    | tail _ named ih =>
      obtain ⟨node, hn, hp⟩ := h.names_iff.mp named
      exact .above hn hp ih

theorem Linked.isOuter_iff (h : tree.Linked []) {property : Element → Bool}
    (ha : tree.Attached id) : tree.IsOuter property id ↔ tree.Outside property id := by
  constructor
  · intro ho
    refine ⟨ho.element, fun {top owner} hup hn => Bool.eq_false_iff.mpr fun hw => ?_⟩
    exact ho.outside (h.inWaitingLoop_iff.mpr ⟨top, owner, hup, hn, hw⟩)
  · intro ho
    refine ⟨ha, ho.element, fun hw => ?_⟩
    obtain ⟨top, owner, hup, hn, hw⟩ := h.inWaitingLoop_iff.mp hw
    cases (ho.unlooped hup hn).symm.trans hw

/-- In a sound arena looking for a node ends, with a stack after no more turns than there are nodes,
and finds the first one in the order of the text that meets the test, or nothing if no attached node
does. So it is with looking for an element, such as an include or the head of a chain, that is in no
loop still to be run: its test goes up by the parents, and no node above what is found is such a
loop. -/
theorem search?_first (h : tree.Sound) :
    ∃ order, tree.DocumentOrder order ∧
      (∀ test : Nat → Bool,
        tree.FindsFirst order (fun id => some (test id)) fun id => test id = true) ∧
      ∀ property : Element → Bool,
        tree.FindsFirst order (tree.isOuter? property) (tree.Outside property) := by
  have hl := h.linked
  obtain ⟨forest, hh⟩ := hl.exists_holds
  obtain ⟨all, ho⟩ := hh.order
  refine ⟨0 :: all, hl.documentOrder ho, fun test => ?_, fun property => ?_⟩
  · exact hl.findsFirst ho fun id _ => ⟨test id, rfl, Iff.rfl⟩
  · refine hl.findsFirst ho fun id ha => ?_
    obtain ⟨found, hf, hiff⟩ := hl.isOuter? property ha
    exact ⟨found, hf, hiff.trans (hl.isOuter_iff ha)⟩

/-- The arena of an include, a loop around an include, a paragraph and an include, with bold text
around an include in the place of the paragraph and without the first include. -/
def waitingArena : Arena where
  nodes := #[
    { content := none, children := [2, 6, 5] },
    { content := some (.element ⟨"include".toList, [], .normal⟩) },
    { content := some (.element ⟨"foreach".toList, [], .normal⟩), parent := some 0,
      children := [3] },
    { content := some (.element ⟨"include".toList, [], .normal⟩), parent := some 2 },
    { content := some (.element ⟨['p'], [], .normal⟩) },
    { content := some (.element ⟨"include".toList, [], .normal⟩), parent := some 0 },
    { content := some (.element ⟨['b'], [], .normal⟩), parent := some 0, children := [7] },
    { content := some (.element ⟨"include".toList, [], .normal⟩), parent := some 6 }]

theorem sound_waitingArena : waitingArena.Sound := by
  let text : Text :=
    "<include></include><foreach><include></include></foreach><p></p><include></include>".toList
  let bold : Text := "<b><include></include></b>".toList
  obtain ⟨tree, ht, hl⟩ := linked_read text
  obtain ⟨fragment, hf, hlf⟩ := linked_read bold
  have edited : (read? text).bind (fun tree => (read? bold).bind fun fragment =>
      (tree.replace? 4 fragment).bind fun middle => middle.detach? 1) = some waitingArena := by
    decide +kernel
  rw [ht, hf, Option.bind_some, Option.bind_some] at edited
  obtain ⟨middle, hm, hd⟩ := Option.bind_eq_some_iff.mp edited
  have replaced : (Edit.replace 4 fragment).run? tree = some middle := hm
  have detached : (Edit.detach 1).run? middle = some waitingArena := hd
  have linked : middle.Linked [] := hl.edit (fun found h => by cases h; exact hlf) replaced
  exact (linked.edit (fun _ h => by cases h) detached).sound

/-- The include that is found has the last number. The one before it in the text is in a loop, and
one with a smaller number is not attached. -/
theorem search?_first_include :
    waitingArena.Sound ∧ waitingArena.inOrder? = some [0, 2, 3, 6, 7, 5] ∧
      ∀ turns, 8 ≤ turns →
        waitingArena.search? turns (waitingArena.isOuter? (·.isInclusion)) = some (some 7) ∧
        waitingArena.search? turns (waitingArena.isOuter? (·.isHead)) = some none := by
  obtain ⟨order, ho, _, outer⟩ := search?_first sound_waitingArena
  have walked : waitingArena.inOrder? = some [0, 2, 3, 6, 7, 5] := by decide +kernel
  obtain ⟨found, _, finds, _⟩ := outer (·.isInclusion)
  obtain ⟨missed, _, misses, _⟩ := outer (·.isHead)
  have included : waitingArena.search? 8 (waitingArena.isOuter? (·.isInclusion)) =
      some (some 7) := by decide +kernel
  have noHead : waitingArena.search? 8 (waitingArena.isOuter? (·.isHead)) = some none := by
    decide +kernel
  cases (finds 8 (Nat.le_refl 8)).symm.trans included
  cases (misses 8 (Nat.le_refl 8)).symm.trans noHead
  exact ⟨sound_waitingArena, walked, fun turns h => ⟨finds turns h, misses turns h⟩⟩

end Arena

end MarkupTemplate
