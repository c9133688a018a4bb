import MarkupTemplate.Markup.Split
import MarkupTemplate.Proofs.Arena.AncestorNodes
import MarkupTemplate.Proofs.Arena.LoopPieces
import Mathlib.Data.List.Chain

namespace MarkupTemplate

namespace Piece

/-- One of two pieces stands apart. -/
def Apart (a b : Piece) : Prop :=
  a.kept?.isSome ∨ b.kept?.isSome

/-- Puts a piece before others. Markup is joined with markup that comes first. -/
def cons : Piece → List Piece → List Piece
  | .markup text, after => consMarkup text after
  | .kept text, after => .kept text :: after

/-- Puts a piece after others. Markup is joined with markup that comes last. -/
def push (pieces : List Piece) : Piece → List Piece
  | .markup text => pushMarkup pieces text
  | .kept text => pieces ++ [.kept text]

variable {piece : Piece} {after : List Piece}

theorem flatMap_cons_text (piece : Piece) (after : List Piece) :
    (cons piece after).flatMap text = piece.text ++ after.flatMap text := by
  cases piece with
  | markup text => exact flatMap_consMarkup text after
  | kept text => rfl

theorem filterMap_cons_kept? (piece : Piece) (after : List Piece) :
    (cons piece after).filterMap kept? = (piece :: after).filterMap kept? := by
  cases piece with
  | markup text => exact filterMap_consMarkup text after
  | kept text => rfl

theorem flatMap_foldr_cons (pieces : List Piece) :
    (pieces.foldr cons []).flatMap text = pieces.flatMap text := by
  induction pieces with
  | nil => rfl
  | cons piece rest ih => rw [List.foldr_cons, flatMap_cons_text, ih, List.flatMap_cons]

theorem filterMap_foldr_cons (pieces : List Piece) :
    (pieces.foldr cons []).filterMap kept? = pieces.filterMap kept? := by
  induction pieces with
  | nil => rfl
  | cons piece rest ih =>
    rw [List.foldr_cons, filterMap_cons_kept?, List.filterMap_cons, List.filterMap_cons, ih]

theorem isChain_cons (h : after.IsChain Apart) : (cons piece after).IsChain Apart := by
  cases piece with
  | kept text => exact List.isChain_cons.mpr ⟨fun _ _ => .inl rfl, h⟩
  | markup text =>
    cases after with
    | nil => exact .singleton _
    | cons next rest =>
      cases next with
      | kept next => exact .cons_cons (.inr rfl) h
      | markup next =>
        obtain ⟨hfirst, hrest⟩ := List.isChain_cons.mp h
        exact List.isChain_cons.mpr ⟨hfirst, hrest⟩

theorem isChain_foldr_cons (pieces : List Piece) : (pieces.foldr cons []).IsChain Apart := by
  induction pieces with
  | nil => exact .nil
  | cons piece rest ih => exact isChain_cons ih

theorem push_cons_cons (first next : Piece) (rest : List Piece) (piece : Piece) :
    push (first :: next :: rest) piece = first :: push (next :: rest) piece := by
  cases piece with
  | kept text => rfl
  | markup text =>
    rw [push, push, pushMarkup, pushMarkup, List.getLast?_cons_cons, List.dropLast_cons_cons]
    split <;> rfl

/-- It makes no difference which end a piece is put in place at first. -/
theorem push_cons (first : Piece) (pieces : List Piece) (piece : Piece) :
    push (cons first pieces) piece = cons first (push pieces piece) := by
  match pieces with
  | [] => cases first <;> cases piece <;> rfl
  | [next] =>
    cases first <;> cases next <;> cases piece <;> simp [cons, consMarkup, push, pushMarkup]
  | next :: other :: rest =>
    rw [push_cons_cons]
    cases first with
    | kept text => rw [cons, cons, push_cons_cons, push_cons_cons]
    | markup text =>
      cases next with
      | kept kept =>
        have (rest : List Piece) : consMarkup text (.kept kept :: rest) =
          .markup text :: .kept kept :: rest := rfl
        rw [cons, cons, this, this, push_cons_cons, push_cons_cons]
      | markup text => rw [cons, cons, consMarkup, consMarkup, push_cons_cons]

theorem push_foldr_cons (pieces : List Piece) (piece : Piece) :
    push (pieces.foldr cons []) piece = pieces.foldr cons (cons piece []) := by
  induction pieces with
  | nil => cases piece <;> rfl
  | cons first rest ih => rw [List.foldr_cons, List.foldr_cons, push_cons, ih]

/-- Putting pieces after each other comes to the same as putting them before each other. -/
theorem foldl_push (pieces : List Piece) : pieces.foldl push [] = pieces.foldr cons [] := by
  induction pieces using List.reverseRecOn with
  | nil => rfl
  | append_singleton init last ih =>
    rw [List.foldl_concat, ih, List.foldr_concat, push_foldr_cons]

end Piece

namespace Arena

/-- Nodes are split into pieces that are not joined yet. The nodes that stand apart are listed. -/
inductive Splits (tree : Arena) (keep : Nat → Bool) : List Nat → List Piece → List Nat → Prop
  | nil : Splits tree keep [] [] []
  | kept {id : Nat} {node : ArenaNode} {text : Text} {rest roots : List Nat} {later : List Piece} :
      tree.node? id = some node → keep id = true → tree.markup? id = some text →
      Splits tree keep rest later roots →
      Splits tree keep (id :: rest) (.kept text :: later) (id :: roots)
  | leaf {id : Nat} {node : ArenaNode} {content : Content} {rest roots : List Nat}
      {later : List Piece} : tree.node? id = some node → keep id = false →
      node.content = some content → content.showsChildren = false →
      Splits tree keep rest later roots →
      Splits tree keep (id :: rest) (.markup content.opening :: later) roots
  | node {id : Nat} {node : ArenaNode} {content : Content} {rest found roots : List Nat}
      {inside later : List Piece} : tree.node? id = some node → keep id = false →
      node.content = some content → content.showsChildren = true →
      Splits tree keep node.children inside found → Splits tree keep rest later roots →
      Splits tree keep (id :: rest)
        (.markup content.opening :: (inside ++ .markup content.closing :: later)) (found ++ roots)

variable {tree : Arena} {keep : Nat → Bool} {parent id depth : Nat} {ids all roots : List Nat}
  {node : ArenaNode} {content : Content} {forest : Forest} {pieces : List Piece}

/-- Nodes that hold a forest can be split. Their text is that of the pieces, and what stands apart
is in the order of the text. -/
theorem Linked.exists_splits (h : tree.Linked []) (keep : Nat → Bool)
    (hl : tree.Lists parent ids forest all) :
    ∃ pieces roots, tree.Splits keep ids pieces roots ∧
      pieces.flatMap Piece.text = forest.markup ∧ roots.Sublist all := by
  induction hl with
  | nil => exact ⟨[], [], .nil, rfl, .slnil⟩
  | @cons parent id node content rest inner others children next hn hc hp hchildren hnext ihc ihn =>
    obtain ⟨later, roots, hlater, htext, hroots⟩ := ihn
    cases hk : keep id with
    | true =>
      refine ⟨_, _, .kept hn hk (h.markup?_eq hn hc hp hchildren) hlater, ?_, ?_⟩
      · rw [List.flatMap_cons, htext, Piece.text, ← Forest.markup_append]
        rfl
      · exact (hroots.trans (List.sublist_append_right ..)).cons_cons id
    | false =>
      rw [Forest.markup_node, ← htext]
      cases hs : content.showsChildren with
      | false =>
        refine ⟨_, _, .leaf hn hk hc hs hlater, by simp [Piece.text], ?_⟩
        exact (hroots.trans (List.sublist_append_right ..)).cons id
      | true =>
        obtain ⟨inside, found, hinside, hin, hfound⟩ := ihc
        refine ⟨_, _, .node hn hk hc hs hinside hlater, ?_, (hfound.append hroots).cons id⟩
        simp [Piece.text, hin]

namespace Splits

/-- What stands apart is the text of the listed nodes, in their order. -/
theorem mapM_markup? (h : tree.Splits keep ids pieces roots) :
    roots.mapM tree.markup? = some (pieces.filterMap Piece.kept?) := by
  induction h with
  | nil => rfl
  | kept _ _ ht _ ih => simp [ht, ih, Piece.kept?]
  | leaf _ _ _ _ _ ih => exact ih
  | node _ _ _ _ _ _ ihc ihn => simp [ihc, ihn, Piece.kept?, List.filterMap_cons]

/-- The listed nodes are those to keep, and the outermost ones below the others. -/
theorem mem_iff (hl : tree.Linked []) (h : tree.Splits keep ids pieces roots) {k : Nat} :
    k ∈ roots ↔ ∃ id ∈ ids,
      keep id = true ∧ k = id ∨ keep id = false ∧ tree.Outermost keep id k := by
  induction h with
  | nil => simp
  | kept _ hk _ _ ih => simp [ih, hk]
  | leaf hn hk hc hs _ ih =>
    have bare := hl.leaf hn (by simp [ArenaNode.takesChildren, hc, hs])
    simp [ih, hk, hl.outermost_iff hn, bare]
  | node hn hk _ _ _ _ ihc ihn =>
    simp [ihn, hk, ihc, hl.outermost_iff hn]

end Splits

/-- The text of a node that shows no children is its own. -/
theorem markup?_of_leaf (hn : tree.node? id = some node) (hc : node.content = some content)
    (hs : content.showsChildren = false) : tree.markup? id = some content.opening := by
  obtain ⟨depth, hsize, _⟩ := exists_deeper hn (Nat.le_add_left ..)
  rw [markup?, hsize, markupBelow?, hn]
  simp [hc, hs]

/-- The walk from left to right puts the pieces after those that there are. -/
theorem Linked.foldlM_splitNode? (h : tree.Linked []) (hs : tree.Splits keep ids pieces roots)
    (hdepth : ∀ id ∈ ids, tree.size ≤ id + depth) (before : List Piece) :
    ids.foldlM (tree.splitNode? keep depth) before = some (pieces.foldl Piece.push before) := by
  induction hs generalizing depth before with
  | nil => rfl
  | kept hn hk ht _ ih =>
    obtain ⟨hd, hdepth⟩ := List.forall_mem_cons.mp hdepth
    obtain ⟨depth, rfl, _⟩ := exists_deeper hn hd
    rw [List.foldlM_cons, splitNode?, if_pos hk, ht]
    exact ih hdepth _
  | leaf hn hk hc hs _ ih =>
    obtain ⟨hd, hdepth⟩ := List.forall_mem_cons.mp hdepth
    obtain ⟨depth, rfl, _⟩ := exists_deeper hn hd
    rw [List.foldlM_cons, splitNode?, hk, markup?_of_leaf hn hc hs, hn]
    simp only [Option.bind_eq_bind, Option.bind_some, hc, Option.filter_some, hs]
    exact ih hdepth _
  | node hn hk hc hs _ _ ihc ihn =>
    obtain ⟨hd, hdepth⟩ := List.forall_mem_cons.mp hdepth
    obtain ⟨depth, rfl, deeper⟩ := exists_deeper hn hd
    have inside := fun k hk => deeper k (h.child hn k hk).1
    rw [List.foldlM_cons, splitNode?, hk, hn]
    simp only [Option.bind_eq_bind, Option.bind_some, hc, Option.filter_some, hs, if_true,
      Bool.false_eq_true, if_false, ihc inside]
    rw [ihn hdepth, List.foldl_cons, List.foldl_append, List.foldl_cons]
    rfl

/-- The pieces before others are the same, put in place from right to left. -/
theorem Linked.foldrM_piecesBefore?_of_splits (h : tree.Linked [])
    (hs : tree.Splits keep ids pieces roots) {property : ArenaNode → Bool}
    (same : ∀ k found, tree.node? k = some found → keep k = property found)
    (hdepth : ∀ id ∈ ids, tree.size ≤ id + depth) (after : List Piece) :
    ids.foldrM (tree.piecesBefore? property depth) after =
      some (pieces.foldr Piece.cons after) := by
  induction hs generalizing depth after with
  | nil => rfl
  | kept hn hk ht _ ih =>
    obtain ⟨hd, hdepth⟩ := List.forall_mem_cons.mp hdepth
    obtain ⟨depth, rfl, _⟩ := exists_deeper hn hd
    rw [List.foldrM_cons, ih hdepth, Option.bind_eq_bind, Option.bind_some, piecesBefore?, hn, ht]
    simp only [Option.bind_eq_bind, Option.bind_some, ← same _ _ hn, hk, if_true]
    rfl
  | leaf hn hk hc hs _ ih =>
    obtain ⟨hd, hdepth⟩ := List.forall_mem_cons.mp hdepth
    obtain ⟨depth, rfl, _⟩ := exists_deeper hn hd
    rw [List.foldrM_cons, ih hdepth, Option.bind_eq_bind, Option.bind_some, piecesBefore?, hn]
    simp only [Option.bind_eq_bind, Option.bind_some, ← same _ _ hn, hk, hc, hs]
    rfl
  | node hn hk hc hs _ _ ihc ihn =>
    obtain ⟨hd, hdepth⟩ := List.forall_mem_cons.mp hdepth
    obtain ⟨depth, rfl, deeper⟩ := exists_deeper hn hd
    have inside := fun k hk => deeper k (h.child hn k hk).1
    rw [List.foldrM_cons, ihn hdepth, Option.bind_eq_bind, Option.bind_some, piecesBefore?, hn]
    simp only [Option.bind_eq_bind, Option.bind_some, ← same _ _ hn, hk, hc, hs, if_true,
      Bool.false_eq_true, if_false, ihc inside]
    rw [List.foldr_cons, List.foldr_append, List.foldr_cons]
    rfl

/-- The nodes are the outermost ones to keep below the top, each once, in the order of the text. -/
structure OutermostInOrder (tree : Arena) (keep : Nat → Bool) (top : Nat) (ids : List Nat) :
    Prop where
  mem (id : Nat) : id ∈ ids ↔ tree.Outermost keep top id
  order : ∃ below, tree.nodesBelow? tree.size top = some (top :: below) ∧ below.Nodup ∧
    ids.Sublist below

/-- Splitting what is below a node loses nothing and joins what it can. The text below the node is
that of the pieces, of two pieces next to each other one stands apart, and those that stand apart
are the outermost nodes to keep, each once, in the order of the text. A walk from right to left
gives the same pieces. -/
theorem splitChildren?_outermost (h : tree.Sound) (hn : tree.node? id = some node)
    (keep : Nat → Bool) :
    ∃ pieces roots, tree.splitChildren? keep id = some pieces ∧
      tree.childrenMarkup? id = some (pieces.flatMap Piece.text) ∧
      pieces.IsChain Piece.Apart ∧
      tree.OutermostInOrder keep id roots ∧
      roots.mapM tree.markup? = some (pieces.filterMap Piece.kept?) ∧
      ∀ property : ArenaNode → Bool,
        (∀ k found, tree.node? k = some found → keep k = property found) →
        tree.pieces? property id = some pieces := by
  have hl := h.linked
  obtain ⟨forest, below, lists⟩ := hl.exists_lists (hl.child hn)
  obtain ⟨parts, roots, splits, htext, hroots⟩ := hl.exists_splits keep lists
  have enough : ∀ k ∈ node.children, tree.size ≤ k + tree.size := fun _ _ => Nat.le_add_left ..
  refine ⟨parts.foldr Piece.cons [], roots, ?_, ?_, ?_, ⟨fun k => ?_, below, ?_, ?_, hroots⟩, ?_,
    fun property same => ?_⟩
  · rw [splitChildren?, hn, Option.bind_eq_bind, Option.bind_some,
      hl.foldlM_splitNode? splits enough, Piece.foldl_push]
  · rw [hl.childrenMarkup?_eq hn lists, Piece.flatMap_foldr_cons, htext]
  · exact Piece.isChain_foldr_cons parts
  · exact (splits.mem_iff hl).trans (hl.outermost_iff hn).symm
  · exact hl.nodesBelow?_eq hn lists
  · exact hl.nodup_of_lists lists (hl.nodup hn)
  · rw [Piece.filterMap_foldr_cons, splits.mapM_markup?]
  · rw [pieces?, hn, Option.bind_eq_bind, Option.bind_some,
      hl.foldrM_piecesBefore?_of_splits splits same enough]

/-- The arena of a list with bold text, one inside the other, beside others and inside another
element. -/
def boldArena : Arena where
  nodes := #[
    { content := none, children := [1] },
    { content := some (.element ⟨"ul".toList, [], .normal⟩), parent := some 0,
      children := [2, 3, 7, 8, 9] },
    { content := some (.text ['a']), parent := some 1 },
    { content := some (.element ⟨['b'], [], .normal⟩), parent := some 1, children := [4, 5] },
    { content := some (.text ['c']), parent := some 3 },
    { content := some (.element ⟨['b'], [], .normal⟩), parent := some 3, children := [6] },
    { content := some (.text ['d']), parent := some 5 },
    { content := some (.text ['e']), parent := some 1 },
    { content := some (.element ⟨"br".toList, [], .void⟩), parent := some 1 },
    { content := some (.element ⟨['i'], [], .normal⟩), parent := some 1, children := [10] },
    { content := some (.element ⟨['b'], [], .normal⟩), parent := some 9, children := [11] },
    { content := some (.text ['f']), parent := some 10 }]

theorem sound_boldArena : boldArena.Sound := by
  let text : Text := "<ul>a<b>c<b>d</b></b>e<br><i><b>f</b></i></ul>".toList
  obtain ⟨tree, ht, hl⟩ := linked_read text
  have read : read? text = some boldArena := by decide +kernel
  cases ht.symm.trans read
  exact hl.sound

/-- The bold text inside bold text does not stand apart, and that inside another element does. -/
theorem splitChildren?_outermost_bold :
    boldArena.Sound ∧ (∃ node, boldArena.node? 1 = some node) ∧ ∃ roots,
      boldArena.splitChildren? (boldArena.isTag ['b']) 1 = some
        [.markup ['a'], .kept "<b>c<b>d</b></b>".toList, .markup "e<br><i>".toList,
          .kept "<b>f</b>".toList, .markup "</i>".toList] ∧
      boldArena.OutermostInOrder (boldArena.isTag ['b']) 1 roots ∧
      roots.mapM boldArena.markup? =
        some ["<b>c<b>d</b></b>".toList, "<b>f</b>".toList] := by
  have hn : boldArena.node? 1 = some
      ⟨some (.element ⟨"ul".toList, [], .normal⟩), false, some 0, [2, 3, 7, 8, 9]⟩ := rfl
  have split : boldArena.splitChildren? (boldArena.isTag ['b']) 1 = some
      [.markup ['a'], .kept "<b>c<b>d</b></b>".toList, .markup "e<br><i>".toList,
        .kept "<b>f</b>".toList, .markup "</i>".toList] := by decide +kernel
  obtain ⟨pieces, roots, hp, _, _, outermost, texts, _⟩ :=
    splitChildren?_outermost sound_boldArena hn (boldArena.isTag ['b'])
  cases split.symm.trans hp
  exact ⟨sound_boldArena, ⟨_, hn⟩, roots, split, outermost, texts⟩

end Arena

end MarkupTemplate
