import MarkupTemplate.Proofs.Render.TextDivision
import MarkupTemplate.Proofs.InPlace.ArenaIncludes

namespace MarkupTemplate

/-- The texts of the outermost loops, in order. -/
def Forest.loopTexts : Forest → List Text
  | .nil => []
  | .node content children next =>
    (if content.isElement (·.isLoop) then [(Forest.node content children .nil).markup]
      else if content.showsChildren then children.loopTexts else []) ++ next.loopTexts

/-- The text of a piece that stands apart. -/
def Piece.kept? : Piece → Option Text
  | .markup _ => none
  | .kept text => some text

theorem flatMap_consMarkup (text : Text) (pieces : List Piece) :
    (Piece.consMarkup text pieces).flatMap Piece.text = text ++ pieces.flatMap Piece.text := by
  cases pieces with
  | nil => simp [Piece.consMarkup, Piece.text]
  | cons piece pieces => cases piece <;> simp [Piece.consMarkup, Piece.text]

theorem filterMap_consMarkup (text : Text) (pieces : List Piece) :
    (Piece.consMarkup text pieces).filterMap Piece.kept? = pieces.filterMap Piece.kept? := by
  cases pieces with
  | nil => rfl
  | cons piece pieces => cases piece <;> rfl

/-- The pieces are the text of the forest, and those that stand apart are its outermost loops. -/
theorem Forest.piecesBefore_keptInBody (forest : Forest) (after : List Piece) :
    (forest.piecesBefore keptInBody after).flatMap Piece.text =
        forest.markup ++ after.flatMap Piece.text ∧
      (forest.piecesBefore keptInBody after).filterMap Piece.kept? =
        forest.loopTexts ++ after.filterMap Piece.kept? := by
  induction forest generalizing after with
  | nil => exact ⟨rfl, rfl⟩
  | node content children next ihc ihn =>
    cases hl : content.isElement (·.isLoop) with
    | true =>
      rw [piecesBefore_loop hl, loopTexts, if_pos hl]
      constructor
      · rw [List.flatMap_cons, (ihn after).1, Piece.text, ← List.append_assoc, ← markup_append]
        rfl
      · rw [List.filterMap_cons, Piece.kept?, (ihn after).2]
        rfl
    | false =>
      rw [piecesBefore_other hl, markup_node, loopTexts, hl, flatMap_consMarkup,
        filterMap_consMarkup]
      cases content.showsChildren with
      | true =>
        simp only [if_true, Bool.false_eq_true, if_false, (ihc _).1, (ihc _).2, flatMap_consMarkup,
          filterMap_consMarkup, (ihn after).1, (ihn after).2, List.append_assoc, and_self]
      | false =>
        simp only [Bool.false_eq_true, if_false, (ihn after).1, (ihn after).2, List.append_assoc,
          List.nil_append, and_self]

theorem text_bodyPieces (body : Forest) : (bodyPieces body).flatMap Piece.text = body.markup :=
  (body.piecesBefore_keptInBody []).1.trans (List.append_nil _)

theorem kept_bodyPieces (body : Forest) :
    (bodyPieces body).filterMap Piece.kept? = body.loopTexts :=
  (body.piecesBefore_keptInBody []).2.trans (List.append_nil _)

namespace Arena

variable {tree : Arena} {parent id depth : Nat} {ids all : List Nat} {node : ArenaNode}
  {forest : Forest}

theorem Linked.foldrM_piecesBefore? (h : tree.Linked []) (hl : tree.Lists parent ids forest all)
    (hdepth : ∀ id ∈ all, tree.size ≤ id + depth) (after : List Piece) :
    ids.foldrM (tree.piecesBefore? (·.isElement (·.isLoop)) depth) after =
      some (forest.piecesBefore keptInBody after) := by
  induction hl generalizing depth after with
  | nil => rfl
  | @cons parent id node content rest inner others children next hn hc hp hchildren hnext ihc ihn =>
    obtain ⟨hd, hdepth⟩ := List.forall_mem_cons.mp hdepth
    obtain ⟨depth, rfl, deeper⟩ := exists_deeper hn hd
    have inside : ∀ k ∈ inner, tree.size ≤ k + depth := fun k hk =>
      deeper k (h.lt_of_lists hchildren k hk)
    rw [List.foldrM_cons, ihn fun k hk => hdepth k (List.mem_append_right _ hk),
      Option.bind_eq_bind, Option.bind_some, piecesBefore?, hn, Option.bind_eq_bind,
      Option.bind_some, ArenaNode.isElement_of_content hc]
    cases hloop : content.isElement (·.isLoop) with
    | true =>
      rw [piecesBefore_loop hloop, h.markup?_eq hn hc hp hchildren]
      rfl
    | false =>
      rw [piecesBefore_other hloop, hc]
      simp only [Bool.false_eq_true, if_false]
      cases content.showsChildren with
      | true =>
        rw [if_pos rfl, if_pos rfl, ihc inside]
        rfl
      | false => rfl

/-- The body of a loop has the same pieces in the arena and in the forest. -/
theorem Linked.pieces?_eq (h : tree.Linked []) (hn : tree.node? id = some node)
    (hl : tree.Lists id node.children forest all) :
    tree.pieces? (·.isElement (·.isLoop)) id = some (bodyPieces forest) := by
  have enough : ∀ k ∈ all, tree.size ≤ k + tree.size := fun _ _ => Nat.le_add_left ..
  rw [pieces?, hn, Option.bind_eq_bind, Option.bind_some, h.foldrM_piecesBefore? hl enough]
  rfl

end Arena

end MarkupTemplate
