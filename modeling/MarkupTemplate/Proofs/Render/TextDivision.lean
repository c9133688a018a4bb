import MarkupTemplate.Proofs.Render.IncludeExpansion
import MarkupTemplate.Proofs.Markup.ReadBack
import MarkupTemplate.Proofs.Markup.TextSpelling

namespace MarkupTemplate

namespace Forest

theorem characters_of_append (a b : Text) (next : Forest) :
    characters (a ++ b) next = characters a (characters b next) := by
  induction a with
  | nil => rfl
  | cons c a ih => rw [List.cons_append, characters, characters, ih]

theorem Split.joinText {forest split : Forest} (h : Split forest split) (shown : Text) :
    Split (Forest.joinText shown forest) (characters shown split) := by
  unfold Forest.joinText
  split
  next =>
    cases h with
    | text h =>
      rw [← characters_of_append]
      exact .text h
    | node hc => exact absurd rfl (hc _)
  next =>
    split
    next he =>
      rw [he]
      exact h
    next => exact .text h

theorem markup_characters (shown : Text) (next : Forest) :
    (characters shown next).markup = shown ++ next.markup := by
  induction shown with
  | nil => rfl
  | cons c shown ih => rw [characters, markup_text, ih, List.singleton_append, List.cons_append]

theorem Split.markup {forest split : Forest} (h : Split forest split) :
    split.markup = forest.markup := by
  induction h with
  | nil => rfl
  | text _ ih => rw [markup_characters, ih, markup_text]
  | node _ _ _ ihc ih => rw [markup_node, markup_node, ihc, ih]

theorem boundTemplate?_text (shown : Text) (children next : Forest) (template : Text) :
    boundTemplate? (.node (.text shown) children next) template =
      boundTemplate? next template := rfl

theorem boundTemplate?_characters (shown : Text) (next : Forest) (template : Text) :
    boundTemplate? (characters shown next) template = boundTemplate? next template := by
  induction shown with
  | nil => rfl
  | cons c shown ih => rw [characters, boundTemplate?_text, ih]

theorem Split.boundTemplate? {forest split : Forest} (h : Split forest split) (template : Text) :
    MarkupTemplate.boundTemplate? split template =
      MarkupTemplate.boundTemplate? forest template := by
  induction h generalizing template with
  | nil => rfl
  | text _ ih => rw [boundTemplate?_characters, boundTemplate?_text, ih]
  | @node content _ _ _ _ hc hchildren _ _ ih =>
    cases content with
    | text shown => exact absurd rfl (hc shown)
    | verbatim => exact ih template
    | element e =>
      rw [MarkupTemplate.boundTemplate?, MarkupTemplate.boundTemplate?, hchildren.markup]
      split
      next =>
        cases e.attributes with
        | nil => rfl
        | cons attr attributes => exact ih _
      next => exact ih _

theorem Alike.reply {a b : Forest} (h : Alike a b) (context : Context) (e : Element) :
    context.reply e a = context.reply e b := by
  obtain ⟨split, ha, hb⟩ := h
  simp only [Context.reply, ← ha.boundTemplate?, ← hb.boundTemplate?]

theorem request?_characters (shown : Text) (next : Forest) :
    (characters shown next).request? = next.request? := by
  induction shown with
  | nil => rfl
  | cons c shown ih => exact ih

theorem replaceFirst_characters (shown : Text) (next fragment : Forest) :
    (characters shown next).replaceFirst fragment =
      characters shown (next.replaceFirst fragment) := by
  induction shown with
  | nil => rfl
  | cons c shown ih => exact congrArg (Forest.node (.text [c]) .nil) ih

/-- Both forests ask for the same next, with alike children, or for nothing. -/
inductive SameRequest : Option (Element × Forest) → Option (Element × Forest) → Prop
  | none : SameRequest none none
  | some {e : Element} {a b : Forest} : Split a b → SameRequest (some (e, a)) (some (e, b))

namespace SameRequest

variable {a b c d : Option (Element × Forest)}

theorem exposed (h : SameRequest a b) (content : Content) :
    SameRequest (content.exposed a) (content.exposed b) := by
  unfold Content.exposed
  split
  next => exact .none
  next => exact h

theorem or (h : SameRequest a b) (h' : SameRequest c d) : SameRequest (a.or c) (b.or d) := by
  cases h with
  | none => exact h'
  | some h => exact .some h

theorem isSome (h : SameRequest a b) : a.isSome = b.isSome := by
  cases h <;> rfl

end SameRequest

theorem Split.request? {forest split : Forest} (h : Split forest split) :
    SameRequest forest.request? split.request? := by
  induction h with
  | nil => exact .none
  | text _ ih =>
    rw [request?_characters]
    exact ih
  | @node content children children' next next' hc hchildren _ ihc ih =>
    rw [Forest.request?, Forest.request?]
    cases content.inclusion? with
    | some e => exact .some hchildren
    | none => exact (ihc.exposed content).or ih

theorem Split.replaceFirst {forest split fragment piece : Forest} (h : Split forest split)
    (hf : Split fragment piece) :
    Split (forest.replaceFirst fragment) (split.replaceFirst piece) := by
  induction h with
  | nil => exact .nil
  | text _ ih =>
    rw [replaceFirst_characters]
    exact .text ih
  | @node content children children' next next' hc hchildren hnext ihc ih =>
    have hsame : (content.exposed children.request?).isSome =
        (content.exposed children'.request?).isSome :=
      (hchildren.request?.exposed content).isSome
    rw [Forest.replaceFirst, Forest.replaceFirst, hsame]
    split
    next => exact hf.append hnext
    next =>
      split
      next => exact .node hc ihc hnext
      next => exact .node hc hchildren ih

/-- Alike forests ask for the same include next, with alike children. -/
theorem Alike.request? {a b : Forest} (h : Alike a b) {e : Element} {children : Forest}
    (hr : a.request? = some (e, children)) :
    ∃ others, b.request? = some (e, others) ∧ Alike children others := by
  obtain ⟨split, ha, hb⟩ := h
  have hsa := ha.request?
  have hsb := hb.request?
  rw [hr] at hsa
  generalize split.request? = found at hsa hsb
  cases hsa with
  | some hs =>
    generalize hb' : b.request? = other at hsb
    cases hsb with
    | some ht => exact ⟨_, rfl, _, hs, ht⟩

theorem Alike.request?_eq_none {a b : Forest} (h : Alike a b) (hr : a.request? = none) :
    b.request? = none := by
  cases hb : b.request? with
  | none => rfl
  | some found =>
    obtain ⟨others, ho, _⟩ := h.symm.request? hb
    cases hr.symm.trans ho

theorem links_characters (rest : Forest) (shown : Text) (next : Forest) :
    links rest (characters shown next) =
      if isBlankText shown then links rest next else ([], rest) := by
  induction shown with
  | nil => rfl
  | cons c shown ih =>
    rw [characters, links, ih]
    cases hc : MarkupTemplate.isBlank c <;> simp [isBlankText, hc]

/-- The branches hold or not as the others do, and their children are related. -/
inductive Branchwise (model : Model) (R : Forest → Forest → Prop) :
    List Branch → List Branch → Prop
  | nil : Branchwise model R [] []
  | cons {e e' : Element} {children children' : Forest} {branches branches' : List Branch} :
      (e'.verdict model).1 = (e.verdict model).1 → R children children' →
      Branchwise model R branches branches' →
      Branchwise model R (⟨e, children⟩ :: branches) (⟨e', children'⟩ :: branches')

theorem Branchwise.choose {model : Model} {R : Forest → Forest → Prop}
    {branches branches' : List Branch} (h : Branchwise model R branches branches')
    (hn : R .nil .nil) : R (choose model branches).1 (choose model branches').1 := by
  induction h with
  | nil => exact hn
  | cons hv hs _ ih =>
    rw [choose_cons, choose_cons, hv]
    split
    next => exact hs
    next => exact ih

theorem Split.links (model : Model) {rest rest' forest split : Forest} (hr : Split rest rest')
    (h : Split forest split) :
    Branchwise model Split (links rest forest).1 (links rest' split).1 ∧
      Split (MarkupTemplate.links rest forest).2 (MarkupTemplate.links rest' split).2 := by
  induction h generalizing rest rest' with
  | nil => exact ⟨.nil, hr⟩
  | text _ ih =>
    rw [links_characters, MarkupTemplate.links]
    split
    next => exact ih hr
    next => exact ⟨.nil, hr⟩
  | @node content _ _ _ _ hc hchildren hnext _ ih =>
    cases content with
    | text shown => exact absurd rfl (hc shown)
    | verbatim => exact ⟨.nil, hr⟩
    | element e =>
      rw [MarkupTemplate.links, MarkupTemplate.links]
      split
      next =>
        split
        next => exact ⟨.cons rfl hchildren .nil, hnext⟩
        next =>
          obtain ⟨hbranches, hrest⟩ := ih hnext
          exact ⟨.cons rfl hchildren hbranches, hrest⟩
      next => exact ⟨.nil, hr⟩

theorem resolveChains_nil (model : Model) : (resolveChains model .nil).1 = .nil := by
  rw [resolveChains]

theorem resolveChains_characters (model : Model) (shown : Text) (next : Forest) :
    (resolveChains model (characters shown next)).1 =
      characters shown (resolveChains model next).1 := by
  induction shown with
  | nil => rfl
  | cons c shown ih =>
    rw [characters, resolveChains_other rfl rfl, ih, resolveChains_nil, characters]

theorem Split.resolveChains {forest split : Forest} (h : Split forest split) (model : Model) :
    Split (resolveChains model forest).1 (resolveChains model split).1 := by
  fun_induction MarkupTemplate.resolveChains model forest generalizing split with
  | case1 =>
    cases h
    rw [resolveChains_nil]
    exact .nil
  | case2 content children next element hh chain chosen rest =>
    rename_i ih
    cases h with
    | text => cases hh
    | node hc hchildren hnext =>
      rw [resolveChains_head hh]
      obtain ⟨hbranches, hrest⟩ := hnext.links model hnext
      have hchosen := (Branchwise.cons (e := element) rfl hchildren hbranches).choose .nil
      exact ih (hchosen.append hrest)
  | case3 content children next hh hl rest =>
    rename_i ih
    cases h with
    | text => cases hl
    | node hc hchildren hnext =>
      rw [resolveChains_loop hh hl]
      exact .node hc hchildren (ih hnext)
  | case4 content children next hh hl inside rest =>
    rename_i ihc ih
    cases h with
    | text hnext =>
      rw [resolveChains_characters]
      have hinside : inside.1 = .nil := resolveChains_nil model
      rw [hinside]
      exact .text (ih hnext)
    | node hc hchildren hnext =>
      rw [resolveChains_other hh (by simpa using hl)]
      exact .node hc (ihc hchildren) (ih hnext)

end Forest

theorem consMarkup_consMarkup (a b : Text) (pieces : List Piece) :
    Piece.consMarkup a (Piece.consMarkup b pieces) = Piece.consMarkup (a ++ b) pieces := by
  cases pieces with
  | nil => rfl
  | cons piece pieces =>
    cases piece with
    | markup text => rw [Piece.consMarkup, Piece.consMarkup, Piece.consMarkup, List.append_assoc]
    | kept text => rfl

theorem iterationText_consMarkup_nil (model : Model) (pieces : List Piece) :
    iterationText model (Piece.consMarkup [] pieces) = iterationText model pieces := by
  have empty : substitute model [] = [] := by simp [substitute, fragments]
  cases pieces with
  | nil => simp [Piece.consMarkup, iterationText, empty]
  | cons piece pieces =>
    cases piece with
    | markup text => rfl
    | kept text => simp [Piece.consMarkup, iterationText, empty]

/-- The pieces make up the same text of an iteration, whatever markup comes before them. -/
def SamePieces (model : Model) (a b : List Piece) : Prop :=
  ∀ text, iterationText model (Piece.consMarkup text a) =
    iterationText model (Piece.consMarkup text b)

namespace SamePieces

variable {model : Model} {a b : List Piece}

theorem consMarkup (h : SamePieces model a b) (text : Text) :
    SamePieces model (Piece.consMarkup text a) (Piece.consMarkup text b) := by
  intro before
  rw [consMarkup_consMarkup, consMarkup_consMarkup]
  exact h _

theorem iterationText (h : SamePieces model a b) :
    iterationText model a = iterationText model b := by
  have same := h []
  rwa [iterationText_consMarkup_nil, iterationText_consMarkup_nil] at same

theorem kept (h : SamePieces model a b) (text : Text) :
    SamePieces model (.kept text :: a) (.kept text :: b) := by
  intro before
  change substitute model before ++ (text ++ MarkupTemplate.iterationText model a) =
    substitute model before ++ (text ++ MarkupTemplate.iterationText model b)
  rw [h.iterationText]

end SamePieces

/-- A node that stays as it is in the body of a loop. -/
def keptInBody (content : Content) (_ : Forest) : Bool :=
  content.isElement (·.isLoop)

theorem piecesBefore_loop {content : Content} (h : content.isElement (·.isLoop) = true)
    (children next : Forest) (after : List Piece) :
    (Forest.node content children next).piecesBefore keptInBody after =
      .kept (Forest.node content children .nil).markup ::
        next.piecesBefore keptInBody after := by
  rw [Forest.piecesBefore, keptInBody, if_pos h]

theorem piecesBefore_other {content : Content} (h : content.isElement (·.isLoop) = false)
    (children next : Forest) (after : List Piece) :
    (Forest.node content children next).piecesBefore keptInBody after =
      Piece.consMarkup content.opening
        (if content.showsChildren then
          children.piecesBefore keptInBody
            (Piece.consMarkup content.closing (next.piecesBefore keptInBody after))
        else next.piecesBefore keptInBody after) := by
  rw [Forest.piecesBefore, keptInBody, if_neg (by rw [h]; exact Bool.false_ne_true)]

theorem piecesBefore_text (shown : Text) (children next : Forest) (after : List Piece) :
    (Forest.node (.text shown) children next).piecesBefore keptInBody after =
      Piece.consMarkup shown (next.piecesBefore keptInBody after) := rfl

theorem piecesBefore_characters {model : Model} (shown : Text) (next : Forest)
    (after : List Piece) :
    SamePieces model (Piece.consMarkup shown (next.piecesBefore keptInBody after))
      ((Forest.characters shown next).piecesBefore keptInBody after) := by
  induction shown with
  | nil =>
    intro text
    rw [consMarkup_consMarkup, List.append_nil]
    rfl
  | cons c shown ih =>
    intro text
    rw [Forest.characters, piecesBefore_text, consMarkup_consMarkup, consMarkup_consMarkup, ← ih,
      consMarkup_consMarkup]
    simp

theorem Forest.Split.pieces {model : Model} {forest split : Forest} (h : Split forest split)
    {a b : List Piece} (hp : SamePieces model a b) :
    SamePieces model (forest.piecesBefore keptInBody a) (split.piecesBefore keptInBody b) := by
  induction h generalizing a b with
  | nil => exact hp
  | text _ ih =>
    intro before
    rw [← piecesBefore_characters, piecesBefore_text]
    exact (ih hp).consMarkup _ before
  | @node content children children' next next' hc hchildren _ ihc ih =>
    cases hl : content.isElement (·.isLoop) with
    | true =>
      have hm := (Split.node hc hchildren .nil).markup
      rw [piecesBefore_loop hl, piecesBefore_loop hl, hm]
      exact (ih hp).kept _
    | false =>
      rw [piecesBefore_other hl, piecesBefore_other hl]
      apply SamePieces.consMarkup
      split
      next => exact ihc ((ih hp).consMarkup _)
      next => exact ih hp

theorem Forest.Alike.iterationText {a b : Forest} (h : Alike a b) (model : Model) :
    iterationText model (bodyPieces a) = iterationText model (bodyPieces b) := by
  obtain ⟨split, ha, hb⟩ := h
  have none : SamePieces model [] [] := fun _ => rfl
  exact (ha.pieces none).iterationText.trans (hb.pieces none).iterationText.symm

end MarkupTemplate
