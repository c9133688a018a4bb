import MarkupTemplate.Proofs.Markup.BuilderSteps
import MarkupTemplate.Proofs.Markup.WholeTokens

namespace MarkupTemplate

namespace Forest

/-- The characters of a text, each a node of its own, before a forest. -/
def characters : Text → Forest → Forest
  | [], next => next
  | c :: shown, next => .node (.text [c]) .nil (characters shown next)

/-- The second forest is the first one with its texts divided into characters. -/
inductive Split : Forest → Forest → Prop
  | nil : Split .nil .nil
  | text {shown : Text} {next next' : Forest} :
      Split next next' → Split (.node (.text shown) .nil next) (characters shown next')
  | node {content : Content} {children children' next next' : Forest} :
      (∀ shown, content ≠ .text shown) → Split children children' → Split next next' →
      Split (.node content children next) (.node content children' next')

theorem characters_append (shown : Text) (a b : Forest) :
    characters shown a ++ b = characters shown (a ++ b) := by
  induction shown with
  | nil => rfl
  | cons c shown ih => rw [characters, characters, node_append, ih]

theorem Split.withCharacters {next next' : Forest} (h : Split next next') (shown : Text) :
    Split (characters shown next) (characters shown next') := by
  induction shown with
  | nil => exact h
  | cons c shown ih => exact .text ih

namespace Split

variable {a b s t : Forest}

theorem append (ha : Split a s) (hb : Split b t) : Split (a ++ b) (s ++ t) := by
  induction ha with
  | nil => exact hb
  | text _ ih =>
    rw [node_append, characters_append]
    exact .text ih
  | node hc hchildren _ _ ih => exact .node hc hchildren ih

theorem unique (hs : Split a s) (ht : Split a t) : s = t := by
  induction hs generalizing t with
  | nil =>
    cases ht
    rfl
  | text _ ih =>
    cases ht with
    | text h => rw [ih h]
    | node hc => exact absurd rfl (hc _)
  | node hc _ _ ihc ih =>
    cases ht with
    | text => exact absurd rfl (hc _)
    | node _ hchildren hnext => rw [ihc hchildren, ih hnext]

theorem self (h : Split a s) : Split s s := by
  induction h with
  | nil => exact .nil
  | text _ ih => exact ih.withCharacters _
  | node hc _ _ ihc ih => exact .node hc ihc ih

end Split

/-- The forests differ at most in how their texts are divided. -/
def Alike (a b : Forest) : Prop :=
  ∃ split, Split a split ∧ Split b split

namespace Alike

variable {a b c d : Forest}

theorem symm (h : Alike a b) : Alike b a := by
  obtain ⟨split, ha, hb⟩ := h
  exact ⟨split, hb, ha⟩

end Alike

theorem Split.alike {a s : Forest} (h : Split a s) : Alike a s :=
  ⟨s, h, h.self⟩

end Forest

namespace Builder

/-- The second builder has taken the same tokens with texts in single characters. -/
inductive Split : Builder → Builder → Prop
  | top {nodes nodes' : Forest} {warnings : List Warning} :
      nodes.reverse.Split nodes'.reverse → Split ⟨nodes, [], warnings⟩ ⟨nodes', [], warnings⟩
  | level {nodes nodes' before before' : Forest} {e : Element}
      {around around' : List OpenElement} {warnings : List Warning} :
      nodes.reverse.Split nodes'.reverse →
      Split ⟨before, around, warnings⟩ ⟨before', around', warnings⟩ →
      Split ⟨nodes, ⟨e, before⟩ :: around, warnings⟩ ⟨nodes', ⟨e, before'⟩ :: around', warnings⟩

namespace Split

variable {a b : Builder}

theorem nodes (h : Split a b) : a.nodes.reverse.Split b.nodes.reverse := by
  cases h with
  | top h => exact h
  | level h => exact h

theorem setNodes (h : Split a b) {nodes nodes' : Forest} (hn : nodes.reverse.Split nodes'.reverse) :
    Split { a with nodes } { b with nodes := nodes' } := by
  cases h with
  | top => exact .top hn
  | level _ h => exact .level hn h

theorem put (h : Split a b) {content : Content} (hc : ∀ shown, content ≠ .text shown)
    {children children' : Forest} (hs : children.Split children') :
    Split { a with nodes := .node content children a.nodes }
      { b with nodes := .node content children' b.nodes } := by
  apply h.setNodes
  rw [Forest.reverse_node, Forest.reverse_node]
  exact h.nodes.append (.node hc hs .nil)

theorem names (h : Split a b) : a.around.map (·.element) = b.around.map (·.element) := by
  induction h with
  | top => rfl
  | level _ _ ih => exact congrArg (List.cons _) ih

theorem warn (h : Split a b) (warning : Warning) : Split (a.warn warning) (b.warn warning) := by
  induction h with
  | top h => exact .top h
  | level h _ ih => exact .level h ih

theorem enter (h : Split a b) (e : Element) : Split (a.enter e) (b.enter e) := by
  have empty : (Forest.nil).reverse.Split (Forest.nil).reverse := .nil
  cases h with
  | top h => exact .level empty (.top h)
  | level hn h => exact .level empty (.level hn h)

theorem leave (h : Split a b) : Split (a.leave 1) (b.leave 1) := by
  have element (e : Element) : ∀ shown, Content.element e ≠ .text shown := by
    intro shown he
    cases he
  cases h with
  | top h => exact .top h
  | level hn h => exact h.put (element _) hn

theorem keeps : Keeps Split where
  names := names
  warn h := h.warn _
  add hc h := h.put hc .nil
  enter h := h.enter _
  leave := leave

end Split

theorem foldl_characters (shown : Text) (builder : Builder) :
    (shown.map fun c => Token.text [c]).foldl step builder =
      { builder with nodes := (Forest.characters shown .nil).reverse ++ builder.nodes } := by
  induction shown generalizing builder with
  | nil => rfl
  | cons c shown ih =>
    rw [List.map_cons, List.foldl_cons, ih, Forest.characters, Forest.reverse_node,
      Forest.append_assoc]
    rfl

theorem Split.step {a b : Builder} (h : Split a b) (token : Token) :
    Split (a.step token) (token.spelled.foldl Builder.step b) := by
  cases token with
  | text shown =>
    rw [Token.spelled, foldl_characters]
    apply h.setNodes
    rw [Forest.reverse_append, Forest.reverse_reverse, Forest.reverse_node]
    exact h.nodes.append (.text .nil)
  | comment | declaration | opening | closing =>
    exact Split.keeps.step h fun shown he => by cases he

theorem Split.foldl {a b : Builder} (h : Split a b) (tokens : List Token) :
    Split (tokens.foldl Builder.step a) ((spell tokens).foldl Builder.step b) := by
  induction tokens generalizing a b with
  | nil => exact h
  | cons token tokens ih =>
    rw [spell_cons, List.foldl_append]
    exact ih (h.step token)

theorem Split.finish {a b : Builder} (h : Split a b) : a.finish.1.Split b.finish.1 := by
  have hlen := congrArg List.length h.names
  rw [List.length_map, List.length_map] at hlen
  rw [finish_forest, finish_forest, hlen]
  exact (Split.keeps.leaveMany h _).nodes

end Builder

/-- Tokens that differ at most in how texts are divided build alike forests. -/
theorem Forest.alike_of_spell {tokens others : List Token} (h : spell tokens = spell others) :
    Alike (tokens.foldl Builder.step {}).finish.1 (others.foldl Builder.step {}).finish.1 := by
  have empty : Builder.Split {} {} := .top .nil
  exact ⟨_, (empty.foldl tokens).finish, h ▸ (empty.foldl others).finish⟩

theorem Forest.alike_readForest (text : Text) : Alike (readForest text).1 (readForest text).1 :=
  alike_of_spell rfl

end MarkupTemplate
