import MarkupTemplate.Proofs.Arena.HeldForest
import MarkupTemplate.Proofs.Markup.TokenSpans

namespace MarkupTemplate

/-- What the node of a token is. An end tag makes none. -/
def Token.content? : Token → Option Content
  | .text shown => some (.text shown)
  | .comment source => some (.verbatim source)
  | .declaration source => some (.verbatim source)
  | .opening name attributes selfClosing =>
    some (.element ⟨name, attributes,
      if selfClosing then .selfClosed else if isVoidName name then .void else .normal⟩)
  | .closing _ => none

/-- An element whose end tag is still to come: the number of its node, and its name. -/
structure OpenTag where
  number : Nat
  name : Text

/-- An end tag closes the nearest open element of its name and all inside it, or nothing. -/
def closeNearest (name : Text) (opened : List OpenTag) : List OpenTag :=
  if opened.any (sameName ·.name name) then (opened.dropWhile (!sameName ·.name name)).tail
  else opened

/-- The open elements after a token, where the next node has the number. -/
def Token.openAfter (number : Nat) (opened : List OpenTag) : Token → List OpenTag
  | .opening name _ selfClosing =>
    if selfClosing || isVoidName name then opened else ⟨number, name⟩ :: opened
  | .closing name => closeNearest name opened
  | _ => opened

/-- The number of the node after those of tokens. The document has the number zero. -/
def nextNumber (tokens : List Token) : Nat :=
  (tokens.filterMap Token.content?).length + 1

/-- The elements that are open after more tokens, innermost first. -/
def openFrom (number : Nat) (opened : List OpenTag) : List Token → List OpenTag
  | [] => opened
  | token :: rest =>
    openFrom (number + token.content?.toList.length) (token.openAfter number opened) rest

/-- The elements that are open after tokens, innermost first. -/
def openTags (tokens : List Token) : List OpenTag :=
  openFrom 1 [] tokens

/-- The number of the innermost open element, or of the document if none is open. -/
def innermost (opened : List OpenTag) : Nat :=
  (opened.head?.map OpenTag.number).getD 0

/-- Each of the tokens has the property, with the tokens before it. -/
def EachToken (property : List Token → Token → Prop) (tokens : List Token) : Prop :=
  ∀ before token later, tokens = before ++ token :: later → property before token

/-- Every end tag has the name of the innermost element that is open before it. -/
def EndsInnermost : List Token → Prop :=
  EachToken fun before token => ∀ name, token = .closing name →
    ∃ tag ∈ (openTags before).head?, sameName tag.name name = true

section Tokens

variable {property : List Token → Token → Prop} {done tokens : List Token} {token : Token}
  {name : Text} {opened : List OpenTag}

theorem eachToken_nil : EachToken property [] := fun before _ _ h => by simp at h

theorem eachToken_concat :
    EachToken property (done ++ [token]) ↔ EachToken property done ∧ property done token := by
  constructor
  · refine fun h => ⟨fun before found later he => ?_, h done token [] rfl⟩
    exact h before found (later ++ [token]) (by simp [he])
  · rintro ⟨hdone, hlast⟩ before found later he
    rcases List.eq_nil_or_concat later with rfl | ⟨inner, last, rfl⟩
    · obtain ⟨rfl, hsame⟩ := List.append_inj' he rfl
      obtain rfl := (List.cons.inj hsame).1
      exact hlast
    · rw [List.concat_eq_append, ← List.cons_append, ← List.append_assoc] at he
      exact hdone before found inner (List.append_inj' he rfl).1

theorem openFrom_append (number : Nat) (opened : List OpenTag) (tokens later : List Token) :
    openFrom number opened (tokens ++ later) =
      openFrom (number + (tokens.filterMap Token.content?).length) (openFrom number opened tokens)
        later := by
  induction tokens generalizing number opened with
  | nil => rfl
  | cons token rest ih =>
    rw [List.cons_append, openFrom, ih, openFrom, List.filterMap_cons]
    cases token.content? with
    | none => rfl
    | some content => simp [Nat.add_assoc, Nat.add_comm 1]

theorem openTags_concat (done : List Token) (token : Token) :
    openTags (done ++ [token]) = token.openAfter (nextNumber done) (openTags done) := by
  rw [openTags, openFrom_append, Nat.add_comm 1]
  rfl

theorem nextNumber_concat (done : List Token) (token : Token) :
    nextNumber (done ++ [token]) = nextNumber done + token.content?.toList.length := by
  rw [nextNumber, nextNumber, List.filterMap_append, List.length_append]
  cases h : token.content? with
  | none => simp [h]
  | some content => simp [h]

/-- A token that makes a node is no end tag. -/
theorem endsInnermost_concat_node {content : Content} (h : token.content? = some content) :
    EndsInnermost (done ++ [token]) ↔ EndsInnermost done := by
  refine eachToken_concat.trans ⟨fun both => both.1, fun hdone => ⟨hdone, fun name he => ?_⟩⟩
  rw [he] at h
  cases h

theorem endsInnermost_concat_end :
    EndsInnermost (done ++ [.closing name]) ↔
      EndsInnermost done ∧ ∃ tag ∈ (openTags done).head?, sameName tag.name name = true := by
  refine eachToken_concat.trans (and_congr_right fun _ => ⟨fun h => h name rfl, ?_⟩)
  rintro h other he
  cases he
  exact h

theorem closeNearest_of_findIdx? {others : Nat}
    (h : opened.findIdx? (sameName ·.name name) = some others) :
    closeNearest name opened = opened.drop (others + 1) := by
  have found : opened.any (sameName ·.name name) = true := by rw [← List.findIdx?_isSome, h]; rfl
  have first := (List.findIdx?_eq_some_iff_findIdx_eq.mp h).2
  rw [closeNearest, if_pos found, List.dropWhile_eq_drop_findIdx_not, List.tail_drop]
  simp only [Bool.not_not, first]

theorem closeNearest_of_none (h : opened.findIdx? (sameName ·.name name) = none) :
    closeNearest name opened = opened := by
  have missing : opened.any (sameName ·.name name) = false := by
    rw [← List.findIdx?_isSome, h]
    rfl
  rw [closeNearest, missing, if_neg Bool.false_ne_true]

/-- The innermost element has the name of the end tag exactly if no others are closed with it. -/
theorem exists_head_iff :
    (∃ tag ∈ opened.head?, sameName tag.name name = true) ↔
      opened.findIdx? (sameName ·.name name) = some 0 := by
  cases opened with
  | nil => simp
  | cons tag rest => cases h : sameName tag.name name <;> simp [List.findIdx?_cons, h]

end Tokens

namespace Arena

/-- The nodes from a node down in the order of the text, a node before its children. -/
def nodesBelow? (tree : Arena) : Nat → Nat → Option (List Nat)
  | 0, _ => none
  | depth + 1, id => do
    let node ← tree.node? id
    return id :: (← node.children.mapM (nodesBelow? tree depth)).flatten

/-- All attached nodes in the order of the text, the document first. -/
def inOrder? (tree : Arena) : Option (List Nat) :=
  tree.nodesBelow? tree.size 0

/-- Each token before has made its node, under the element that was the innermost one then. -/
def HasNodes (tree : Arena) : List Token → Prop :=
  EachToken fun before token => ∀ content, token.content? = some content →
    ∃ children, tree.node? (nextNumber before) =
      some ⟨some content, false, some (innermost (openTags before)), children⟩

/-- Nodes next to each other with all below them have all numbers up to a last one, in the order of
the text. -/
inductive Numbered (tree : Arena) : List Nat → Nat → Nat → Prop
  | nil {number : Nat} : Numbered tree [] number number
  | cons {id middle last : Nat} {node : ArenaNode} {rest : List Nat} :
      tree.node? id = some node → Numbered tree node.children (id + 1) middle →
      Numbered tree rest middle last → Numbered tree (id :: rest) id last

/-- The children that a node has so far are numbered up to its last child if that is open, or up to
the last node. -/
def Rung (tree : Arena) (child : Option Nat) (id : Nat) : Prop :=
  ∃ node ids, tree.node? id = some node ∧ node.children = ids ++ child.toList ∧
    tree.Numbered ids (id + 1) (child.getD tree.size)

/-- Each open element is the last child of the next one. -/
inductive Trail (tree : Arena) : Option Nat → List Nat → Prop
  | document {child : Option Nat} : tree.Rung child 0 → Trail tree child []
  | element {child : Option Nat} {id : Nat} {opened : List Nat} : tree.Rung child id →
      Trail tree (some id) opened → Trail tree child (id :: opened)

variable {tree after : Arena} {child : Option Nat} {id parent first middle last number : Nat}
  {ids rest opened : List Nat} {node : ArenaNode} {content : Content} {token : Token}
  {tokens done : List Token}

namespace Numbered

theorem le (h : tree.Numbered ids first last) : first ≤ last := by
  induction h with
  | nil => exact Nat.le_refl _
  | cons _ _ _ ihc ihn => exact Nat.le_trans (Nat.le_of_succ_le ihc) ihn

theorem append (h : tree.Numbered ids first middle) (h' : tree.Numbered rest middle last) :
    tree.Numbered (ids ++ rest) first last := by
  induction h with
  | nil => exact h'
  | cons hn hchildren _ _ ih => exact .cons hn hchildren (ih h')

/-- Only the nodes of these numbers matter. -/
theorem frame (h : tree.Numbered ids first last)
    (hsame : ∀ k, first ≤ k → k < last → after.node? k = tree.node? k) :
    after.Numbered ids first last := by
  induction h with
  | nil => exact .nil
  | cons hn hchildren hrest ihc ihn =>
    have hlt := hchildren.le
    have hle := hrest.le
    refine .cons ((hsame _ (Nat.le_refl _) (by omega)).trans hn) (ihc fun k hk hk' => ?_)
      (ihn fun k hk hk' => ?_)
    · exact hsame k (by omega) (by omega)
    · exact hsame k (by omega) (by omega)

/-- Walking down numbered nodes gives the numbers one after the other. -/
theorem mapM_nodesBelow? {depth : Nat} (h : tree.Numbered ids first last)
    (hdepth : tree.size ≤ first + depth) :
    ∃ found, ids.mapM (tree.nodesBelow? depth) = some found ∧
      found.flatten = List.range' first (last - first) := by
  induction h generalizing depth with
  | nil => exact ⟨[], rfl, by simp⟩
  | @cons id middle last node rest hn hchildren hrest ihc ihn =>
    have hmiddle := hchildren.le
    have hlast := hrest.le
    obtain ⟨depth, rfl, deeper⟩ := exists_deeper hn hdepth
    have behind : tree.size ≤ middle + (depth + 1) := by omega
    obtain ⟨inner, hi, hinner⟩ := ihc (deeper _ (Nat.lt_succ_self id))
    obtain ⟨others, ho, hothers⟩ := ihn behind
    refine ⟨(id :: inner.flatten) :: others, ?_, ?_⟩
    · rw [List.mapM_cons, nodesBelow?, hn, ho]
      simp only [Option.bind_eq_bind, Option.bind_some, hi]
      rfl
    · obtain ⟨below, rfl⟩ := Nat.exists_eq_add_of_le hmiddle
      obtain ⟨later, rfl⟩ := Nat.exists_eq_add_of_le hlast
      have whole : id + 1 + below + later - id = below + later + 1 := by omega
      rw [List.flatten_cons, hinner, hothers, Nat.add_sub_cancel_left, Nat.add_sub_cancel_left,
        whole, List.range'_succ, ← List.range'_append_1, List.cons_append]

end Numbered

/-- A new node comes last, or is open. -/
theorem Rung.appended (h : tree.Rung none id) (hn : tree.node? id = some node)
    (ha : Appended tree after id node content) :
    after.Rung none id ∧ after.Rung (some tree.size) id := by
  obtain ⟨same, ids, hs, hids, hnumbered⟩ := h
  cases hn.symm.trans hs
  rw [Option.toList_none, List.append_nil] at hids
  have old : after.Numbered ids (id + 1) tree.size :=
    hnumbered.frame fun k hk hlt => ha.old hlt (by omega)
  have new : after.Numbered [tree.size] tree.size after.size := by
    rw [ha.size]
    exact .cons ha.new .nil .nil
  exact ⟨⟨_, ids ++ [tree.size], ha.owner, by simp [hids], old.append new⟩,
    ⟨_, ids, ha.owner, by simp [hids], old⟩⟩

theorem Rung.fresh (ha : Appended tree after parent node content) : after.Rung none tree.size :=
  ⟨_, [], ha.new, rfl, ha.size ▸ .nil⟩

/-- Closing the last child of a node. -/
theorem Rung.close (h : tree.Rung (some id) parent) (h' : tree.Rung none id) :
    tree.Rung none parent := by
  obtain ⟨owner, ids, ho, hids, hnumbered⟩ := h
  obtain ⟨node, below, hn, hbelow, hnumbered'⟩ := h'
  rw [Option.toList_none, List.append_nil] at hbelow
  refine ⟨owner, ids ++ [id], ho, by simp [hids], hnumbered.append (.cons hn ?_ .nil)⟩
  rw [hbelow]
  exact hnumbered'

theorem Rung.lt (h : tree.Rung child id) : id < child.getD tree.size := by
  obtain ⟨_, _, _, _, hnumbered⟩ := h
  exact hnumbered.le

/-- Only what stands before the open child matters. -/
theorem Trail.frame (h : tree.Trail child opened)
    (hlimit : child.getD after.size = child.getD tree.size)
    (hsame : ∀ k < child.getD tree.size, after.node? k = tree.node? k) :
    after.Trail child opened := by
  have rung {child : Option Nat} {id : Nat} (h : tree.Rung child id)
      (hlimit : child.getD after.size = child.getD tree.size)
      (hsame : ∀ k < child.getD tree.size, after.node? k = tree.node? k) : after.Rung child id := by
    have hlt := h.lt
    obtain ⟨node, ids, hn, hids, hnumbered⟩ := h
    exact ⟨node, ids, (hsame id hlt).trans hn, hids,
      hlimit ▸ hnumbered.frame fun k _ hk => hsame k hk⟩
  induction h with
  | document h => exact .document (rung h hlimit hsame)
  | element h _ ih =>
    exact .element (rung h hlimit hsame) (ih rfl fun k hk => hsame k (Nat.lt_trans hk h.lt))

/-- A new node in the innermost open element, closed or open. -/
theorem Trail.appended (h : tree.Trail none opened)
    (hn : tree.node? (opened.head?.getD 0) = some node)
    (ha : Appended tree after (opened.head?.getD 0) node content) :
    after.Trail none opened ∧ after.Trail none (tree.size :: opened) := by
  have fresh := Rung.fresh ha
  cases h with
  | document h =>
    obtain ⟨closed, entered⟩ := h.appended hn ha
    exact ⟨.document closed, .element fresh (.document entered)⟩
  | @element _ id opened h outer =>
    obtain ⟨closed, entered⟩ := h.appended hn ha
    have hlt := h.lt
    have same : after.Trail (some id) opened := outer.frame rfl fun k hk =>
      ha.old (Nat.lt_trans hk hlt) (Nat.ne_of_gt hk)
    exact ⟨.element closed same, .element fresh (.element entered same)⟩

theorem Trail.current (h : tree.Trail child opened) :
    ∃ node, tree.node? (opened.head?.getD 0) = some node := by
  cases h with
  | document h =>
    obtain ⟨node, _, hn, _⟩ := h
    exact ⟨node, hn⟩
  | element h =>
    obtain ⟨node, _, hn, _⟩ := h
    exact ⟨node, hn⟩

theorem Trail.leave (h : tree.Trail none opened) (count : Nat) :
    tree.Trail none (opened.drop count) := by
  induction count generalizing opened with
  | zero => exact h
  | succ count ih =>
    cases h with
    | document h => exact .document h
    | element h outer =>
      cases outer with
      | document h' => exact ih (.document (h'.close h))
      | element h' outer => exact ih (.element (h'.close h) outer)

/-- If nothing is open, all nodes are numbered in the order of the text. -/
theorem Trail.inOrder? (h : tree.Trail none []) : tree.inOrder? = some (List.range tree.size) := by
  cases h with
  | document h =>
    obtain ⟨node, ids, hn, hids, hnumbered⟩ := h
    rw [Option.toList_none, List.append_nil] at hids
    obtain ⟨depth, hsize, deeper⟩ := exists_deeper hn (Nat.le_add_left ..)
    obtain ⟨found, hf, hflat⟩ := hnumbered.mapM_nodesBelow? (deeper _ Nat.zero_lt_one)
    rw [Arena.inOrder?, hsize, nodesBelow?, hn]
    simp only [Option.bind_eq_bind, Option.bind_some, hids, hf, hflat]
    rw [Option.getD_none, hsize, List.range_eq_range', List.range'_succ]
    rfl

/-- Of the nodes that there are only the parent changes, and only its children. -/
theorem Appended.kept {k : Nat} {found : ArenaNode}
    (ha : Appended tree after parent node content) (hn : tree.node? parent = some node)
    (hk : tree.node? k = some found) :
    ∃ children, after.node? k = some { found with children } := by
  by_cases he : parent = k
  · subst he
    cases hn.symm.trans hk
    exact ⟨_, ha.owner⟩
  · exact ⟨found.children, (ha.old (lt_of_node? hk) he).trans hk⟩

namespace Unfinished

/-- What an arena has come to after tokens. -/
structure Reached (done : List Token) (unfinished : Unfinished) : Prop where
  size : unfinished.tree.size = nextNumber done
  opened : unfinished.opened = (openTags done).map OpenTag.number
  named : ∀ tag ∈ openTags done, ∃ node e, unfinished.tree.node? tag.number = some node ∧
    node.content = some (.element e) ∧ e.name = tag.name
  nodes : unfinished.tree.HasNodes done
  trail : unfinished.tree.Trail none unfinished.opened
  warnings : unfinished.tree.warnings = [] ↔ EndsInnermost done

variable {unfinished : Unfinished}

namespace Reached

theorem current (h : unfinished.Reached done) :
    unfinished.current = innermost (openTags done) := by
  rw [Unfinished.current, h.opened, innermost, List.head?_map]

/-- A token has made its node under the innermost open element. -/
theorem grow (h : unfinished.Reached done) (hc : token.content? = some content)
    (hn : unfinished.tree.node? unfinished.current = some node)
    (ha : Appended unfinished.tree tree unfinished.current node content)
    (hopened : opened = (token.openAfter (nextNumber done) (openTags done)).map OpenTag.number)
    (hnamed : ∀ tag ∈ token.openAfter (nextNumber done) (openTags done), tag ∈ openTags done ∨
      tag.number = nextNumber done ∧ ∃ e, content = .element e ∧ e.name = tag.name)
    (htrail : tree.Trail none opened) : Reached (done ++ [token]) ⟨tree, opened⟩ := by
  constructor
  case size => rw [nextNumber_concat, hc, ha.size, h.size]; rfl
  case opened => rw [openTags_concat, hopened]
  case named =>
    rw [openTags_concat]
    intro tag hm
    rcases hnamed tag hm with hm | ⟨hnumber, e, rfl, he⟩
    · obtain ⟨found, e, hf, hfc, he⟩ := h.named tag hm
      obtain ⟨children, hk⟩ := ha.kept hn hf
      exact ⟨_, e, hk, hfc, he⟩
    · rw [hnumber, ← h.size]
      exact ⟨_, e, ha.new, rfl, he⟩
  case nodes =>
    refine eachToken_concat.mpr ⟨fun before found later he content hcontent => ?_,
      fun found hfound => ?_⟩
    · obtain ⟨children, hnode⟩ := h.nodes before found later he content hcontent
      exact ha.kept hn hnode
    · cases hc.symm.trans hfound
      rw [← h.size, ← h.current]
      exact ⟨[], ha.new⟩
  case trail => exact htrail
  case warnings => exact ha.warnings ▸ h.warnings.trans (endsInnermost_concat_node hc).symm

/-- The node of a token that opens nothing is added. -/
theorem add (h : unfinished.Reached done) (hc : token.content? = some content)
    (hopen : token.openAfter (nextNumber done) (openTags done) = openTags done) :
    ∃ after, unfinished.add? content = some after ∧ after.Reached (done ++ [token]) := by
  obtain ⟨node, hn⟩ := h.trail.current
  obtain ⟨tree, ht, ha⟩ := append?_of_node? hn content
  refine ⟨⟨tree, unfinished.opened⟩, by rw [Unfinished.add?, Unfinished.current, ht]; rfl, ?_⟩
  refine h.grow hc hn ha ?_ (fun tag hm => ?_) (h.trail.appended hn ha).1
  · rw [hopen, h.opened]
  · exact .inl (hopen ▸ hm)

/-- The node of an element is added, and is open. -/
theorem enter {e : Element} (h : unfinished.Reached done)
    (hc : token.content? = some (.element e))
    (hopen : token.openAfter (nextNumber done) (openTags done) =
      ⟨nextNumber done, e.name⟩ :: openTags done) :
    ∃ after, unfinished.add? (.element e) = some after ∧
      Reached (done ++ [token]) { after with opened := unfinished.tree.size :: after.opened } := by
  obtain ⟨node, hn⟩ := h.trail.current
  obtain ⟨tree, ht, ha⟩ := append?_of_node? hn (.element e)
  refine ⟨⟨tree, unfinished.opened⟩, by rw [Unfinished.add?, Unfinished.current, ht]; rfl, ?_⟩
  refine h.grow hc hn ha ?_ (fun tag hm => ?_) (h.trail.appended hn ha).2
  · rw [hopen, List.map_cons, ← h.opened, h.size]
  · rw [hopen] at hm
    rcases List.mem_cons.mp hm with rfl | hm
    · exact .inr ⟨rfl, e, rfl, rfl⟩
    · exact .inl hm

theorem findIdx? (h : unfinished.Reached done) (name : Text) :
    unfinished.opened.findIdx? (unfinished.tree.isTag name) =
      (openTags done).findIdx? (sameName ·.name name) := by
  have named := h.named
  rw [h.opened]
  generalize openTags done = tags at named
  induction tags with
  | nil => rfl
  | cons tag rest ih =>
    obtain ⟨⟨node, e, hn, hc, he⟩, hrest⟩ := List.forall_mem_cons.mp named
    have tagged : unfinished.tree.isTag name tag.number = sameName tag.name name := by
      simp [isTag, hn, hc, ← he, Content.isElement, Content.element?]
    rw [List.map_cons, List.findIdx?_cons, List.findIdx?_cons, tagged, ih hrest]

/-- Elements are closed, and a repair may be noted. -/
theorem shrink {name : Text} {warnings : List Warning} {count : Nat}
    (h : unfinished.Reached done)
    (hopen : closeNearest name (openTags done) = (openTags done).drop count)
    (hw : warnings = [] ↔ EndsInnermost (done ++ [.closing name])) :
    Reached (done ++ [.closing name])
      ⟨{ unfinished.tree with warnings }, unfinished.opened.drop count⟩ := by
  have left : openTags (done ++ [.closing name]) = (openTags done).drop count := by
    rw [openTags_concat]
    exact hopen
  constructor
  case size => rw [nextNumber_concat]; exact h.size
  case opened => rw [left, List.map_drop, h.opened]
  case named =>
    rw [left]
    exact fun tag hm => h.named tag (List.mem_of_mem_drop hm)
  case nodes => exact eachToken_concat.mpr ⟨h.nodes, fun content hc => by cases hc⟩
  case trail => exact (h.trail.leave count).frame rfl fun _ _ => rfl
  case warnings => exact hw

/-- An end tag is taken. -/
theorem close (h : unfinished.Reached done) (name : Text) :
    ∃ after, unfinished.step? (.closing name) = some after ∧
      after.Reached (done ++ [.closing name]) := by
  have ends : EndsInnermost (done ++ [.closing name]) ↔ EndsInnermost done ∧
      (openTags done).findIdx? (sameName ·.name name) = some 0 :=
    endsInnermost_concat_end.trans (and_congr_right fun _ => exists_head_iff)
  simp only [step?, h.findIdx? name]
  cases hfound : (openTags done).findIdx? (sameName ·.name name) with
  | none =>
    have closed : closeNearest name (openTags done) = (openTags done).drop 0 :=
      closeNearest_of_none hfound
    exact ⟨_, rfl, h.shrink closed (by rw [ends, hfound]; simp)⟩
  | some others =>
    have closed := closeNearest_of_findIdx? hfound
    cases others with
    | zero => exact ⟨_, rfl, h.shrink closed (by rw [ends, hfound, h.warnings]; simp)⟩
    | succ others => exact ⟨_, rfl, h.shrink closed (by rw [ends, hfound]; simp)⟩

/-- Every token can be taken. -/
theorem step (h : unfinished.Reached done) (token : Token) :
    ∃ after, unfinished.step? token = some after ∧ after.Reached (done ++ [token]) := by
  cases token with
  | text => exact h.add rfl rfl
  | comment => exact h.add rfl rfl
  | declaration => exact h.add rfl rfl
  | closing name => exact h.close name
  | opening name attributes selfClosing =>
    simp only [step?]
    cases selfClosing with
    | true =>
      have content : (Token.opening name attributes true).content? =
        some (.element ⟨name, attributes, .selfClosed⟩) := rfl
      obtain ⟨after, ha, hr⟩ := h.add content rfl
      exact ⟨after, by simp [ha], hr⟩
    | false =>
      cases hv : isVoidName name with
      | true =>
        have content : (Token.opening name attributes false).content? =
          some (.element ⟨name, attributes, .void⟩) := by simp [Token.content?, hv]
        obtain ⟨after, ha, hr⟩ := h.add content (by simp [Token.openAfter, hv])
        exact ⟨after, by simp [ha], hr⟩
      | false =>
        have content : (Token.opening name attributes false).content? =
          some (.element ⟨name, attributes, .normal⟩) := by simp [Token.content?, hv]
        obtain ⟨after, ha, hr⟩ := h.enter content (by simp [Token.openAfter, hv])
        exact ⟨_, by simp [ha], hr⟩

theorem steps (h : unfinished.Reached done) (tokens : List Token) :
    ∃ after, tokens.foldlM step? unfinished = some after ∧ after.Reached (done ++ tokens) := by
  induction tokens generalizing unfinished done with
  | nil => exact ⟨unfinished, rfl, by simpa using h⟩
  | cons token rest ih =>
    obtain ⟨middle, hm, hreached⟩ := h.step token
    obtain ⟨after, ha, hafter⟩ := ih hreached
    refine ⟨after, by rw [List.foldlM_cons, hm]; exact ha, by simpa using hafter⟩

/-- At the end all that is open is closed. -/
theorem finish (h : unfinished.Reached done) :
    unfinished.finish.size = nextNumber done ∧
      unfinished.finish.inOrder? = some (List.range (nextNumber done)) ∧
      unfinished.finish.HasNodes done ∧
      (unfinished.finish.warnings = [] ↔ EndsInnermost done ∧ openTags done = []) := by
  have closed := h.trail.leave unfinished.opened.length
  rw [List.drop_length] at closed
  have opened : unfinished.opened = [] ↔ openTags done = [] := by rw [h.opened, List.map_eq_nil_iff]
  unfold Unfinished.finish
  split
  next he =>
    have none_open := opened.mp (List.isEmpty_iff.mp he)
    exact ⟨h.size, h.size ▸ closed.inOrder?, h.nodes, by simp [h.warnings, none_open]⟩
  next he =>
    have some_open : openTags done ≠ [] := mt (fun hd => List.isEmpty_iff.mpr (opened.mpr hd)) he
    have warned : (unfinished.tree.warn (.leftOpen unfinished.opened.length)).Trail none [] :=
      closed.frame rfl fun _ _ => rfl
    exact ⟨h.size, h.size ▸ warned.inOrder?, h.nodes, by simp [warn, some_open]⟩

end Reached

end Unfinished

/-- Reading loses nothing and keeps the order. The arena has the document and one node for each
token but the end tags, with what the token is, in their order. The parent of each of them is the
innermost element that is open at its token. No repair is noted exactly if each end tag has the name
of the innermost open element, and no element is open in the end. -/
theorem read?_in_order (input : Text) :
    ∃ reads tree, Reader.Reads ⟨input, 0, none⟩ reads ∧ read? input = some tree ∧
      tree.size = nextNumber (reads.map Prod.fst) ∧
      tree.inOrder? = some (List.range (nextNumber (reads.map Prod.fst))) ∧
      tree.HasNodes (reads.map Prod.fst) ∧
      (tree.warnings = [] ↔
        EndsInnermost (reads.map Prod.fst) ∧ openTags (reads.map Prod.fst) = []) := by
  obtain ⟨reads, hreads, htokens, _⟩ := Reader.reads_append [] input none
  have start : Unfinished.Reached [] {} := by
    refine ⟨rfl, rfl, fun tag hm => (nomatch hm), eachToken_nil, ?_, ?_⟩
    · exact .document ⟨_, [], rfl, rfl, .nil⟩
    · exact ⟨fun _ => eachToken_nil, fun _ => rfl⟩
  obtain ⟨last, hlast, reached⟩ := start.steps (tokens input)
  have same : reads.map Prod.fst = tokens input := htokens
  rw [List.nil_append, ← same] at reached
  exact ⟨reads, last.finish, hreads, by rw [read?, hlast]; rfl, reached.finish⟩

end Arena

end MarkupTemplate
