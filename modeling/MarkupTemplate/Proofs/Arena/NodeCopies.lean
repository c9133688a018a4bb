import MarkupTemplate.Proofs.Arena.Editing
import MarkupTemplate.Proofs.Arena.HeldForest

namespace MarkupTemplate

namespace Arena

/-- Nodes of the second arena are copies of nodes of the first one with all below them. The copies
are numbered from `floor` on. -/
inductive Mirrors (source after : Arena) (floor : Nat) : Nat → List Nat → List Nat → Prop
  | nil {parent : Nat} : Mirrors source after floor parent [] []
  | cons {parent id copy : Nat} {node : ArenaNode} {new rest others : List Nat} :
      source.node? id = some node → floor ≤ copy →
      after.node? copy = some { node with parent := some parent, children := new } →
      Mirrors source after floor copy node.children new →
      Mirrors source after floor parent rest others →
      Mirrors source after floor parent (id :: rest) (copy :: others)

variable {source middle after tree fragment : Arena} {floor parent id owner : Nat}
  {ids others new all more : List Nat} {forest following : Forest} {node : ArenaNode}

namespace Mirrors

theorem eq_nil (h : Mirrors source after floor parent [] new) : new = [] := by
  cases h
  rfl

/-- Only the nodes from the floor on matter. -/
theorem frame (h : Mirrors source middle floor parent ids new)
    (hsame : ∀ k < middle.size, floor ≤ k → after.node? k = middle.node? k) :
    Mirrors source after floor parent ids new := by
  induction h with
  | nil => exact .nil
  | cons hn hfloor hcopy _ _ ihc ihn =>
    exact .cons hn hfloor ((hsame _ (lt_of_node? hcopy) hfloor).trans hcopy) ihc ihn

theorem lower {lower : Nat} (h : Mirrors source after floor parent ids new)
    (hl : lower ≤ floor) : Mirrors source after lower parent ids new := by
  induction h with
  | nil => exact .nil
  | cons hn hfloor hcopy _ _ ihc ihn => exact .cons hn (Nat.le_trans hl hfloor) hcopy ihc ihn

theorem append {rest : List Nat} (h : Mirrors source after floor parent ids new)
    (h' : Mirrors source after floor parent rest others) :
    Mirrors source after floor parent (ids ++ rest) (new ++ others) := by
  induction h with
  | nil => exact h'
  | cons hn hfloor hcopy hchildren _ _ ih => exact .cons hn hfloor hcopy hchildren (ih h')

/-- Copies of copies are copies. -/
theorem trans {floor' parent' : Nat} (h : Mirrors source middle floor parent ids new)
    (h' : Mirrors middle after floor' parent' new others) :
    Mirrors source after floor' parent' ids others := by
  induction h generalizing others parent' with
  | nil =>
    cases h'
    exact .nil
  | cons hn _ hcopy _ _ ihc ihn =>
    cases h' with
    | cons hn' hfloor' hcopy' hchildren' hrest' =>
      cases hcopy.symm.trans hn'
      exact .cons hn hfloor' hcopy' (ihc hchildren') (ihn hrest')

/-- Copies hold what the originals hold. -/
theorem lists (h : Mirrors source after floor parent ids new)
    (hl : source.Lists owner ids forest all) :
    ∃ more, after.Lists parent new forest more ∧ ∀ k ∈ more, floor ≤ k := by
  induction h generalizing owner forest all with
  | nil =>
    cases hl
    exact ⟨[], .nil, by simp⟩
  | @cons _ _ copy _ _ _ _ hn hfloor hcopy _ _ ihc ihn =>
    cases hl with
    | cons hn' hc _ hchildren hnext =>
      cases hn.symm.trans hn'
      obtain ⟨inner, hinner, hbelow⟩ := ihc hchildren
      obtain ⟨rest, hrest, hlater⟩ := ihn hnext
      refine ⟨_, .cons hcopy hc rfl hinner hrest, List.forall_mem_cons.mpr ⟨hfloor, fun k hk => ?_⟩⟩
      exact (List.mem_append.mp hk).elim (hbelow k) (hlater k)

end Mirrors

/-- The second arena has copies under a parent, and all that was there is as it was, but for the
parent. -/
structure Copied (source tree after : Arena) (parent : Nat) (ids new : List Nat) : Prop where
  mirrors : Mirrors source after tree.size parent ids new
  size : tree.size ≤ after.size
  old {k : Nat} : k < tree.size → parent ≠ k → after.node? k = tree.node? k

namespace Copied

theorem refl (tree : Arena) : Copied source tree tree parent [] [] :=
  ⟨.nil, Nat.le_refl _, fun _ _ => rfl⟩

/-- Nothing but the children of the parent changes. -/
theorem updated {change : ArenaNode → ArenaNode} (h : Copied source tree middle parent ids new)
    (hp : parent < tree.size) (hu : Updated middle after parent change) :
    Copied source tree after parent ids new where
  mirrors := h.mirrors.frame fun _ _ hk => hu.other (Nat.ne_of_lt (Nat.lt_of_lt_of_le hp hk))
  size := hu.size ▸ h.size
  old hk hne := (hu.other hne).trans (h.old hk hne)

/-- Copies that are made one after the other. -/
theorem append {rest : List Nat} (h : Copied source tree middle parent ids new)
    (hp : parent < tree.size) (h' : Copied source middle after parent rest others) :
    Copied source tree after parent (ids ++ rest) (new ++ others) where
  mirrors :=
    .append (h.mirrors.frame fun _ hlt hk =>
      h'.old hlt (Nat.ne_of_lt (Nat.lt_of_lt_of_le hp hk))) (h'.mirrors.lower h.size)
  size := Nat.le_trans h.size h'.size
  old hk hne := (h'.old (Nat.lt_of_lt_of_le hk h.size) hne).trans (h.old hk hne)

end Copied

/-- Copying nodes as the last children of a parent adds copies of them. -/
def Copies (source : Arena) (ids : List Nat) : Prop :=
  ∀ {depth parent : Nat} {node : ArenaNode} {tree after : Arena},
    tree.node? parent = some node → adopt? source depth parent ids tree = some after →
    ∃ new, after.node? parent = some { node with children := node.children ++ new } ∧
      Copied source tree after parent ids new

/-- A node is copied if its children are. -/
theorem Copies.graft {depth copy : Nat} (hchildren : source.Copies node.children)
    (hn : source.node? id = some node) (hp : parent < tree.size)
    (hg : graft? source depth id parent tree = some (copy, after)) :
    after.node? parent = tree.node? parent ∧ Copied source tree after parent [id] [copy] := by
  cases depth with
  | zero => cases hg
  | succ depth =>
    rw [graft?_succ, hn, Option.bind_some] at hg
    obtain ⟨last, ha, he⟩ := Option.map_eq_some_iff.mp hg
    obtain ⟨rfl, hlast⟩ := Prod.mk.inj he
    rw [hlast] at ha
    have hnew := (node?_push tree { node with parent := some parent, children := [] }
      tree.size).trans (if_pos rfl)
    obtain ⟨new, hcopy, copied⟩ := hchildren hnew ha
    have old {k : Nat} (hk : k < tree.size) : after.node? k = tree.node? k := by
      rw [copied.old (by rw [size_push]; omega) (Nat.ne_of_gt hk), node?_push_of_lt hk]
    have hsize := size_lt_of_push copied.size
    refine ⟨old hp, .cons hn (Nat.le_refl _) hcopy ?_ .nil, Nat.le_of_lt hsize, fun hk _ => old hk⟩
    exact copied.mirrors.lower (by simp)

theorem Lists.copies (h : source.Lists owner ids forest all) : source.Copies ids := by
  induction h with
  | nil =>
    intro depth parent node tree after hn ha
    cases ha
    exact ⟨[], by simpa using hn, .refl tree⟩
  | cons hn _ _ _ _ ihc ihn =>
    intro depth parent node tree after hparent ha
    have hlt := lt_of_node? hparent
    rw [adopt?_cons] at ha
    obtain ⟨⟨copy, middle⟩, hg, ha⟩ := Option.bind_eq_some_iff.mp ha
    obtain ⟨named, hnamed, ha⟩ := Option.bind_eq_some_iff.mp ha
    obtain ⟨hsame, copied⟩ := ihc.graft hn hlt hg
    have hu := updated_of_update? hnamed
    obtain ⟨new, howner, others⟩ := ihn (hu.self (hsame.trans hparent)) ha
    refine ⟨copy :: new, ?_, (copied.updated hlt hu).append hlt others⟩
    simpa using howner

/-- Copies that their parent does not name yet. -/
theorem Lists.graftedAll {depth : Nat} (h : source.Lists owner ids forest all)
    (hp : parent < tree.size)
    (hg : graftAll? source depth parent ids tree = some (new, after)) :
    after.node? parent = tree.node? parent ∧ Copied source tree after parent ids new := by
  induction h generalizing tree new with
  | nil =>
    cases hg
    exact ⟨rfl, .refl _⟩
  | cons hn _ _ hchildren _ _ ihn =>
    obtain ⟨⟨copy, middle⟩, hfirst, hg⟩ := Option.bind_eq_some_iff.mp hg
    obtain ⟨⟨others, last⟩, hrest, hg⟩ := Option.bind_eq_some_iff.mp hg
    cases hg
    obtain ⟨hsame, copied⟩ := Copies.graft hchildren.copies hn hp hfirst
    obtain ⟨hsame', copied'⟩ := ihn (Nat.lt_of_lt_of_le hp copied.size) hrest
    exact ⟨hsame'.trans hsame, copied.append hp copied'⟩

end Arena

end MarkupTemplate
