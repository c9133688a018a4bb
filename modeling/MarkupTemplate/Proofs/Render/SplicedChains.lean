import MarkupTemplate.Proofs.Render.ResolvedTags
import MarkupTemplate.Proofs.Render.SplicedForests

namespace MarkupTemplate

namespace Forest

/-- The forest begins with a link behind blank texts and placeholders that are filled with such. -/
inductive Meets (fills : Text → Text → Prop) : Forest → Prop
  | link {e : Element} {children next : Forest} :
      e.isLink = true → Meets fills (.node (.element e) children next)
  | blank {shown : Text} {children next : Forest} :
      isBlankText shown = true → Meets fills next →
      Meets fills (.node (.text shown) children next)
  | fill {path shown : Text} {next : Forest} :
      fills path shown → isBlankText shown = true → Meets fills next →
      Meets fills (.node (.text ['{']) .nil (characters (path ++ ['}']) next))

/-- A placeholder that is filled with a blank text stands before a link. -/
inductive Joins (fills : Text → Text → Prop) : Forest → Prop
  | here {path shown : Text} {next : Forest} :
      fills path shown → isBlankText shown = true → Meets fills next →
      Joins fills (.node (.text ['{']) .nil (characters (path ++ ['}']) next))
  | inside {content : Content} {children next : Forest} :
      content.isElement (·.isLoop) = false → Joins fills children →
      Joins fills (.node content children next)
  | after {content : Content} {children next : Forest} :
      Joins fills next → Joins fills (.node content children next)

/-- A chain that comes before ends where the forest begins, but a placeholder that is filled with a
blank text comes to stand before a link. -/
structure Parts (now : Model) (fills : Text → Text → Prop) (forest : Forest) : Prop where
  links : ∀ rest, links rest forest = ([], rest)
  joins : (resolveChains now forest).1.Joins fills

end Forest

/-- However its texts are divided, no placeholder that is filled with a blank text stands before a
link. -/
def LinksApart (fills : Text → Text → Prop) (forest : Forest) : Prop :=
  ∀ split, forest.Split split → ¬ split.Joins fills

theorem linksApart_of_none {fills : Text → Text → Prop} (hf : ∀ path shown, ¬ fills path shown)
    (forest : Forest) : LinksApart fills forest := by
  intro split hs h
  clear hs
  induction h with
  | here h => exact hf _ _ h
  | inside _ _ ih => exact ih
  | after _ ih => exact ih

open Forest

theorem Forest.elements_characters (shown : Text) (next : Forest) :
    (characters shown next).elements = next.elements := by
  induction shown with
  | nil => rfl
  | cons c shown ih => exact ih

theorem Forest.Split.elements {forest split : Forest} (h : forest.Split split) :
    split.elements = forest.elements := by
  induction h with
  | nil => rfl
  | text _ ih => exact (elements_characters _ _).trans ih
  | node _ _ _ ihc ih => rw [Forest.elements, Forest.elements, ihc, ih]

theorem Forest.Meets.exists_link {fills : Text → Text → Prop} {forest : Forest}
    (h : forest.Meets fills) : ∃ e ∈ forest.elements, e.isLink = true := by
  induction h with
  | @link e _ _ he => exact ⟨e, by simp [Forest.elements, Content.element?], he⟩
  | blank _ _ ih =>
    obtain ⟨e, he, hl⟩ := ih
    exact ⟨e, by simp [Forest.elements, he], hl⟩
  | fill _ _ _ ih =>
    obtain ⟨e, he, hl⟩ := ih
    exact ⟨e, by simp [Forest.elements, Forest.elements_characters, he], hl⟩

theorem linksApart_of_linkless {fills : Text → Text → Prop} {forest : Forest}
    (linkless : ∀ e ∈ forest.elements, e.isLink = false) : LinksApart fills forest := by
  intro split hs h
  rw [← hs.elements] at linkless
  clear hs
  induction h with
  | here _ _ hmeets =>
    obtain ⟨e, he, hl⟩ := hmeets.exists_link
    have hm := linkless e (by simp [Forest.elements, Forest.elements_characters, he])
    cases hl.symm.trans hm
  | inside _ _ ih => exact ih fun e he => linkless e (by simp [Forest.elements, he])
  | after _ ih => exact ih fun e he => linkless e (by simp [Forest.elements, he])

theorem Forest.Joins.withCharacters {fills : Text → Text → Prop} {next : Forest}
    (h : next.Joins fills) (shown : Text) : (characters shown next).Joins fills := by
  induction shown with
  | nil => exact h
  | cons c shown ih => exact .after ih

theorem characters_placeholder (path : Text) (next : Forest) :
    characters (placeholderText path) next =
      .node (.text ['{']) .nil (characters (path ++ ['}']) next) := rfl

variable {context : Context} {part : Part context} {now : Model} {fills : Text → Text → Prop}
variable {looped : Prop}

theorem Content.eq_of_head? {content : Content} {e : Element} (h : content.head? = some e) :
    content = .element e ∧ e.isHead = true := by
  obtain ⟨he, hh⟩ := Option.filter_eq_some_iff.mp h
  cases content with
  | element other =>
    obtain rfl := Option.some.inj he
    exact ⟨rfl, hh⟩
  | text | verbatim => cases he

theorem Content.head?_of_isLoop {content : Content} (h : content.isElement (·.isLoop) = true) :
    content.head? = none := by
  cases content with
  | text | verbatim => rfl
  | element e =>
    have hl : e.role = .loop := by simpa [isElement, element?, Element.isLoop] using h
    simp [head?, element?, Element.isHead, hl]

theorem Content.Settles.head?_eq_none {content content' : Content}
    (h : content.Settles now fills content') (hh : content.head? = none) :
    content'.head? = none := by
  cases h with
  | text => rfl
  | verbatim => rfl
  | @element e e' hr =>
    have same : e'.isHead = e.isHead := by rw [Element.isHead, Element.isHead, hr]
    simpa [head?, element?, same] using hh

theorem isHead_eq_false_of_isLink {e : Element} (h : e.isLink = true) : e.isHead = false := by
  cases hr : e.role <;> simp_all [Element.isLink, Element.isHead]

theorem resolveChains_link {e : Element} (h : e.isLink = true) (model : Model)
    (children next : Forest) :
    (resolveChains model (.node (.element e) children next)).1 =
      .node (.element e) (resolveChains model children).1 (resolveChains model next).1 := by
  refine resolveChains_other ?_ ?_ model children next
  · simp [Content.head?, Content.element?, isHead_eq_false_of_isLink h]
  · exact isLoop_eq_false_of_isLink h

theorem Forest.Parts.blank {shown : Text} (hb : isBlankText shown = true) {children next : Forest}
    (h : next.Parts now fills) :
    (Forest.node (.text shown) children next).Parts now fills where
  links rest := by
    rw [MarkupTemplate.links, if_pos hb]
    exact h.links rest
  joins := by
    rw [resolveChains_other rfl rfl]
    exact .after h.joins

/-- What chains take is the same with such a forest behind it. -/
theorem Forest.Parts.links_append {b : Forest} (h : b.Parts now fills) (rest a : Forest) :
    MarkupTemplate.links (rest ++ b) (a ++ b) =
      ((MarkupTemplate.links rest a).1, (MarkupTemplate.links rest a).2 ++ b) := by
  induction a generalizing rest with
  | nil => exact h.links (rest ++ b)
  | node content children next _ ih =>
    rw [node_append]
    cases content with
    | text shown =>
      rw [MarkupTemplate.links, MarkupTemplate.links]
      split
      next => exact ih rest
      next => rfl
    | verbatim => rfl
    | element e =>
      rw [MarkupTemplate.links, MarkupTemplate.links, ih next]
      split
      next =>
        split
        next => rfl
        next => rfl
      next => rfl

theorem Forest.Parts.joins_append {b : Forest} (h : b.Parts now fills) (a : Forest) :
    (resolveChains now (a ++ b)).1.Joins fills := by
  fun_induction MarkupTemplate.resolveChains now a with
  | case1 => exact h.joins
  | case2 content children next element hh chain chosen rest ih =>
    rw [node_append, resolveChains_head hh, h.links_append, ← Forest.append_assoc]
    exact ih
  | case3 content children next hh hl rest ih =>
    rw [node_append, resolveChains_loop hh hl]
    exact .after ih
  | case4 content children next hh hl inside rest ihc ih =>
    rw [node_append, resolveChains_other hh (by simpa using hl)]
    exact .after ih

/-- What a chain leaves behind is smaller than the chain. -/
theorem size_choose_append_lt (model : Model) (content : Content) (e : Element)
    (children next : Forest) :
    ((choose model (⟨e, children⟩ :: (links next next).1)).1 ++ (links next next).2).size <
      (Forest.node content children next).size := by
  have hc := size_choose_le model (⟨e, children⟩ :: (links next next).1)
  have hl := size_links_le (Nat.le_refl next.size)
  simp only [branchesSize] at hc
  simp only [size_append, size]
  omega

theorem size_characters (shown : Text) (next : Forest) :
    (characters shown next).size = shown.length + next.size := by
  induction shown with
  | nil => simp [characters]
  | cons c shown ih =>
    simp only [characters, size, ih, List.length_cons]
    omega

namespace Spliced

variable {a a' : Forest}

theorem links_eq_or_meets_node {content content' : Content}
    (hs : content.Settles now fills content')
    {next next' : Forest}
    (h : (∀ rest, links rest next' = ([], rest)) ∨ (resolveChains now next).1.Meets fills)
    (children children' : Forest) :
    (∀ rest, links rest (.node content' children' next') = ([], rest)) ∨
      (resolveChains now (.node content children next)).1.Meets fills := by
  cases hs with
  | @text shown =>
    cases hb : isBlankText shown with
    | true =>
      rw [resolveChains_other rfl rfl]
      refine h.imp (fun h rest => ?_) (.blank hb)
      rw [links, if_pos hb, h]
    | false =>
      refine .inl fun rest => ?_
      rw [links, hb]
      rfl
  | verbatim => exact .inl fun _ => rfl
  | @element e e' hr =>
    cases hl : e.isLink with
    | true =>
      rw [resolveChains_link hl]
      exact .inr (.link hl)
    | false =>
      refine .inl fun rest => ?_
      have hl' : e'.isLink = false := by rw [← hl, Element.isLink, Element.isLink, hr]
      rw [links, hl']
      rfl

/-- No chain goes on in the second forest, or the first one comes to begin with a link. -/
theorem links_eq_or_meets (h : Spliced part now fills looped false a a') :
    (∀ rest, links rest a' = ([], rest)) ∨ (resolveChains now a).1.Meets fills := by
  generalize ho : false = outer at h
  induction h with
  | nil => exact .inl fun _ => rfl
  | same _ ih => exact links_eq_or_meets_node (.refl _) (ih ho) _ _
  | into _ _ hs _ _ _ ih => exact links_eq_or_meets_node hs (ih ho) _ _
  | loop _ _ _ ih => exact links_eq_or_meets_node (.refl _) (ih ho) _ _
  | @fill _ path shown next next' hf _ _ _ ih =>
    rw [← characters_placeholder, resolveChains_characters]
    cases hb : isBlankText shown with
    | true =>
      refine (ih ho).imp (fun h rest => ?_) (.fill hf hb)
      rw [links_characters, if_pos hb, h]
    | false =>
      refine .inl fun rest => ?_
      rw [links_characters, hb]
      rfl
  | splice => cases ho
  | bound => cases ho

/-- What two chains take corresponds, and so do the nodes behind them. -/
def SameLinks (part : Part context) (now : Model) (fills : Text → Text → Prop) (looped : Prop)
    (first second : List Branch × Forest) : Prop :=
  Branchwise now (Spliced part now fills looped false) first.1 second.1 ∧
    Spliced part now fills looped false first.2 second.2

theorem links_node {content content' : Content} {children children' next next' rest rest' : Forest}
    (hs : content.Settles now fills content')
    (hc : content.isElement (·.isLink) = true →
      Spliced part now fills looped false children children')
    (hn : Spliced part now fills looped false next next')
    (hr : Spliced part now fills looped false rest rest')
    (hp : (Forest.node content children next).Parts now fills → rest.Parts now fills)
    (ih : ∀ {rest rest' : Forest}, Spliced part now fills looped false rest rest' →
      (next.Parts now fills → rest.Parts now fills) →
      SameLinks part now fills looped (links rest next) (links rest' next') ∨
        (links rest next).2.Parts now fills) :
    SameLinks part now fills looped (links rest (.node content children next))
        (links rest' (.node content' children' next')) ∨
      (links rest (.node content children next)).2.Parts now fills := by
  cases hs with
  | @text shown =>
    rw [links, links]
    cases hb : isBlankText shown with
    | true => exact ih hr fun h => hp (h.blank hb)
    | false => exact .inl ⟨.nil, hr⟩
  | verbatim => exact .inl ⟨.nil, hr⟩
  | @element e e' hrole _ hverdict =>
    have hl' : e'.isLink = e.isLink := by rw [Element.isLink, Element.isLink, hrole]
    rw [links, links, hl', hrole]
    cases hl : e.isLink with
    | false => exact .inl ⟨.nil, hr⟩
    | true =>
      have verdict := hverdict (.inr hl)
      have children := hc hl
      by_cases ho : e.role = .otherwise
      · simp only [ho, if_true]
        exact .inl ⟨.cons verdict children .nil, hn⟩
      · simp only [ho, if_true, if_false]
        refine (ih hn id).imp (fun h => ?_) id
        exact ⟨.cons verdict children h.1, h.2⟩

/-- The chains take branches that correspond, or one ends at a placeholder that is filled with a
blank text. -/
theorem sameLinks {rest rest' : Forest} (hr : Spliced part now fills looped false rest rest')
    (h : Spliced part now fills looped false a a')
    (hp : a.Parts now fills → rest.Parts now fills) :
    SameLinks part now fills looped (links rest a) (links rest' a') ∨
      (links rest a).2.Parts now fills := by
  generalize ho : false = outer at h
  induction h generalizing rest rest' with
  | nil => exact .inl ⟨.nil, hr⟩
  | same hn ih =>
    subst ho
    exact links_node (.refl _) (fun _ => .refl _ _) hn hr hp fun hr hp => ih hr hp rfl
  | into _ _ hs hc hn _ ih =>
    subst ho
    exact links_node hs (fun _ => hc) hn hr hp fun hr hp => ih hr hp rfl
  | @loop _ content _ _ _ _ hl _ hn ih =>
    subst ho
    refine links_node (.refl _) (fun hlink => ?_) hn hr hp fun hr hp => ih hr hp rfl
    cases content with
    | text | verbatim => cases hl
    | element e => exact absurd hl (ne_true_of_eq_false (isLoop_eq_false_of_isLink hlink))
  | @fill _ path shown next next' hf _ _ hn =>
    subst ho
    have stop (rest : Forest) : links rest (characters (placeholderText path) next) = ([], rest) :=
      rfl
    rw [← characters_placeholder] at hp ⊢
    rw [stop, links_characters]
    cases hb : isBlankText shown with
    | false => exact .inl ⟨.nil, hr⟩
    | true =>
      rcases hn.links_eq_or_meets with hlinks | hmeets
      · rw [if_pos rfl, hlinks]
        exact .inl ⟨.nil, hr⟩
      · refine .inr (hp ⟨stop, ?_⟩)
        rw [resolveChains_characters]
        exact .here hf hb hmeets
  | splice => cases ho
  | bound => cases ho

/-- The chains of the forests are resolved alike, unless in the first one a placeholder that is filled
with a blank text comes to stand before a link. -/
def SameChains (part : Part context) (now : Model) (fills : Text → Text → Prop) (looped : Prop)
    (a a' : Forest) : Prop :=
  Spliced part now fills looped false (resolveChains now a).1 (resolveChains now a').1 ∨
    (resolveChains now a).1.Joins fills

theorem sameChains_head {e e' : Element} {children children' next next' : Forest}
    (hs : (Content.element e).Settles now fills (.element e')) (hh : e.isHead = true)
    (hc : Spliced part now fills looped false children children')
    (hn : Spliced part now fills looped false next next')
    (smaller : ∀ {b b' : Forest}, b.size < (Forest.node (.element e) children next).size →
      Spliced part now fills looped false b b' → SameChains part now fills looped b b') :
    SameChains part now fills looped (.node (.element e) children next)
      (.node (.element e') children' next') := by
  cases hs with
  | element hrole _ hverdict =>
    have hh' : e'.isHead = true := by rw [← hh, Element.isHead, Element.isHead, hrole]
    have head : Content.head? (.element e) = some e := by simp [Content.head?, Content.element?, hh]
    have head' : Content.head? (.element e') = some e' := by
      simp [Content.head?, Content.element?, hh']
    have hsize := size_choose_append_lt now (.element e) e children next
    unfold SameChains
    rw [resolveChains_head head, resolveChains_head head']
    rcases hn.sameLinks hn id with ⟨hbranches, hrest⟩ | parts
    · have chosen := (Branchwise.cons (hverdict (.inl hh)) hc hbranches).choose .nil
      exact smaller hsize (chosen.append hrest)
    · exact .inr (parts.joins_append _)

theorem sameChains_into {content content' : Content} {children children' next next' : Forest}
    (hh : content.head? = none) (hl : content.isElement (·.isLoop) = false)
    (hi : content.inclusion? = none) (hs : content.Settles now fills content')
    (hc : SameChains part now fills looped children children')
    (hn : SameChains part now fills looped next next') :
    SameChains part now fills looped (.node content children next)
      (.node content' children' next') := by
  unfold SameChains
  rw [resolveChains_other hh hl, resolveChains_other (hs.head?_eq_none hh) (hs.isLoop.trans hl)]
  rcases hc with hc | hc
  · exact hn.imp (.into hl hi hs hc) .after
  · exact .inr (.inside hl hc)

theorem sameChains_same {content : Content} {children next next' : Forest}
    (hh : content.head? = none) (hn : SameChains part now fills looped next next') :
    SameChains part now fills looped (.node content children next)
      (.node content children next') := by
  unfold SameChains
  cases hl : content.isElement (·.isLoop) with
  | true =>
    rw [resolveChains_loop hh hl, resolveChains_loop hh hl]
    exact hn.imp .same .after
  | false =>
    rw [resolveChains_other hh hl, resolveChains_other hh hl]
    exact hn.imp .same .after

theorem sameChains (h : Spliced part now fills looped false a a') :
    SameChains part now fills looped a a' := by
  induction hsize : a.size using Nat.strongRecOn generalizing a a' with
  | ind n ih =>
    subst hsize
    have smaller {b b' : Forest} (hb : b.size < a.size)
        (hs : Spliced part now fills looped false b b') :
        SameChains part now fills looped b b' :=
      ih _ hb hs rfl
    generalize ho : false = outer at h
    cases h with
    | nil =>
      unfold SameChains
      rw [resolveChains_nil]
      exact .inl .nil
    | @same _ content children next next' hn =>
      subst ho
      cases hh : content.head? with
      | none => exact sameChains_same hh (smaller (by simp only [size]; omega) hn)
      | some e =>
        obtain ⟨rfl, hhead⟩ := Content.eq_of_head? hh
        exact sameChains_head (.refl _) hhead (.refl false children) hn smaller
    | @into _ content content' children children' next next' hl hi hs hc hn =>
      subst ho
      cases hh : content.head? with
      | none =>
        exact sameChains_into hh hl hi hs (smaller (by simp only [size]; omega) hc)
          (smaller (by simp only [size]; omega) hn)
      | some e =>
        obtain ⟨rfl, hhead⟩ := Content.eq_of_head? hh
        cases hs with
        | element hr hf hv hopening hclosing =>
          exact sameChains_head (.element hr hf hv hopening hclosing) hhead hc hn smaller
    | @loop _ content children children' next next' hl hd hn =>
      subst ho
      have hh : content.head? = none := Content.head?_of_isLoop hl
      unfold SameChains
      rw [resolveChains_loop hh hl, resolveChains_loop hh hl]
      exact (smaller (by simp only [size]; omega) hn).imp (.loop hl hd) .after
    | @fill _ path shown next next' hf hne hp hn =>
      subst ho
      have hsize : next.size < (characters (placeholderText path) next).size := by
        rw [size_characters, placeholderText]
        simp only [List.length_append, List.length_cons]
        omega
      unfold SameChains
      rw [← characters_placeholder, resolveChains_characters, resolveChains_characters]
      exact (smaller hsize hn).imp (.fill hf hne hp) fun h => h.withCharacters _
    | splice => cases ho
    | bound => cases ho

theorem resolveChains (h : Spliced part now fills looped false a a')
    (apart : ¬ (resolveChains now a).1.Joins fills) :
    Spliced part now fills looped false (resolveChains now a).1
      (MarkupTemplate.resolveChains now a').1 :=
  h.sameChains.resolve_right apart

end Spliced

theorem Unfolds.resolveChains {forest forest' : Forest}
    (h : Unfolds part now fills looped false forest forest')
    (apart : LinksApart fills (resolveChains now forest).1) :
    Unfolds part now fills looped false (MarkupTemplate.resolveChains now forest).1
      (MarkupTemplate.resolveChains now forest').1 := by
  obtain ⟨a, a', hf, hf', hs⟩ := h
  exact ⟨_, _, hf.resolveChains now, hf'.resolveChains now,
    hs.resolveChains (apart _ (hf.resolveChains now))⟩

end MarkupTemplate
