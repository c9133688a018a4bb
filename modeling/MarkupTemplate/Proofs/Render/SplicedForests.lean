import MarkupTemplate.Proofs.Template.FilledAhead

namespace MarkupTemplate

open Forest

/-- A template that is read without repairs, apart from what is around it, and is no document. -/
structure Part (context : Context) where
  source : Text
  text : Text
  forest : Forest
  template : context.template source = .ok text
  whole : Whole text
  reads : readForest text = (forest, [])
  fragment : isDocument text = false

theorem Part.alike {context : Context} (part : Part context) : Alike part.forest part.forest := by
  have h := alike_readForest part.text
  rwa [part.reads] at h

/-- An include of the template. -/
structure Part.AskedBy {context : Context} (part : Part context) (e : Element) : Prop where
  inclusion : e.isInclusion = true
  source : e.setting? "src".toList = some part.source

/-- What is filled ahead in a node changes neither its part in a render nor where it shows its
children. A condition holds or not as it did before. -/
inductive Content.Settles (now : Model) (fills : Text → Text → Prop) : Content → Content → Prop
  | text {shown : Text} : Settles now fills (.text shown) (.text shown)
  | verbatim {source source' : Text} :
      FilledAhead fills source source' →
      Settles now fills (.verbatim source) (.verbatim source')
  | element {e e' : Element} :
      e'.role = e.role → e'.form = e.form →
      (e.isHead ∨ e.isLink → (e'.verdict now).1 = (e.verdict now).1) →
      FilledAhead fills e.startTag e'.startTag → FilledAhead fills e.endTag e'.endTag →
      Settles now fills (.element e) (.element e')

/-- With texts divided into characters, the second forest is the first one with the content of the
part in the place of some includes without children, and with some placeholders filled that may be.
Other includes may differ if what they bring in is related like this. Outside of loops includes are
related only if `outer` is true, and if `looped` holds, what is in a loop is left open. -/
inductive Spliced {context : Context} (part : Part context) (now : Model)
    (fills : Text → Text → Prop) (looped : Prop) : Bool → Forest → Forest → Prop
  | nil {outer : Bool} : Spliced part now fills looped outer .nil .nil
  | same {outer : Bool} {content : Content} {children next next' : Forest} :
      Spliced part now fills looped outer next next' →
      Spliced part now fills looped outer (.node content children next)
        (.node content children next')
  | into {outer : Bool} {content content' : Content} {children children' next next' : Forest} :
      content.isElement (·.isLoop) = false → content.inclusion? = none →
      content.Settles now fills content' →
      Spliced part now fills looped outer children children' →
      Spliced part now fills looped outer next next' →
      Spliced part now fills looped outer (.node content children next)
        (.node content' children' next')
  | loop {outer : Bool} {content : Content} {children children' next next' : Forest} :
      content.isElement (·.isLoop) = true → looped →
      Spliced part now fills looped outer next next' →
      Spliced part now fills looped outer (.node content children next)
        (.node content children' next')
  | fill {outer : Bool} {path shown : Text} {next next' : Forest} :
      fills path shown → path ≠ [] → (∀ c ∈ path, notBrace c = true) →
      Spliced part now fills looped outer next next' →
      Spliced part now fills looped outer
        (.node (.text ['{']) .nil (characters (path ++ ['}']) next)) (characters shown next')
  | splice {e : Element} {content next next' : Forest} :
      part.AskedBy e → Split part.forest content →
      Spliced part now fills looped true (content ++ next) next' →
      Spliced part now fills looped true (.node (.element e) .nil next) next'
  | bound {e e' : Element} {children children' found found' a a' next next' : Forest} :
      e.isInclusion = true → e'.isInclusion = true →
      ((context.reply e children = .fragment found ∧
          context.reply e' children' = .fragment found') ∨
        (context.reply e children = .document found ∧
          context.reply e' children' = .document found')) →
      Split found a → Split found' a' → Spliced part now fills looped true a a' →
      Spliced part now fills looped true next next' →
      Spliced part now fills looped true (.node (.element e) children next)
        (.node (.element e') children' next')

theorem Content.inclusion?_of_isInclusion {e : Element} (h : e.isInclusion = true) :
    Content.inclusion? (.element e) = some e := by
  simp [inclusion?, element?, h]

theorem Content.inclusion?_of_isLoop {content : Content}
    (h : content.isElement (·.isLoop) = true) : content.inclusion? = none := by
  cases content with
  | text | verbatim => rfl
  | element e =>
    have hl : e.role = .loop := by simpa [isElement, element?, Element.isLoop] using h
    simp [inclusion?, element?, Element.isInclusion, hl]

theorem Content.exposed_loop {content : Content} {α : Type}
    (h : content.isElement (·.isLoop) = true) (inside : Option α) :
    content.exposed inside = none := by
  rw [exposed, if_pos h]

theorem Content.exposed_other {content : Content} {α : Type}
    (h : content.isElement (·.isLoop) = false) (inside : Option α) :
    content.exposed inside = inside := by
  rw [exposed, if_neg (by rw [h]; exact Bool.false_ne_true)]

namespace Content.Settles

variable {now : Model} {fills : Text → Text → Prop} {content content' : Content}

theorem refl (content : Content) : content.Settles now fills content := by
  cases content with
  | text => exact .text
  | verbatim => exact .verbatim (.refl _)
  | element => exact .element rfl rfl (fun _ => rfl) (.refl _) (.refl _)

theorem restrict {fills' : Text → Text → Prop} (h : content.Settles now fills content')
    (hr : ∀ path shown, placeholderText path <:+: content.opening ++ content.closing →
      fills path shown → fills' path shown) : content.Settles now fills' content' := by
  cases h with
  | text => exact .text
  | verbatim h =>
    exact .verbatim (h.restrict fun path shown hp =>
      hr path shown (hp.trans (List.prefix_append ..).isInfix))
  | element hrole hf hv ho hc =>
    refine .element hrole hf hv (ho.restrict fun path shown hp => ?_)
      (hc.restrict fun path shown hp => ?_)
    · exact hr path shown (hp.trans (List.prefix_append ..).isInfix)
    · exact hr path shown (hp.trans (List.suffix_append ..).isInfix)

theorem isElement (h : content.Settles now fills content') {property : Element → Bool}
    (hp : ∀ e e' : Element, e'.role = e.role → property e' = property e) :
    content'.isElement property = content.isElement property := by
  cases h with
  | text => rfl
  | verbatim => rfl
  | element hr => exact hp _ _ hr

theorem isLoop (h : content.Settles now fills content') :
    content'.isElement (·.isLoop) = content.isElement (·.isLoop) :=
  h.isElement fun e e' hr => by rw [Element.isLoop, Element.isLoop, hr]

theorem isLink (h : content.Settles now fills content') :
    content'.isElement (·.isLink) = content.isElement (·.isLink) :=
  h.isElement fun e e' hr => by rw [Element.isLink, Element.isLink, hr]

theorem inclusion? (h : content.Settles now fills content') (hi : content.inclusion? = none) :
    content'.inclusion? = none := by
  have same : content'.isElement (·.isInclusion) = content.isElement (·.isInclusion) :=
    h.isElement fun e e' hr => by rw [Element.isInclusion, Element.isInclusion, hr]
  rw [Content.isInclusion_of_none hi] at same
  cases content' with
  | text | verbatim => rfl
  | element e =>
    have he : e.isInclusion = false := same
    simp [Content.inclusion?, element?, he]

theorem showsChildren (h : content.Settles now fills content') :
    content'.showsChildren = content.showsChildren := by
  cases h with
  | text => rfl
  | verbatim => rfl
  | element _ hf => simp [Content.showsChildren, Content.isElement, element?, hf]

theorem opening (h : content.Settles now fills content') :
    FilledAhead fills content.opening content'.opening := by
  cases h with
  | text => exact .refl _
  | verbatim h => exact h
  | element _ _ _ ho => exact ho

theorem closing (h : content.Settles now fills content') :
    FilledAhead fills content.closing content'.closing := by
  cases h with
  | text => exact .nil
  | verbatim => exact .nil
  | element _ _ _ _ hc => exact hc

end Content.Settles

/-- What a forest shows outside of the bodies of loops. -/
def Forest.outsideLoops : Forest → Text
  | .nil => []
  | .node content children next =>
    content.opening ++ content.closing ++
      ((if content.isElement (·.isLoop) then [] else children.outsideLoops) ++ next.outsideLoops)

theorem Forest.outsideLoops_characters (shown : Text) (next : Forest) :
    (characters shown next).outsideLoops = shown ++ next.outsideLoops := by
  induction shown with
  | nil => rfl
  | cons c shown ih => exact congrArg (c :: ·) ih

theorem Forest.Split.outsideLoops {forest split : Forest} (h : forest.Split split) :
    split.outsideLoops = forest.outsideLoops := by
  induction h with
  | nil => rfl
  | @text shown next next' _ ih =>
    rw [outsideLoops_characters, ih]
    exact congrArg (· ++ next.outsideLoops) (List.append_nil shown).symm
  | node _ _ _ ihc ih => rw [Forest.outsideLoops, Forest.outsideLoops, ihc, ih]

section OutsideLoops

variable (content : Content) (children next : Forest)

theorem Forest.outsideLoops_tags :
    content.opening ++ content.closing <:+: (node content children next).outsideLoops :=
  (List.prefix_append ..).isInfix

theorem Forest.outsideLoops_children (h : content.isElement (·.isLoop) = false) :
    children.outsideLoops <:+: (node content children next).outsideLoops := by
  rw [outsideLoops, h, if_neg Bool.false_ne_true]
  exact List.infix_append' ..

theorem Forest.outsideLoops_next :
    next.outsideLoops <:+: (node content children next).outsideLoops := by
  rw [outsideLoops, ← List.append_assoc]
  exact (List.suffix_append ..).isInfix

end OutsideLoops

namespace Spliced

variable {context : Context} {part : Part context} {now : Model} {fills : Text → Text → Prop}
variable {looped : Prop} {outer : Bool} {a a' b b' : Forest}

theorem refl (outer : Bool) (forest : Forest) :
    Spliced part now fills looped outer forest forest := by
  induction forest with
  | nil => exact .nil
  | node content children next _ ih => exact .same ih

theorem append (ha : Spliced part now fills looped outer a a')
    (hb : Spliced part now fills looped outer b b') :
    Spliced part now fills looped outer (a ++ b) (a' ++ b') := by
  induction ha with
  | nil => exact hb
  | same _ ih => exact .same (ih hb)
  | into hl hi hs hc _ _ ih => exact .into hl hi hs hc (ih hb)
  | loop hl hd _ ih => exact .loop hl hd (ih hb)
  | fill hf hne hp _ ih =>
    rw [node_append, characters_append, characters_append]
    exact .fill hf hne hp (ih hb)
  | splice he hc _ ih =>
    have hnext := ih hb
    rw [Forest.append_assoc] at hnext
    exact .splice he hc hnext
  | bound he he' hr hs hs' h _ _ ih => exact .bound he he' hr hs hs' h (ih hb)

theorem withCharacters {shown shown' : Text} (h : FilledAhead fills shown shown')
    (hn : Spliced part now fills looped outer b b') :
    Spliced part now fills looped outer (characters shown b) (characters shown' b') := by
  induction h with
  | nil => exact hn
  | keep _ ih => exact .same ih
  | fill hf hne hp _ ih =>
    rw [characters_of_append, characters_of_append]
    exact .fill hf hne hp ih

/-- Fragments that are related may be put in the place of the first include of any forest. -/
theorem replaceFirst (h : Spliced part now fills looped outer a a') (forest : Forest) :
    Spliced part now fills looped outer (forest.replaceFirst a) (forest.replaceFirst a') := by
  induction forest with
  | nil => exact .nil
  | node content children next ihc ih =>
    cases hi : content.inclusion? with
    | some e =>
      rw [replaceFirst_inclusion _ _ _ hi, replaceFirst_inclusion _ _ _ hi]
      exact h.append (.refl outer next)
    | none =>
      cases hf : content.exposed children.request? with
      | some found =>
        rw [replaceFirst_children _ _ _ hi hf, replaceFirst_children _ _ _ hi hf]
        cases hl : content.isElement (·.isLoop) with
        | true => cases (Content.exposed_loop hl _).symm.trans hf
        | false => exact .into hl hi (.refl content) ihc (.refl outer next)
      | none =>
        rw [replaceFirst_next _ _ _ hi hf, replaceFirst_next _ _ _ hi hf]
        exact .same ih

/-- Outside of loops only the placeholders that are there are filled. -/
theorem restrict {fills' : Text → Text → Prop} {looped' : Prop}
    (h : Spliced part now fills looped false a a') (hd : looped → looped')
    (hr : ∀ path shown, placeholderText path <:+: a.outsideLoops → fills path shown →
      fills' path shown) : Spliced part now fills' looped' false a a' := by
  generalize ho : false = outer at h
  induction h with
  | nil => exact .nil
  | same _ ih =>
    refine .same (ih (fun path shown hp => ?_) ho)
    exact hr path shown (hp.trans (outsideLoops_next ..))
  | into hl hi hs _ _ ihc ih =>
    refine .into hl hi (hs.restrict fun path shown hp => ?_)
      (ihc (fun path shown hp => ?_) ho) (ih (fun path shown hp => ?_) ho)
    · exact hr path shown (hp.trans (outsideLoops_tags ..))
    · exact hr path shown (hp.trans (outsideLoops_children _ _ _ hl))
    · exact hr path shown (hp.trans (outsideLoops_next ..))
  | loop hl hlooped _ ih =>
    refine .loop hl (hd hlooped) (ih (fun path shown hp => ?_) ho)
    exact hr path shown (hp.trans (outsideLoops_next ..))
  | @fill _ path shown next next' hf hne hp _ ih =>
    have text : (characters (placeholderText path) next).outsideLoops =
        placeholderText path ++ next.outsideLoops := outsideLoops_characters ..
    refine .fill (hr _ _ ?_ hf) hne hp (ih (fun path shown hp => hr path shown ?_) ho)
    · exact text ▸ (List.prefix_append ..).isInfix
    · exact text ▸ hp.trans (List.suffix_append ..).isInfix
  | splice => cases ho
  | bound => cases ho

/-- Where the first forest asks for nothing outside of loops, nor does the second. -/
theorem of_request?_eq_none (h : Spliced part now fills looped outer a a')
    (hr : a.request? = none) :
    a'.request? = none ∧ Spliced part now fills looped false a a' := by
  induction h with
  | nil => exact ⟨rfl, .nil⟩
  | @same _ content children next next' _ ih =>
    cases hi : content.inclusion? with
    | some e =>
      rw [request?_inclusion _ _ hi] at hr
      cases hr
    | none =>
      rw [request?_other _ _ hi] at hr ⊢
      obtain ⟨hc, hn⟩ := Option.or_eq_none_iff.mp hr
      obtain ⟨hn', hs⟩ := ih hn
      exact ⟨Option.or_eq_none_iff.mpr ⟨hc, hn'⟩, .same hs⟩
  | into hl hi hs _ _ ihc ih =>
    rw [request?_other _ _ hi, Content.exposed_other hl] at hr
    rw [request?_other _ _ (hs.inclusion? hi), Content.exposed_other (hs.isLoop.trans hl)]
    obtain ⟨hc, hn⟩ := Option.or_eq_none_iff.mp hr
    obtain ⟨hc', hcs⟩ := ihc hc
    obtain ⟨hn', hns⟩ := ih hn
    exact ⟨Option.or_eq_none_iff.mpr ⟨hc', hn'⟩, .into hl hi hs hcs hns⟩
  | loop hl hd _ ih =>
    have hi := Content.inclusion?_of_isLoop hl
    rw [request?_other _ _ hi, Content.exposed_loop hl] at hr ⊢
    obtain ⟨hn', hns⟩ := ih hr
    exact ⟨hn', .loop hl hd hns⟩
  | @fill _ path shown next next' hf hne hp _ ih =>
    change (Forest.characters (placeholderText path) next).request? = none at hr
    rw [request?_characters] at hr ⊢
    obtain ⟨hn', hns⟩ := ih hr
    exact ⟨hn', .fill hf hne hp hns⟩
  | splice he =>
    rw [request?_inclusion _ _ (Content.inclusion?_of_isInclusion he.inclusion)] at hr
    cases hr
  | bound he =>
    rw [request?_inclusion _ _ (Content.inclusion?_of_isInclusion he)] at hr
    cases hr

end Spliced

/-- With texts divided into characters, the forests are related in this way. -/
def Unfolds {context : Context} (part : Part context) (now : Model) (fills : Text → Text → Prop)
    (looped : Prop) (outer : Bool) (forest forest' : Forest) : Prop :=
  ∃ a a', Split forest a ∧ Split forest' a' ∧ Spliced part now fills looped outer a a'

/-- Both includes bring in a fragment or both a document, and these are related in this way. -/
inductive Reply.Unfolds {context : Context} (part : Part context) (now : Model)
    (fills : Text → Text → Prop) (looped : Prop) : Reply → Reply → Prop
  | fragment {found found' : Forest} :
      MarkupTemplate.Unfolds part now fills looped true found found' →
      Unfolds part now fills looped (.fragment found) (.fragment found')
  | document {found found' : Forest} :
      MarkupTemplate.Unfolds part now fills looped true found found' →
      Unfolds part now fills looped (.document found) (.document found')

section

variable {context : Context} {part : Part context} {now : Model} {fills : Text → Text → Prop}
variable {looped : Prop} {outer : Bool}

theorem Unfolds.of_alike {a b : Forest} (h : Alike a b) :
    Unfolds part now fills looped outer a b := by
  obtain ⟨split, ha, hb⟩ := h
  exact ⟨split, split, ha, hb, .refl outer split⟩

/-- Outside of loops only the placeholders that are there are filled. -/
theorem Unfolds.restrict {fills' : Text → Text → Prop} {looped' : Prop} {a b : Forest}
    (h : Unfolds part now fills looped false a b) (hd : looped → looped')
    (hr : ∀ path shown, placeholderText path <:+: a.outsideLoops → fills path shown →
      fills' path shown) : Unfolds part now fills' looped' false a b := by
  obtain ⟨s, s', ha, hb, hs⟩ := h
  rw [← ha.outsideLoops] at hr
  exact ⟨s, s', ha, hb, hs.restrict hd hr⟩

/-- What an include brings in was read. -/
theorem Reply.unfolds_self (e : Element) (children : Forest) :
    Reply.Unfolds part now fills looped (context.reply e children)
      (context.reply e children) := by
  have nil : Alike .nil .nil := ⟨_, .nil, .nil⟩
  unfold Context.reply
  split
  next => exact .fragment (.of_alike nil)
  next =>
    split
    next => exact .fragment (.of_alike nil)
    next =>
      split
      next => exact .fragment (.of_alike nil)
      next =>
        split
        next => exact .document (.of_alike (alike_readForest _))
        next => exact .fragment (.of_alike (alike_readForest _))

theorem Element.ne_text (e : Element) (shown : Text) : Content.element e ≠ .text shown := by
  intro h
  cases h

namespace Unfolds

variable {next next' : Forest}

theorem text {shown shown' : Text} (h : FilledAhead fills shown shown')
    (hn : Unfolds part now fills looped outer next next') :
    Unfolds part now fills looped outer (.node (.text shown) .nil next)
      (Forest.joinText shown' next') := by
  obtain ⟨n, n', hs, hs', h'⟩ := hn
  exact ⟨_, _, .text hs, hs'.joinText shown', h'.withCharacters h⟩

theorem into {e e' : Element} {children children' : Forest}
    (hs : (Content.element e).Settles now fills (.element e')) (hl : e.isLoop = false)
    (hi : e.isInclusion = false) (hc : Unfolds part now fills looped outer children children')
    (hn : Unfolds part now fills looped outer next next') :
    Unfolds part now fills looped outer (.node (.element e) children next)
      (.node (.element e') children' next') := by
  obtain ⟨c, c', hsc, hsc', hc⟩ := hc
  obtain ⟨n, n', hsn, hsn', hn⟩ := hn
  have none : Content.inclusion? (.element e) = none := by
    simp [Content.inclusion?, Content.element?, hi]
  exact ⟨_, _, .node e.ne_text hsc hsn, .node e'.ne_text hsc' hsn', .into hl none hs hc hn⟩

theorem splice {e : Element} {content : Forest} (he : part.AskedBy e)
    (h : Unfolds part now fills looped true part.forest content)
    (hn : Unfolds part now fills looped true next next') :
    Unfolds part now fills looped true (.node (.element e) .nil next) (content ++ next') := by
  obtain ⟨c, c', hsc, hsc', hc⟩ := h
  obtain ⟨n, n', hsn, hsn', hn⟩ := hn
  exact ⟨_, _, .node e.ne_text .nil hsn, hsc'.append hsn', .splice he hsc (hc.append hn)⟩

theorem bound {e e' : Element} {children children' : Forest} (he : e.isInclusion = true)
    (he' : e'.isInclusion = true) (hc : Alike children children) (hc' : Alike children' children')
    (hr : Reply.Unfolds part now fills looped (context.reply e children)
      (context.reply e' children'))
    (hn : Unfolds part now fills looped true next next') :
    Unfolds part now fills looped true (.node (.element e) children next)
      (.node (.element e') children' next') := by
  obtain ⟨c, hsc, -⟩ := hc
  obtain ⟨c', hsc', -⟩ := hc'
  obtain ⟨n, n', hsn, hsn', hn⟩ := hn
  rw [hsc.alike.reply, hsc'.alike.reply] at hr
  refine ⟨_, _, .node e.ne_text hsc hsn, .node e'.ne_text hsc' hsn', ?_⟩
  generalize hx : context.reply e c = x at hr
  generalize hx' : context.reply e' c' = x' at hr
  cases hr with
  | fragment h =>
    obtain ⟨a, a', hsa, hsa', ha⟩ := h
    exact .bound he he' (.inl ⟨hx, hx'⟩) hsa hsa' ha hn
  | document h =>
    obtain ⟨a, a', hsa, hsa', ha⟩ := h
    exact .bound he he' (.inr ⟨hx, hx'⟩) hsa hsa' ha hn

end Unfolds

theorem Part.AskedBy.reply {e : Element} (h : part.AskedBy e) :
    context.reply e .nil = .fragment part.forest := by
  simp only [Context.reply, h.source, part.template, boundTemplate?, part.fragment, part.reads,
    Bool.false_eq_true, if_false]

variable {a a' : Forest}

/-- The first forest asks for the part, which the second one has there, or both ask for something,
with replies that are related. -/
theorem Spliced.of_request? (h : Spliced part now fills looped outer a a') (ho : outer = true)
    {e : Element} {children : Forest} (hr : a.request? = some (e, children)) :
    (children = .nil ∧ part.AskedBy e ∧ ∃ content, Split part.forest content ∧
        Spliced part now fills looped true (a.replaceFirst content) a') ∨
      ∃ e' children', a'.request? = some (e', children') ∧
        Reply.Unfolds part now fills looped (context.reply e children)
          (context.reply e' children') ∧
        ∀ c c', Spliced part now fills looped true c c' →
          Spliced part now fills looped true (a.replaceFirst c) (a'.replaceFirst c') := by
  induction h with
  | nil => cases hr
  | @same outer content inner next next' hs ih =>
    subst ho
    cases hi : content.inclusion? with
    | some other =>
      rw [request?_inclusion _ _ hi] at hr
      cases hr
      refine .inr ⟨e, children, request?_inclusion _ _ hi, Reply.unfolds_self _ _,
        fun c c' hc => ?_⟩
      rw [replaceFirst_inclusion _ _ _ hi, replaceFirst_inclusion _ _ _ hi]
      exact hc.append hs
    | none =>
      rw [request?_other _ _ hi] at hr ⊢
      cases hf : content.exposed inner.request? with
      | some found =>
        rw [hf] at hr
        cases hr
        refine .inr ⟨e, children, rfl, Reply.unfolds_self _ _, fun c c' hc => ?_⟩
        rw [replaceFirst_children _ _ _ hi hf, replaceFirst_children _ _ _ hi hf]
        cases hl : content.isElement (·.isLoop) with
        | true => cases (Content.exposed_loop hl _).symm.trans hf
        | false => exact .into hl hi (.refl content) (hc.replaceFirst inner) hs
      | none =>
        rw [hf] at hr
        rcases ih rfl hr with ⟨hnil, ha, found, hfound, hs'⟩ | ⟨e', children', hr', hu, hs'⟩
        · refine .inl ⟨hnil, ha, found, hfound, ?_⟩
          rw [replaceFirst_next _ _ _ hi hf]
          exact .same hs'
        · refine .inr ⟨e', children', hr', hu, fun c c' hc => ?_⟩
          rw [replaceFirst_next _ _ _ hi hf, replaceFirst_next _ _ _ hi hf]
          exact .same (hs' c c' hc)
  | @into outer content content' inner inner' next next' hl hi hs hc hn ihc ih =>
    subst ho
    have exposed := Content.exposed_other (α := Element × Forest) hl
    have exposed' := Content.exposed_other (α := Element × Forest) (hs.isLoop.trans hl)
    have hi' := hs.inclusion? hi
    rw [request?_other _ _ hi, exposed] at hr
    rw [request?_other _ _ hi', exposed']
    cases hf : inner.request? with
    | some found =>
      rw [hf] at hr
      cases hr
      rcases ihc rfl hf with ⟨hnil, ha, found, hfound, hs'⟩ | ⟨e', children', hr', hu, hs'⟩
      · refine .inl ⟨hnil, ha, found, hfound, ?_⟩
        rw [replaceFirst_children _ _ _ hi ((exposed _).trans hf)]
        exact .into hl hi hs hs' hn
      · rw [hr']
        refine .inr ⟨e', children', rfl, hu, fun c c' hcc => ?_⟩
        rw [replaceFirst_children _ _ _ hi ((exposed _).trans hf),
          replaceFirst_children _ _ _ hi' ((exposed' _).trans hr')]
        exact .into hl hi hs (hs' c c' hcc) hn
    | none =>
      rw [hf] at hr
      have hf' := (hc.of_request?_eq_none hf).1
      rw [hf']
      rcases ih rfl hr with ⟨hnil, ha, found, hfound, hs'⟩ | ⟨e', children', hr', hu, hs'⟩
      · refine .inl ⟨hnil, ha, found, hfound, ?_⟩
        rw [replaceFirst_next _ _ _ hi ((exposed _).trans hf)]
        exact .into hl hi hs hc hs'
      · refine .inr ⟨e', children', hr', hu, fun c c' hcc => ?_⟩
        rw [replaceFirst_next _ _ _ hi ((exposed _).trans hf),
          replaceFirst_next _ _ _ hi' ((exposed' _).trans hf')]
        exact .into hl hi hs hc (hs' c c' hcc)
  | loop hl hd hn ih =>
    subst ho
    have hi := Content.inclusion?_of_isLoop hl
    have exposed := Content.exposed_loop (α := Element × Forest) hl
    rw [request?_other _ _ hi, exposed] at hr ⊢
    rcases ih rfl hr with ⟨hnil, ha, found, hfound, hs'⟩ | ⟨e', children', hr', hu, hs'⟩
    · refine .inl ⟨hnil, ha, found, hfound, ?_⟩
      rw [replaceFirst_next _ _ _ hi (exposed _)]
      exact .loop hl hd hs'
    · refine .inr ⟨e', children', hr', hu, fun c c' hc => ?_⟩
      rw [replaceFirst_next _ _ _ hi (exposed _), replaceFirst_next _ _ _ hi (exposed _)]
      exact .loop hl hd (hs' c c' hc)
  | @fill _ path shown next next' hf hne hp hn ih =>
    subst ho
    have brace (c : Forest) : (Forest.node (.text ['{']) .nil
        (characters (path ++ ['}']) next)).replaceFirst c =
          .node (.text ['{']) .nil (characters (path ++ ['}']) (next.replaceFirst c)) :=
      replaceFirst_characters (placeholderText path) next c
    change (characters (placeholderText path) next).request? = _ at hr
    rw [request?_characters] at hr ⊢
    rcases ih rfl hr with ⟨hnil, ha, found, hfound, hs'⟩ | ⟨e', children', hr', hu, hs'⟩
    · refine .inl ⟨hnil, ha, found, hfound, ?_⟩
      rw [brace]
      exact .fill hf hne hp hs'
    · refine .inr ⟨e', children', hr', hu, fun c c' hc => ?_⟩
      rw [brace, replaceFirst_characters]
      exact .fill hf hne hp (hs' c c' hc)
  | splice he hc hs =>
    have hi := Content.inclusion?_of_isInclusion he.inclusion
    rw [request?_inclusion _ _ hi] at hr
    cases hr
    refine .inl ⟨rfl, he, _, hc, ?_⟩
    rw [replaceFirst_inclusion _ _ _ hi]
    exact hs
  | bound he he' hr' hfound hfound' hs hn =>
    have hi := Content.inclusion?_of_isInclusion he
    have hi' := Content.inclusion?_of_isInclusion he'
    rw [request?_inclusion _ _ hi] at hr
    cases hr
    have unfolds : Unfolds part now fills looped true _ _ := ⟨_, _, hfound, hfound', hs⟩
    refine .inr ⟨_, _, request?_inclusion _ _ hi', ?_, fun c c' hc => ?_⟩
    · rcases hr' with ⟨hr, hr'⟩ | ⟨hr, hr'⟩
      · rw [hr, hr']
        exact .fragment unfolds
      · rw [hr, hr']
        exact .document unfolds
    · rw [replaceFirst_inclusion _ _ _ hi, replaceFirst_inclusion _ _ _ hi']
      exact hc.append hn

end

end MarkupTemplate
