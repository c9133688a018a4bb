import MarkupTemplate.Proofs.Template.ArgumentBinding
import Mathlib.Data.List.Induction
import Mathlib.Data.List.Perm.Subperm
import Mathlib.Data.List.Permutation
import Mathlib.Data.List.Sublists

namespace MarkupTemplate

/-- Of two placeholders in a text, one stands before the other or both are the same. -/
theorem around_eq_around {path other before after first last : Text} (h : IsPath path)
    (ho : IsPath other) (whole : before ++ (placeholderText path ++ after) =
      first ++ (placeholderText other ++ last)) :
    (∃ between, before = first ++ (placeholderText other ++ between)) ∨
      (first = before ∧ other = path) ∨
      ∃ between, first = before ++ (placeholderText path ++ between) ∧
        after = between ++ (placeholderText other ++ last) := by
  have source : ∀ text, (fragments text).flatMap Fragment.source = text :=
    Fragment.flatMap_source_fragments
  have split : fragments before ++ .placeholder path :: fragments after =
      fragments first ++ .placeholder other :: fragments last := by
    rw [← fragments_around h, ← fragments_around ho, whole]
  rcases List.append_eq_append_iff.mp split with ⟨list, hf, hl⟩ | ⟨list, hb, hl⟩ <;>
    rcases List.cons_eq_append_iff.mp hl with ⟨rfl, he⟩ | ⟨list', rfl, he⟩
  · have same : first = before := by rw [← source first, hf, List.append_nil, source]
    exact .inr (.inl ⟨same, Fragment.placeholder.inj (List.cons.inj he).1⟩)
  · refine .inr (.inr ⟨list'.flatMap Fragment.source, ?_, ?_⟩)
    · rw [← source first, hf, List.flatMap_append, source, List.flatMap_cons]
      rfl
    · rw [← source after, he, List.flatMap_append, List.flatMap_cons, source]
      rfl
  · have same : first = before := by rw [← source before, hb, List.append_nil, source]
    exact .inr (.inl ⟨same, (Fragment.placeholder.inj (List.cons.inj he).1).symm⟩)
  · refine .inl ⟨list'.flatMap Fragment.source, ?_⟩
    rw [← source before, hb, List.flatMap_append, source, List.flatMap_cons]
    rfl

namespace Argument

/-- The placeholder is one of those that the argument is bound to. -/
def owns (a : Argument) (path : Text) : Bool :=
  sameFold path (lowerText a.name)

/-- The names of the arguments differ in more than case. -/
def Apart (a b : Argument) : Prop :=
  sameFold (lowerText a.name) (lowerText b.name) = false

instance (a b : Argument) : Decidable (a.Apart b) :=
  inferInstanceAs (Decidable (sameFold (lowerText a.name) (lowerText b.name) = false))

/-- No placeholder of the argument stands in the text. -/
def Foreign (a : Argument) (text : Text) : Prop :=
  ∀ before path after, text = before ++ (placeholderText path ++ after) → a.owns path = false

/-- The text after all arguments are put in, one after the other. -/
def bindInTurn (args : List Argument) (template : Text) : Text :=
  args.foldl (fun text a => a.bind text) template

end Argument

/-- What a fragment of a template becomes when the arguments are put in. -/
def Fragment.fillIn (args : List Argument) : Fragment → Text
  | .plain c => [c]
  | .placeholder path =>
    match args.find? (·.owns path) with
    | some a => a.value
    | none => placeholderText path

namespace Argument

/-- The template with all its placeholders replaced at once. -/
def bindAtOnce (args : List Argument) (template : Text) : Text :=
  (fragments template).flatMap (Fragment.fillIn args)

/-- With the chosen arguments put in, the other one finds a placeholder that is none of the
template's, so that the contents put in have a part in it. Not counted is one that is written as the
content which would replace it. -/
def Captures (chosen : List Argument) (a : Argument) (template : Text) : Prop :=
  ∃ before path after, bindAtOnce chosen template = before ++ (placeholderText path ++ after) ∧
    a.owns path = true ∧ placeholderText path ≠ a.value ∧
    ∀ own rest, template = own ++ (placeholderText path ++ rest) → bindAtOnce chosen own ≠ before

/-- None of the arguments captures what some others put in. -/
def Uncaptured (args : List Argument) (template : Text) : Prop :=
  ∀ chosen a, (a :: chosen).Subperm args → ¬ Captures chosen a template

variable {a b : Argument} {args chosen : List Argument} {path before after text : Text}

theorem isPath_of_owns (named : IsPath a.name) (h : a.owns path = true) : IsPath path :=
  named.lowerText.of_sameFold h

theorem sameFold_comm (first second : Text) : sameFold first second = sameFold second first :=
  Bool.beq_comm

theorem Apart.symm (h : a.Apart b) : b.Apart a :=
  (sameFold_comm _ _).trans h

theorem Apart.not_owns (h : a.Apart b) (ho : a.owns path = true) : b.owns path = false := by
  rw [owns, sameFold_comm, sameFold_congr ho, sameFold_comm]
  exact h

theorem bind_around (named : IsPath a.name) (h : a.owns path = true) (before after : Text) :
    a.bind (before ++ (placeholderText path ++ after)) =
      a.bind before ++ (a.value ++ a.bind after) :=
  (binds_bindArgument named.lowerText a.value).replaces before path after h

theorem bind_of_foreign (named : IsPath a.name) (h : a.Foreign text) : a.bind text = text :=
  (binds_bindArgument named.lowerText a.value).keeps text h

theorem bindAtOnce_around (h : IsPath path) (args : List Argument) (before after : Text) :
    bindAtOnce args (before ++ (placeholderText path ++ after)) =
      bindAtOnce args before ++
        ((Fragment.placeholder path).fillIn args ++ bindAtOnce args after) := by
  rw [bindAtOnce, fragments_around h, List.flatMap_append, List.flatMap_cons]
  rfl

theorem fillIn_own (h : a.owns path = true) :
    (Fragment.placeholder path).fillIn (a :: chosen) = a.value := by
  simp [Fragment.fillIn, h]

theorem fillIn_other (h : a.owns path = false) :
    (Fragment.placeholder path).fillIn (a :: chosen) =
      (Fragment.placeholder path).fillIn chosen := by
  simp [Fragment.fillIn, h]

theorem fillIn_none (h : ∀ b ∈ chosen, b.owns path = false) :
    (Fragment.placeholder path).fillIn chosen = placeholderText path := by
  have none : chosen.find? (·.owns path) = none :=
    List.find?_eq_none.mpr fun b hb => by simp [h b hb]
  simp [Fragment.fillIn, none]

/-- At most one of the arguments owns a placeholder, wherever it stands among them. -/
theorem fillIn_mem (apart : args.Pairwise Apart) (h : a ∈ args) (ho : a.owns path = true) :
    (Fragment.placeholder path).fillIn args = a.value := by
  induction args with
  | nil => cases h
  | cons b rest ih =>
    obtain ⟨first, later⟩ := List.pairwise_cons.mp apart
    rcases List.mem_cons.mp h with rfl | hm
    · exact fillIn_own ho
    · rw [fillIn_other ((first a hm).symm.not_owns ho), ih later hm]

theorem bindAtOnce_congr {others : List Argument}
    (h : ∀ fragment ∈ fragments text, fragment.fillIn args = fragment.fillIn others) :
    bindAtOnce args text = bindAtOnce others text := by
  rw [bindAtOnce, bindAtOnce, List.flatMap_def, List.flatMap_def, List.map_congr_left h]

theorem bindAtOnce_perm {order : List Argument} (apart : args.Pairwise Apart)
    (perm : order.Perm args) (text : Text) : bindAtOnce order text = bindAtOnce args text := by
  have apart' : order.Pairwise Apart := (perm.pairwise_iff Apart.symm).mpr apart
  refine bindAtOnce_congr fun fragment _ => ?_
  cases fragment with
  | plain c => rfl
  | placeholder path =>
    by_cases h : ∃ a ∈ args, a.owns path = true
    · obtain ⟨a, ha, ho⟩ := h
      rw [fillIn_mem apart ha ho, fillIn_mem apart' (perm.mem_iff.mpr ha) ho]
    · have none : ∀ a ∈ args, a.owns path = false := by simpa using h
      rw [fillIn_none none, fillIn_none fun a ha => none a (perm.mem_iff.mp ha)]

theorem bindAtOnce_of_foreign (h : a.Foreign text) :
    bindAtOnce (a :: chosen) text = bindAtOnce chosen text := by
  refine bindAtOnce_congr fun fragment hf => ?_
  cases fragment with
  | plain c => rfl
  | placeholder path =>
    obtain ⟨earlier, later, hs⟩ := List.append_of_mem hf
    obtain ⟨o, rfl, -⟩ := exists_occurrence hs
    exact fillIn_other (h o.before o.path o.after o.whole.symm)

theorem bindAtOnce_nil (text : Text) : bindAtOnce [] text = text := by
  have same : ∀ fragment : Fragment, fragment.fillIn [] = fragment.source := by
    intro fragment
    cases fragment <;> rfl
  rw [bindAtOnce, funext same, Fragment.flatMap_source_fragments]

/-- A text with a placeholder of the argument has a first one. -/
theorem exists_first (h : ¬ a.Foreign text) :
    ∃ before path after, text = before ++ (placeholderText path ++ after) ∧ a.owns path = true ∧
      a.Foreign before := by
  obtain ⟨before, path, after, whole, owned⟩ : ∃ before path after,
      text = before ++ (placeholderText path ++ after) ∧ a.owns path = true := by
    simpa [Foreign] using h
  induction hn : before.length using Nat.strongRecOn generalizing before path after with
  | ind n ih =>
    subst hn
    by_cases hb : a.Foreign before
    · exact ⟨before, path, after, whole, owned, hb⟩
    · obtain ⟨first, other, rest, hf, ho⟩ : ∃ first other rest,
          before = first ++ (placeholderText other ++ rest) ∧ a.owns other = true := by
        simpa [Foreign] using hb
      have shorter : first.length < before.length := by
        simp [hf, placeholderText]
      refine ih first.length shorter first other (rest ++ (placeholderText path ++ after)) ?_ ho rfl
      rw [whole, hf]
      simp

/-- A text is free of the argument's placeholders, or it goes on after the first one. -/
theorem owned_induction {motive : Text → Prop} (a : Argument)
    (foreign : ∀ text, a.Foreign text → motive text)
    (owned : ∀ before path after, a.Foreign before → a.owns path = true → motive after →
      motive (before ++ (placeholderText path ++ after))) (text : Text) : motive text := by
  induction hn : text.length using Nat.strongRecOn generalizing text with
  | ind n ih =>
    subst hn
    by_cases h : a.Foreign text
    · exact foreign text h
    · obtain ⟨before, path, after, rfl, ho, hb⟩ := exists_first h
      refine owned before path after hb ho (ih after.length ?_ after rfl)
      simp [placeholderText]
      omega

/-- The second text is as long as the first one at least, or at most, as it is for the argument's
content and its placeholder. -/
def Sided (a : Argument) (first second : Text) : Prop :=
  if (lowerText a.name).length + 2 ≤ a.value.length then first.length ≤ second.length
  else second.length ≤ first.length

theorem Sided.refl (a : Argument) (text : Text) : a.Sided text text := by
  simp [Sided]

theorem Sided.append {first second first' second' : Text} (h : a.Sided first second)
    (h' : a.Sided first' second') : a.Sided (first ++ first') (second ++ second') := by
  by_cases side : (lowerText a.name).length + 2 ≤ a.value.length <;>
    simp only [Sided, side, if_true, if_false, List.length_append] at h h' ⊢ <;> omega

/-- Texts that differ on one side only are equal part by part if they are equal. -/
theorem Sided.append_inj {first second first' second' : Text} (h : a.Sided first second)
    (h' : a.Sided first' second') (same : first ++ first' = second ++ second') :
    first = second ∧ first' = second' := by
  have lengths : first.length + first'.length = second.length + second'.length := by
    simpa using congrArg List.length same
  refine List.append_inj same ?_
  by_cases side : (lowerText a.name).length + 2 ≤ a.value.length <;>
    simp only [Sided, side, if_true, if_false] at h h' <;> omega

theorem sided_placeholderText (h : a.owns path = true) :
    a.Sided (placeholderText path) a.value := by
  have length : (placeholderText path).length = (lowerText a.name).length + 2 := by
    simp [placeholderText, length_of_sameFold h]
  unfold Sided
  split <;> omega

theorem sided_bind (named : IsPath a.name) (text : Text) : a.Sided text (a.bind text) := by
  induction text using owned_induction a with
  | foreign text h =>
    rw [bind_of_foreign named h]
    exact .refl a text
  | owned before path after hb ho ih =>
    rw [bind_around named ho, bind_of_foreign named hb]
    exact (Sided.refl a before).append ((sided_placeholderText ho).append ih)

theorem bind_eq_self_iff (named : IsPath a.name) :
    a.bind text = text ↔ ∀ before path after, text = before ++ (placeholderText path ++ after) →
      a.owns path = true → placeholderText path = a.value := by
  constructor
  · rintro same before path after rfl ho
    rw [bind_around named ho] at same
    have parts := (sided_bind named before).append_inj
      ((sided_placeholderText ho).append (sided_bind named after)) same.symm
    exact ((sided_placeholderText ho).append_inj (sided_bind named after) parts.2).1
  · intro same
    induction text using owned_induction a with
    | foreign text h => exact bind_of_foreign named h
    | owned before path after hb ho ih =>
      have rest : a.bind after = after := by
        refine ih fun first other last he => same (before ++ (placeholderText path ++ first)) other
          last ?_
        simp [he]
      rw [bind_around named ho, bind_of_foreign named hb, rest, ← same before path after rfl ho]

theorem captures_of_foreign (h : a.Foreign text) :
    Captures chosen a text ↔ ∃ before path after,
      bindAtOnce chosen text = before ++ (placeholderText path ++ after) ∧ a.owns path = true ∧
        placeholderText path ≠ a.value := by
  constructor
  · rintro ⟨before, path, after, whole, ho, hne, -⟩
    exact ⟨before, path, after, whole, ho, hne⟩
  · rintro ⟨before, path, after, whole, ho, hne⟩
    refine ⟨before, path, after, whole, ho, hne, fun own rest he => ?_⟩
    cases ho.symm.trans (h own path rest he)

/-- A placeholder of the argument is left by all others. -/
theorem bindAtOnce_owned (named : IsPath a.name) (apart : ∀ b ∈ chosen, a.Apart b)
    (ho : a.owns path = true) (before after : Text) :
    bindAtOnce chosen (before ++ (placeholderText path ++ after)) =
      bindAtOnce chosen before ++ (placeholderText path ++ bindAtOnce chosen after) := by
  rw [bindAtOnce_around (isPath_of_owns named ho), fillIn_none fun b hb => (apart b hb).not_owns ho]

/-- No placeholder of the argument stands before the first one. -/
theorem Foreign.before_around {own other rest : Text} (named : IsPath a.name)
    (hb : a.Foreign before) (ho : a.owns path = true) (hother : a.owns other = true)
    (whole : before ++ (placeholderText path ++ after) = own ++ (placeholderText other ++ rest)) :
    own = before ∨ ∃ between, own = before ++ (placeholderText path ++ between) ∧
      after = between ++ (placeholderText other ++ rest) := by
  rcases around_eq_around (isPath_of_owns named ho) (isPath_of_owns named hother) whole with
    ⟨between, he⟩ | ⟨same, -⟩ | later
  · cases hother.symm.trans (hb own other between he)
  · exact .inl same
  · exact .inr later

/-- What is captured stands before or after a placeholder of the argument's own. -/
theorem captures_owned (named : IsPath a.name) (apart : ∀ b ∈ chosen, a.Apart b)
    (hb : a.Foreign before) (ho : a.owns path = true) :
    Captures chosen a (before ++ (placeholderText path ++ after)) ↔
      Captures chosen a before ∨ Captures chosen a after := by
  have put := bindAtOnce_owned named apart ho before
  have isPath : ∀ {other}, a.owns other = true → IsPath other := isPath_of_owns named
  constructor
  · -- what is found stands before the own placeholder, is this one, or stands after it
    rintro ⟨first, other, last, whole, hother, hne, none⟩
    rw [put] at whole
    rcases around_eq_around (isPath ho) (isPath hother) whole with
      ⟨between, he⟩ | ⟨rfl, rfl⟩ | ⟨between, rfl, he⟩
    · exact .inl ((captures_of_foreign hb).mpr ⟨first, other, between, he, hother, hne⟩)
    · exact absurd rfl (none before after rfl)
    · refine .inr ⟨between, other, last, he, hother, hne, fun own rest hs he => ?_⟩
      refine none (before ++ (placeholderText path ++ own)) rest (by simp [hs]) ?_
      rw [put, he]
  · -- no placeholder of the whole template becomes what is found in a part of it
    rintro (⟨first, other, last, whole, hother, hne, -⟩ |
      ⟨first, other, last, whole, hother, hne, none⟩)
    · refine ⟨first, other, last ++ (placeholderText path ++ bindAtOnce chosen after), ?_, hother,
        hne, fun own rest hs he => ?_⟩
      · rw [put, whole]
        simp
      · have length := congrArg List.length whole
        rcases hb.before_around named ho hother hs with rfl | ⟨between, rfl, -⟩
        · simp [he, placeholderText] at length
        · rw [put] at he
          have length' := congrArg List.length he
          simp [placeholderText] at length length'
          omega
    · refine ⟨bindAtOnce chosen before ++ (placeholderText path ++ first), other, last, ?_, hother,
        hne, fun own rest hs he => ?_⟩
      · rw [put, whole]
        simp
      · rcases hb.before_around named ho hother hs with rfl | ⟨between, rfl, hrest⟩
        · simp [placeholderText] at he
        · rw [put] at he
          exact none between rest hrest (by simpa using he)

theorem bind_bindAtOnce_of_foreign (named : IsPath a.name) (h : a.Foreign text) :
    a.Sided (bindAtOnce (a :: chosen) text) (a.bind (bindAtOnce chosen text)) ∧
      (a.bind (bindAtOnce chosen text) = bindAtOnce (a :: chosen) text ↔
        ¬ Captures chosen a text) := by
  rw [bindAtOnce_of_foreign h, bind_eq_self_iff named, captures_of_foreign h]
  exact ⟨sided_bind named _, by push Not; rfl⟩

/-- Putting in one more argument gives what putting it in at once with the others gives, exactly if
it captures nothing that they put in. -/
theorem bind_bindAtOnce (named : IsPath a.name) (apart : ∀ b ∈ chosen, a.Apart b)
    (template : Text) :
    a.Sided (bindAtOnce (a :: chosen) template) (a.bind (bindAtOnce chosen template)) ∧
      (a.bind (bindAtOnce chosen template) = bindAtOnce (a :: chosen) template ↔
        ¬ Captures chosen a template) := by
  induction template using owned_induction a with
  | foreign text h => exact bind_bindAtOnce_of_foreign named h
  | owned before path after hb ho ih =>
    obtain ⟨sided, same⟩ := ih
    obtain ⟨sided', same'⟩ := @bind_bindAtOnce_of_foreign a chosen before named hb
    rw [bindAtOnce_around (isPath_of_owns named ho), fillIn_own ho,
      bindAtOnce_owned named apart ho, bind_around named ho, captures_owned named apart hb ho,
      not_or, ← same, ← same']
    have inner := (Sided.refl a a.value).append sided
    refine ⟨sided'.append inner, fun he => ?_, fun ⟨he, he'⟩ => by rw [he, he']⟩
    obtain ⟨hbefore, hinner⟩ := sided'.append_inj inner he.symm
    exact ⟨hbefore.symm, ((Sided.refl a a.value).append_inj sided hinner).2.symm⟩

theorem Uncaptured.mono {template : Text} {fewer : List Argument} (h : Uncaptured args template)
    (sub : fewer.Subperm args) : Uncaptured fewer template :=
  fun chosen a hs => h chosen a (hs.trans sub)

theorem Apart.of_subperm (apart : args.Pairwise Apart) (sub : chosen.Subperm args) :
    chosen.Pairwise Apart := by
  obtain ⟨part, perm, sublist⟩ := sub
  exact (perm.pairwise_iff Apart.symm).mp (apart.sublist sublist)

theorem bindInTurn_append (args : List Argument) (a : Argument) (template : Text) :
    bindInTurn (args ++ [a]) template = a.bind (bindInTurn args template) :=
  List.foldl_append

theorem bindInTurn_of_uncaptured {template : Text} (named : ∀ a ∈ args, IsPath a.name)
    (apart : args.Pairwise Apart) (h : Uncaptured args template) :
    bindInTurn args template = bindAtOnce args template := by
  induction args using List.reverseRecOn with
  | nil => exact (bindAtOnce_nil template).symm
  | append_singleton args a ih =>
    have perm : (a :: args).Perm (args ++ [a]) := (List.perm_append_singleton a args).symm
    have part : args.Subperm (args ++ [a]) := (List.sublist_append_left args [a]).subperm
    obtain ⟨others, apart'⟩ := List.pairwise_cons.mp (Apart.of_subperm apart perm.subperm)
    rw [bindInTurn_append, ih (fun b hb => named b (part.subset hb)) apart' (h.mono part),
      ← bindAtOnce_perm apart perm]
    exact (bind_bindAtOnce (named a (by simp)) others template).2.mpr (h args a perm.subperm)

/-- What putting in the arguments one after the other gives depends on which are put in, not on
their order, exactly if none captures what others put in. -/
theorem bindInTurn_iff_uncaptured {template : Text} (named : ∀ a ∈ args, IsPath a.name)
    (apart : args.Pairwise Apart) :
    (∀ chosen : List Argument, chosen.Subperm args →
      bindInTurn chosen template = bindAtOnce chosen template) ↔ Uncaptured args template := by
  constructor
  · intro atOnce chosen a sub
    obtain ⟨others, -⟩ := List.pairwise_cons.mp (Apart.of_subperm apart sub)
    have perm : (chosen ++ [a]).Perm (a :: chosen) := List.perm_append_singleton a chosen
    have without : chosen.Subperm args := (List.sublist_cons_self a chosen).subperm.trans sub
    refine (bind_bindAtOnce (named a (sub.subset (List.mem_cons_self ..))) others template).2.mp ?_
    rw [← atOnce chosen without, ← bindInTurn_append, atOnce _ (perm.subperm.trans sub),
      bindAtOnce_perm (Apart.of_subperm apart sub) perm]
  · intro h chosen sub
    exact bindInTurn_of_uncaptured (fun a ha => named a (sub.subset ha))
      (Apart.of_subperm apart sub) (h.mono sub)

/-- Some of the arguments, in every order. -/
def choices (args : List Argument) : List (List Argument) :=
  args.sublists'.flatMap List.permutations'

theorem mem_choices_iff : chosen ∈ choices args ↔ chosen.Subperm args := by
  simp only [choices, List.mem_flatMap, List.mem_sublists', List.mem_permutations']
  constructor
  · rintro ⟨part, sublist, perm⟩
    exact ⟨part, perm.symm, sublist⟩
  · rintro ⟨part, perm, sublist⟩
    exact ⟨part, sublist, perm.symm⟩

/-- Whether anything is captured can be found out by trying. -/
theorem uncaptured_iff_choices {template : Text} (named : ∀ a ∈ args, IsPath a.name)
    (apart : args.Pairwise Apart) : Uncaptured args template ↔
      ∀ chosen ∈ choices args, bindInTurn chosen template = bindAtOnce chosen template := by
  rw [← bindInTurn_iff_uncaptured named apart]
  simp only [mem_choices_iff]

/-- An include whose template is loaded and whose children are arguments of different names: any of
them in any order give what they give at once, exactly if none captures what others put in. If so,
the order of the children is of no consequence for what comes of the include. -/
theorem bindArguments_at_once_iff {context : Context} {place : Place} {source template : Text}
    {args : List Argument}
    (asked : place.content.element?.bind (·.setting? "src".toList) = some source)
    (loaded : context.template source = .ok template) (named : ∀ a ∈ args, IsPath a.name)
    (apart : args.Pairwise Apart) :
    ((∀ chosen : List Argument, chosen.Subperm args → ∀ run,
      bindArguments source (forest chosen) run template =
        (run, some (bindAtOnce chosen template))) ↔ Uncaptured args template) ∧
    (Uncaptured args template → ∀ run order, order.Perm args →
      resolveInclude context run { place with children := forest order } =
        resolveInclude context run { place with children := forest args }) := by
  have inTurn : ∀ list run, bindArguments source (forest list) run template =
      (run, some (bindInTurn list template)) :=
    fun list run => bindArguments_forest source list run template
  have iff : (∀ chosen : List Argument, chosen.Subperm args →
      bindInTurn chosen template = bindAtOnce chosen template) ↔ Uncaptured args template :=
    bindInTurn_iff_uncaptured named apart
  refine ⟨⟨fun h => iff.mp fun chosen sub => ?_, fun h chosen sub run => ?_⟩,
    fun h run order perm => ?_⟩
  · have given := (inTurn chosen (.start context (.ofFields []))).symm.trans (h chosen sub _)
    exact Option.some.inj (Prod.mk.inj given).2
  · rw [inTurn, iff.mpr h chosen sub]
  · have same : bindInTurn order template = bindInTurn args template := by
      rw [iff.mpr h order perm.subperm, iff.mpr h args (List.Subperm.refl args),
        bindAtOnce_perm apart perm]
    simp only [resolveInclude, asked, loaded, inTurn, same]
    rfl

/-- An include of a template with arguments, with nothing around it. -/
def includeOf (source : Text) (args : List Argument) : Place :=
  ⟨[], .element ⟨"include".toList, [⟨"src".toList, .quoted .double source⟩], .normal⟩, forest args,
    .nil⟩

/-- What comes of an include of the template without data. -/
def included (template : Text) (args : List Argument) : Run × Forest :=
  resolveInclude ⟨fun _ => .ok template, 1, .concise⟩ ⟨.ofFields [], .spent, .concise, [], []⟩
    (includeOf "p".toList args)

/-- A template with two placeholders. -/
def greeting : Text :=
  "\x7bHail\x7d \x7bUSER\x7d".toList

/-- Arguments for both, with a placeholder that neither is bound to. -/
def greeted : List Argument :=
  [ofText "user".toList "\x7bname\x7d".toList, ofText "hail".toList "Hi".toList]

/-- A placeholder in what is put in stays, if no other argument has its name. -/
theorem bindArguments_at_once_iff_greeted :
    Uncaptured greeted greeting ∧
      included greeting greeted.reverse = included greeting greeted ∧
      (included greeting greeted).2.markup = "Hi \x7bname\x7d".toList := by
  have named : ∀ a ∈ greeted, IsPath a.name := by
    simp only [greeted, List.forall_mem_cons]
    exact ⟨⟨by decide, List.all_eq_true.mp (by decide)⟩, ⟨by decide, List.all_eq_true.mp (by decide)⟩,
      by simp⟩
  have apart : greeted.Pairwise Apart := by decide +kernel
  have asked : (includeOf "p".toList []).content.element?.bind (·.setting? "src".toList) =
      some "p".toList := by decide
  have loaded : (⟨fun _ => .ok greeting, 1, .concise⟩ : Context).template "p".toList =
      .ok greeting := rfl
  have none : Uncaptured greeted greeting :=
    (uncaptured_iff_choices named apart).mpr (by decide +kernel)
  have same := (bindArguments_at_once_iff asked loaded named apart).2 none
  exact ⟨none, same _ _ (List.reverse_perm greeted), by decide +kernel⟩

/-- A placeholder in what is put in is replaced, if an argument behind has its name. -/
theorem included_reverse_ne :
    [ofText "a".toList "\x7bb\x7d".toList, ofText "b".toList "x".toList].Pairwise Apart ∧
      (included "\x7ba\x7d".toList
        [ofText "a".toList "\x7bb\x7d".toList, ofText "b".toList "x".toList]).2.markup =
          "x".toList ∧
      (included "\x7ba\x7d".toList
        [ofText "b".toList "x".toList, ofText "a".toList "\x7bb\x7d".toList]).2.markup =
          "\x7bb\x7d".toList := by
  decide +kernel

end Argument

end MarkupTemplate
