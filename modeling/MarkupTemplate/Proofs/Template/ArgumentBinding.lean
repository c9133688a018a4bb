import MarkupTemplate.Proofs.Text.CaseFolding
import MarkupTemplate.Proofs.Template.Placeholders
import MarkupTemplate.Proofs.Text.WordEnds

namespace MarkupTemplate

theorem fragments_append_brace (a b : Text) :
    fragments (a ++ '{' :: b) = fragments a ++ fragments ('{' :: b) := by
  fun_induction fragments a with
  | case1 => rfl
  | case2 rest path after hc _ ih =>
    have closed : ∃ c ∈ rest, notBrace c = false :=
      ⟨'}', by rw [← append_of_closedBrace? hc]; simp, rfl⟩
    have found := closedBrace?_append closed ('{' :: b)
    rw [hc] at found
    rw [List.cons_append, fragments_placeholder found, ih, List.cons_append]
  | case3 rest hc ih =>
    have opened : closedBrace? (rest ++ '{' :: b) = none := by
      by_cases brace : ∃ c ∈ rest, notBrace c = false
      · rw [closedBrace?_append brace, hc]
        rfl
      · refine closedBrace?_brace (fun c hc => ?_) b
        by_cases hb : notBrace c = true
        · exact hb
        · exact absurd ⟨c, hc, by simpa using hb⟩ brace
    rw [List.cons_append, fragments_brace opened, ih, List.cons_append]
  | case4 c rest hc ih => rw [List.cons_append, fragments_plain hc, ih, List.cons_append]

/-- A text that can stand in braces as a placeholder. -/
structure IsPath (path : Text) : Prop where
  ne_nil : path ≠ []
  notBrace : ∀ c ∈ path, notBrace c = true

/-- A placeholder is a fragment wherever it stands in a text. -/
theorem fragments_around {path : Text} (h : IsPath path) (before after : Text) :
    fragments (before ++ (placeholderText path ++ after)) =
      fragments before ++ .placeholder path :: fragments after := by
  have found := fragments_placeholder (closedBrace?_path h.ne_nil h.notBrace after)
  have whole : placeholderText path ++ after = '{' :: (path ++ '}' :: after) := by
    simp [placeholderText]
  rw [whole, fragments_append_brace, found]

theorem IsPath.of_sameFold {path name : Text} (h : IsPath name) (same : sameFold path name = true) :
    IsPath path where
  ne_nil := by
    have length := length_of_sameFold same
    have positive := List.length_pos_iff.mpr h.ne_nil
    exact List.length_pos_iff.mp (by omega)
  notBrace := notBrace_of_sameFold same h.notBrace

theorem IsPath.lowerText {name : Text} (h : IsPath name) : IsPath (lowerText name) where
  ne_nil := by
    rw [lowerText_eq_lowerIn]
    exact fun he => h.ne_nil (lowerIn_eq_nil_iff.mp he)
  notBrace c hc := by
    have braces : ['{', '}'].all isCaseless = true := by decide
    have kept : ∀ d ∈ ['{', '}'], c ≠ d := by
      rintro d hd rfl
      rw [lowerText_eq_lowerIn, mem_lowerIn_iff (List.all_eq_true.mp braces c hd)] at hc
      have letter := h.notBrace c hc
      have brace : ['{', '}'].all (!MarkupTemplate.notBrace ·) = true := rfl
      have marked := List.all_eq_true.mp brace c hd
      rw [letter] at marked
      cases marked
    have opening := kept '{' (by simp)
    have closing := kept '}' (by simp)
    simp [MarkupTemplate.notBrace, opening, closing]

theorem sameFold_congr {a b : Text} (h : sameFold a b = true) (text : Text) :
    sameFold text a = sameFold text b := by
  rw [sameFold, sameFold, beq_iff_eq.mp h]

/-- A placeholder holds no other one. -/
theorem IsPath.eq_of_around {path other before after : Text} (h : IsPath path) (ho : IsPath other)
    (whole : placeholderText path = before ++ (placeholderText other ++ after)) :
    other = path := by
  have one : fragments (placeholderText path) = [.placeholder path] := by
    simpa [fragments] using fragments_around h [] []
  rw [whole, fragments_around ho] at one
  rcases List.append_eq_singleton_iff.mp one with ⟨-, same⟩ | ⟨-, impossible⟩
  · exact Fragment.placeholder.inj (List.cons.inj same).1
  · cases impossible

theorem afterPlaceholder?_eq_some_iff {name text after : Text} :
    afterPlaceholder? name text = some after ↔
      ∃ path, sameFold path name = true ∧ text = '{' :: (path ++ '}' :: after) := by
  constructor
  · intro h
    unfold afterPlaceholder? at h
    split at h
    next rest =>
      split at h
      next later hdrop =>
        split at h
        next same =>
          refine ⟨rest.take name.length, same, ?_⟩
          rw [← Option.some.inj h, ← hdrop, List.take_append_drop]
        next => cases h
      next => cases h
    next => cases h
  · rintro ⟨path, same, rfl⟩
    have length := length_of_sameFold same
    have htake : (path ++ '}' :: after).take name.length = path := by rw [← length, List.take_left]
    have hdrop : (path ++ '}' :: after).drop name.length = '}' :: after := by
      rw [← length, List.drop_left]
    simp only [afterPlaceholder?, hdrop, htake, same, if_true]

theorem bindArgument_found {name text after : Text} (h : afterPlaceholder? name text = some after)
    (value : Text) : bindArgument name value text = value ++ bindArgument name value after := by
  cases text with
  | nil => cases h
  | cons c rest =>
    rw [bindArgument]
    split
    next he =>
      cases h.symm.trans he
      rfl
    next he => cases h.symm.trans he

theorem bindArgument_other {name rest : Text} {c : Char}
    (h : afterPlaceholder? name (c :: rest) = none) (value : Text) :
    bindArgument name value (c :: rest) = c :: bindArgument name value rest := by
  rw [bindArgument]
  split
  next he => cases h.symm.trans he
  next => rfl

/-- What a fragment becomes when the placeholders of a name are bound. -/
def Fragment.bind (name value : Text) : Fragment → Text
  | .plain c => [c]
  | .placeholder path => if sameFold path name then value else placeholderText path

theorem bindArgument_append {name a : Text} (h : '{' ∉ a) (value b : Text) :
    bindArgument name value (a ++ b) = a ++ bindArgument name value b := by
  induction a with
  | nil => rfl
  | cons c a ih =>
    have none : afterPlaceholder? name (c :: (a ++ b)) = none := by
      refine Option.eq_none_iff_forall_ne_some.mpr fun after hs => ?_
      obtain ⟨path, -, he⟩ := afterPlaceholder?_eq_some_iff.mp hs
      exact h (by simp [(List.cons.inj he).1])
    rw [List.cons_append, bindArgument_other none, ih fun hm => h (List.mem_cons_of_mem c hm)]
    rfl

theorem afterPlaceholder?_eq_none {name rest : Text} {c : Char} (h : IsPath name)
    (other : c = '{' → ∀ path after, closedBrace? rest = some (path, after) →
      sameFold path name = false) : afterPlaceholder? name (c :: rest) = none := by
  refine Option.eq_none_iff_forall_ne_some.mpr fun after hs => ?_
  obtain ⟨path, same, he⟩ := afterPlaceholder?_eq_some_iff.mp hs
  obtain ⟨hc, rfl⟩ := List.cons.inj he
  have inner := h.of_sameFold same
  have closed := closedBrace?_path inner.ne_nil inner.notBrace after
  cases same.symm.trans (other hc path after closed)

/-- Binding works fragment by fragment. -/
theorem bindArgument_eq {name : Text} (h : IsPath name) (value text : Text) :
    bindArgument name value text = (fragments text).flatMap (Fragment.bind name value) := by
  fun_induction fragments text with
  | case1 =>
    rw [bindArgument]
    rfl
  | case2 rest path after hc _ ih =>
    have whole := append_of_closedBrace? hc
    rw [List.flatMap_cons, ← ih, Fragment.bind]
    split
    next same =>
      exact bindArgument_found (afterPlaceholder?_eq_some_iff.mpr ⟨path, same, by rw [whole]⟩) value
    next other =>
      have none : afterPlaceholder? name ('{' :: rest) = none := by
        refine afterPlaceholder?_eq_none h fun _ inner later hi => ?_
        cases hc.symm.trans hi
        simpa using other
      have inside : '{' ∉ path ++ ['}'] := by
        intro hm
        rcases List.mem_append.mp hm with hm | hm
        · cases ((path_of_closedBrace? hc).2 _ hm).symm.trans (show notBrace '{' = false from rfl)
        · cases List.mem_singleton.mp hm
      rw [bindArgument_other none, ← whole, List.append_cons, bindArgument_append inside]
      rfl
  | case3 rest hc ih =>
    have none : afterPlaceholder? name ('{' :: rest) = none := by
      refine afterPlaceholder?_eq_none h fun _ path after hi => ?_
      cases hc.symm.trans hi
    rw [bindArgument_other none, ih]
    rfl
  | case4 c rest hne ih =>
    rw [bindArgument_other (afterPlaceholder?_eq_none h fun hc => absurd hc hne), ih]
    rfl

/-- The function puts the value in the place of each placeholder of the name, in any case and
wherever it stands in a text, and keeps the text between them. -/
structure Binds (name value : Text) (f : Text → Text) : Prop where
  replaces : ∀ before path after, sameFold path name = true →
    f (before ++ (placeholderText path ++ after)) = f before ++ (value ++ f after)
  keeps : ∀ text, (∀ before path after, text = before ++ (placeholderText path ++ after) →
    sameFold path name = false) → f text = text

/-- A text without placeholders of the name stays as it is. -/
theorem flatMap_bind_of_forall {name value : Text} {list : List Fragment}
    (h : ∀ path, .placeholder path ∈ list → sameFold path name = false) :
    list.flatMap (Fragment.bind name value) = list.flatMap Fragment.source := by
  have same : ∀ fragment ∈ list, fragment.bind name value = fragment.source := by
    intro fragment hf
    cases fragment with
    | plain c => rfl
    | placeholder path => simp [Fragment.bind, Fragment.source, h path hf]
  rw [List.flatMap_def, List.flatMap_def, List.map_congr_left same]

theorem binds_bindArgument {name : Text} (h : IsPath name) (value : Text) :
    Binds name value (bindArgument name value) where
  replaces before path after same := by
    rw [bindArgument_eq h, fragments_around (h.of_sameFold same), List.flatMap_append,
      List.flatMap_cons, ← bindArgument_eq h, ← bindArgument_eq h, Fragment.bind, if_pos same]
  keeps text none := by
    rw [bindArgument_eq h, flatMap_bind_of_forall, Fragment.flatMap_source_fragments]
    intro path hm
    obtain ⟨earlier, later, hs⟩ := List.append_of_mem hm
    obtain ⟨o, rfl, -⟩ := exists_occurrence hs
    exact none o.before o.path o.after o.whole.symm

/-- An argument of an include: an element with a name to bind, and its content. -/
structure Argument where
  element : Element
  content : Forest
  isArgument : element.role = .argument
  isNamed : element.attributes ≠ []

namespace Argument

/-- The name as it is written. -/
def name (a : Argument) : Text :=
  (a.element.attributes.head a.isNamed).name

/-- What is put in the place of the placeholders of the name. -/
def value (a : Argument) : Text :=
  a.content.markup

/-- The text with the argument put in. -/
def bind (a : Argument) (template : Text) : Text :=
  bindArgument (lowerText a.name) a.value template

/-- The children of an include that has these arguments. -/
def forest : List Argument → Forest
  | [] => .nil
  | a :: rest => .node (.element a.element) a.content (forest rest)

/-- The arguments of an include are put in one after the other. -/
theorem bindArguments_forest (source : Text) (args : List Argument) (run : Run)
    (template : Text) :
    bindArguments source (forest args) run template =
      (run, some (args.foldl (fun text a => a.bind text) template)) := by
  induction args generalizing template with
  | nil => rfl
  | cons a rest ih =>
    have first : a.element.attributes =
        a.element.attributes.head a.isNamed :: a.element.attributes.tail :=
      (List.cons_head_tail a.isNamed).symm
    rw [forest, bindArguments]
    simp only [a.isArgument, if_true]
    rw [first]
    exact ih (a.bind template)

/-- An argument is bound to the placeholders of its name in lower case. These are the placeholders
of the name as it is written, in any case, exactly if all its letters fold as they do in lower
case. -/
theorem binds_own_iff (a : Argument) (path : IsPath a.name) :
    (∀ source run template, bindArguments source (forest [a]) run template =
      (run, some (a.bind template))) ∧
    Binds (lowerText a.name) a.value a.bind ∧
    ((∀ content : Forest, Binds a.name content.markup ({ a with content := content }).bind) ↔
      ∀ c ∈ a.name, FoldsLowered c) ∧
    ∀ spelling, lowerAscii spelling = lowerAscii a.name → sameFold spelling a.name = true := by
  have binds : ∀ value, Binds (lowerText a.name) value (bindArgument (lowerText a.name) value) :=
    fun value => binds_bindArgument path.lowerText value
  refine ⟨fun source run template => bindArguments_forest source [a] run template, binds a.value,
    ⟨fun own => ?_, fun folds content => ?_⟩, fun _ => sameFold_of_lowerAscii⟩
  · rw [← sameFold_lowerText_iff]
    by_cases same : sameFold a.name (lowerText a.name) = true
    · exact same
    · -- the placeholder of the name stays, though without content nothing would be left of it
      have kept : bindArgument (lowerText a.name) [] (placeholderText a.name) =
          placeholderText a.name := by
        refine (binds []).keeps _ fun before other after he => ?_
        by_cases hs : sameFold other (lowerText a.name) = true
        · rw [path.eq_of_around (path.lowerText.of_sameFold hs) he] at hs
          exact absurd hs same
        · simpa using hs
      have gone : bindArgument (lowerText a.name) [] ([] ++ (placeholderText a.name ++ [])) =
          bindArgument (lowerText a.name) [] [] ++ ([] ++ bindArgument (lowerText a.name) [] []) :=
        (own .nil).replaces [] a.name [] (beq_iff_eq.mpr rfl)
      rw [List.nil_append, List.append_nil, kept] at gone
      simp [bindArgument, placeholderText] at gone
  · have same := sameFold_congr ((sameFold_lowerText_iff a.name).mpr folds)
    constructor
    · intro before spelling after hs
      exact (binds content.markup).replaces before spelling after ((same spelling).symm.trans hs)
    · intro text none
      exact (binds content.markup).keeps text fun before spelling after he =>
        (same spelling).symm.trans (none before spelling after he)

/-- An argument with a bare name and a text in it. -/
def ofText (name text : Text) : Argument :=
  ⟨⟨"arg".toList, [⟨name, .bare⟩], .normal⟩, .node (.text text) .nil .nil, rfl,
    List.cons_ne_nil _ _⟩

/-- A capital sigma is lowered to another letter at the end of a word; both fold alike. -/
theorem binds_own_iff_sigma :
    IsPath (ofText "ΑΣ".toList "$1 \x7bας\x7d".toList).name ∧
      Binds "ΑΣ".toList "$1 \x7bας\x7d".toList (ofText "ΑΣ".toList "$1 \x7bας\x7d".toList).bind ∧
      (ofText "ΑΣ".toList "$1 \x7bας\x7d".toList).bind "<b>\x7bΑσ\x7d</b>\x7bΑΣΣ\x7d".toList =
        "<b>$1 \x7bας\x7d</b>\x7bΑΣΣ\x7d".toList := by
  have path : IsPath "ΑΣ".toList := ⟨by decide, List.all_eq_true.mp (by decide)⟩
  have folds : ("ΑΣ".toList.all fun c => decide (FoldsLowered c)) = true := by decide +kernel
  have own := (binds_own_iff (ofText "ΑΣ".toList "$1 \x7bας\x7d".toList) path).2.2.1.mpr
    fun c hc => of_decide_eq_true (List.all_eq_true.mp folds c hc)
  exact ⟨path, own (.node (.text "$1 \x7bας\x7d".toList) .nil .nil), by decide +kernel⟩

/-- A capital I with a dot is lowered to two characters, so its own placeholder is not found. -/
theorem bind_dotted_ne :
    IsPath (ofText "İ".toList "x".toList).name ∧
      (ofText "İ".toList "x".toList).bind "\x7bİ\x7d".toList = "\x7bİ\x7d".toList ∧
      ¬ Binds "İ".toList "x".toList (ofText "İ".toList "x".toList).bind := by
  have kept : (ofText "İ".toList "x".toList).bind "\x7bİ\x7d".toList = "\x7bİ\x7d".toList := by
    decide +kernel
  refine ⟨⟨by decide, List.all_eq_true.mp (by decide)⟩, kept, fun own => ?_⟩
  have replaced := own.replaces [] "İ".toList [] (beq_iff_eq.mpr rfl)
  have value : (ofText "İ".toList "x".toList).bind [] = [] := by decide +kernel
  rw [value] at replaced
  exact absurd (kept.symm.trans replaced) (by decide)

end Argument

end MarkupTemplate
