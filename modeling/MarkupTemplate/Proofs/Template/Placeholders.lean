import MarkupTemplate.Proofs.Render.SideBySide
import MarkupTemplate.Proofs.Template.FilledAhead

namespace MarkupTemplate

/-- A placeholder where it stands in a text: a path without braces that is not empty, in braces. -/
@[ext]
structure Occurrence (text : Text) where
  before : Text
  path : Text
  after : Text
  path_ne_nil : path ≠ []
  notBrace_path : ∀ c ∈ path, notBrace c = true
  whole : before ++ (placeholderText path ++ after) = text

namespace Occurrence

variable {text : Text}

/-- The position of the opening brace. -/
def start (o : Occurrence text) : Nat :=
  o.before.length

/-- The position behind the closing brace. -/
def stop (o : Occurrence text) : Nat :=
  o.start + (placeholderText o.path).length

/-- The position is one of the placeholder. -/
def Covers (o : Occurrence text) (k : Nat) : Prop :=
  o.start ≤ k ∧ k < o.stop

theorem brace_notMem (o : Occurrence text) : '{' ∉ o.path ++ ['}'] := by
  intro hm
  rcases List.mem_append.mp hm with hm | hm
  · exact absurd (o.notBrace_path _ hm) (by decide)
  · exact absurd (List.mem_singleton.mp hm) (by decide)

/-- A placeholder that begins in another one would have its opening brace in the path of that. -/
theorem stop_le_of_lt (a b : Occurrence text) (h : a.start < b.start) : a.stop ≤ b.start := by
  rcases List.append_eq_append_iff.mp (a.whole.trans b.whole.symm) with
    ⟨between, hb, hr⟩ | ⟨between, ha, _⟩
  · cases between with
    | nil =>
      rw [List.append_nil] at hb
      rw [start, start, hb] at h
      exact absurd h (Nat.lt_irrefl _)
    | cons c inner =>
      obtain ⟨rfl, hrest⟩ := List.cons.inj hr
      have closing : (placeholderText a.path).length ≤ inner.length + 1 := by
        rcases List.append_eq_append_iff.mp hrest with ⟨others, hi, _⟩ | ⟨others, hp, hl⟩
        · have hl : (a.path ++ ['}']).length ≤ inner.length := by
            have he : inner = a.path ++ ['}'] ++ others := hi
            simp [he]
          exact Nat.succ_le_succ hl
        · cases others with
          | nil =>
            have hpath : a.path ++ ['}'] = inner := by simpa using hp
            rw [← hpath, placeholderText]
            simp
          | cons d others =>
            have hd : '{' = d := (List.cons.inj hl).1
            refine absurd ?_ a.brace_notMem
            rw [show a.path ++ ['}'] = inner ++ d :: others from hp, ← hd]
            simp
      rw [stop, start, start, hb, List.length_append, List.length_cons]
      omega
  · rw [start, start, ha, List.length_append] at h
    omega

/-- Two placeholders of a text do not overlap. -/
theorem disjoint (a b : Occurrence text) : a = b ∨ a.stop ≤ b.start ∨ b.stop ≤ a.start := by
  rcases Nat.lt_trichotomy a.start b.start with h | h | h
  · exact .inr (.inl (stop_le_of_lt a b h))
  · obtain ⟨hbefore, hrest⟩ := List.append_inj (a.whole.trans b.whole.symm) h
    have hpath : a.path ++ '}' :: a.after = b.path ++ '}' :: b.after := by
      simpa [placeholderText] using hrest
    have same := closedBrace?_path a.path_ne_nil a.notBrace_path a.after
    rw [hpath, closedBrace?_path b.path_ne_nil b.notBrace_path, Option.some.injEq,
      Prod.mk.injEq] at same
    exact .inl (Occurrence.ext hbefore same.1.symm same.2.symm)
  · exact .inr (.inr (stop_le_of_lt b a h))

end Occurrence

/-- Reading the fragments of a text comes to each placeholder that stands in it, whatever braces are
before it. -/
theorem fragments_behind {path : Text} (hne : path ≠ []) (hp : ∀ c ∈ path, notBrace c = true)
    (before after : Text) :
    ∃ earlier, fragments (before ++ (placeholderText path ++ after)) =
        earlier ++ .placeholder path :: fragments after ∧
      earlier.flatMap Fragment.source = before := by
  induction hn : before.length using Nat.strongRecOn generalizing before with
  | ind n ih =>
    subst hn
    cases before with
    | nil =>
      refine ⟨[], ?_, rfl⟩
      have found := fragments_placeholder (closedBrace?_path hne hp after)
      simpa [placeholderText] using found
    | cons c rest =>
      by_cases hc : c = '{'
      · subst hc
        cases hclosed : closedBrace? (rest ++ (placeholderText path ++ after)) with
        | none =>
          obtain ⟨earlier, he, hs⟩ := ih rest.length (by simp) rest rfl
          refine ⟨.plain '{' :: earlier, ?_, ?_⟩
          · rw [List.cons_append, fragments_brace hclosed, he, List.cons_append]
          · rw [List.flatMap_cons, hs]
            rfl
        | some found =>
          obtain ⟨inner, tail⟩ := found
          -- The placeholder that is read first ends before the other one begins.
          obtain ⟨others, rfl, rfl⟩ : ∃ others, rest = inner ++ '}' :: others ∧
              tail = others ++ (placeholderText path ++ after) := by
            have braceless := (path_of_closedBrace? hclosed).2
            rcases List.append_eq_append_iff.mp (append_of_closedBrace? hclosed).symm with
              ⟨between, hinner, hr⟩ | ⟨between, hrest, hr⟩
            · cases between with
              | nil => exact absurd (List.cons.inj hr).1 (by decide)
              | cons d between =>
                obtain ⟨rfl, _⟩ := List.cons.inj hr
                exact absurd (braceless '{' (by simp [hinner])) (by decide)
            · cases between with
              | nil => exact absurd (List.cons.inj hr).1 (by decide)
              | cons d others =>
                obtain ⟨rfl, htail⟩ := List.cons.inj hr
                exact ⟨others, hrest, htail⟩
          obtain ⟨earlier, he, hs⟩ := ih others.length (by simp; omega) others rfl
          refine ⟨.placeholder inner :: earlier, ?_, ?_⟩
          · rw [List.cons_append, fragments_placeholder hclosed, he, List.cons_append]
          · rw [List.flatMap_cons, hs, Fragment.source, placeholderText]
            simp
      · obtain ⟨earlier, he, hs⟩ := ih rest.length (by simp) rest rfl
        refine ⟨.plain c :: earlier, ?_, ?_⟩
        · rw [List.cons_append, fragments_plain hc, he, List.cons_append]
        · rw [List.flatMap_cons, hs]
          rfl

theorem path_of_fragment {text path : Text} (h : .placeholder path ∈ fragments text) :
    path ≠ [] ∧ ∀ c ∈ path, notBrace c = true := by
  fun_induction fragments text with
  | case1 => cases h
  | case2 rest found after hc _ ih =>
    rcases List.mem_cons.mp h with he | hm
    · cases he
      exact path_of_closedBrace? hc
    · exact ih hm
  | case3 rest hc ih =>
    rcases List.mem_cons.mp h with he | hm
    · cases he
    · exact ih hm
  | case4 c rest hc ih =>
    rcases List.mem_cons.mp h with he | hm
    · cases he
    · exact ih hm

/-- Each placeholder among the fragments of a text stands in the text. -/
theorem exists_occurrence {text path : Text} {earlier later : List Fragment}
    (h : fragments text = earlier ++ .placeholder path :: later) :
    ∃ o : Occurrence text, o.path = path ∧ o.before = earlier.flatMap Fragment.source := by
  have member : .placeholder path ∈ MarkupTemplate.fragments text := by simp [h]
  obtain ⟨hne, hp⟩ := path_of_fragment member
  have whole : earlier.flatMap Fragment.source ++
      (placeholderText path ++ later.flatMap Fragment.source) = text := by
    rw [← Fragment.flatMap_source_fragments text, h, List.flatMap_append, List.flatMap_cons]
    rfl
  exact ⟨⟨_, path, _, hne, hp, whole⟩, rfl, rfl⟩

namespace Occurrence

variable {text : Text}

theorem fragments (o : Occurrence text) : ∃ earlier,
    fragments text = earlier ++ .placeholder o.path :: MarkupTemplate.fragments o.after ∧
      earlier.flatMap Fragment.source = o.before := by
  have found := fragments_behind o.path_ne_nil o.notBrace_path o.before o.after
  rwa [o.whole] at found

end Occurrence

/-- What stands for each character of a fragment. The value of a placeholder stands for its opening
brace, and nothing for the characters after that. -/
def Fragment.shown (model : Model) : Fragment → List Text
  | .plain c => [[c]]
  | .placeholder path =>
    match model.get? path with
    | some value => value.display :: List.replicate (path.length + 1) []
    | none => (placeholderText path).map ([·])

/-- What stands for each character of a text. -/
def shown (model : Model) (text : Text) : List Text :=
  (fragments text).flatMap (Fragment.shown model)

namespace Fragment

variable {model : Model}

theorem length_shown (model : Model) (fragment : Fragment) :
    (fragment.shown model).length = fragment.source.length := by
  cases fragment with
  | plain c => rfl
  | placeholder path =>
    cases h : model.get? path with
    | some value => simp [shown, source, h, placeholderText]
    | none => simp [shown, source, h]

theorem flatten_shown (model : Model) (fragment : Fragment) :
    (fragment.shown model).flatten = fragment.fill model := by
  cases fragment with
  | plain c => rfl
  | placeholder path =>
    cases h : model.get? path with
    | some value => simp [shown, fill, h]
    | none => simp [shown, fill, h, ← List.flatMap_def]

theorem shown_resolved {path : Text} {value : Value} (h : model.get? path = some value) :
    (Fragment.placeholder path).shown model =
      value.display :: List.replicate (path.length + 1) [] := by
  rw [shown, h]

/-- A fragment that is no placeholder with a value is kept. -/
theorem shown_kept {fragment : Fragment}
    (h : ∀ path, fragment = .placeholder path → model.get? path = none) :
    fragment.shown model = fragment.source.map ([·]) := by
  cases fragment with
  | plain c => rfl
  | placeholder path => rw [shown, h path rfl, source]

theorem length_flatMap_shown (model : Model) (list : List Fragment) :
    (list.flatMap (shown model)).length = (list.flatMap source).length := by
  simp only [List.length_flatMap, length_shown]

/-- Each position of a text is one of a fragment. -/
theorem exists_at {list : List Fragment} {k : Nat} (h : k < (list.flatMap source).length) :
    ∃ earlier fragment later, list = earlier ++ fragment :: later ∧
      (earlier.flatMap source).length ≤ k ∧
      k < (earlier.flatMap source).length + fragment.source.length := by
  induction list generalizing k with
  | nil => cases h
  | cons first rest ih =>
    by_cases hk : k < first.source.length
    · exact ⟨[], first, rest, rfl, Nat.zero_le k, by simpa using hk⟩
    · rw [List.flatMap_cons, List.length_append] at h
      have hrest : k - first.source.length < (rest.flatMap source).length := by omega
      obtain ⟨earlier, fragment, later, rfl, hle, hlt⟩ := ih hrest
      refine ⟨first :: earlier, fragment, later, rfl, ?_, ?_⟩
      · rw [List.flatMap_cons, List.length_append]
        omega
      · rw [List.flatMap_cons, List.length_append]
        omega

end Fragment

theorem length_shown (model : Model) (text : Text) : (shown model text).length = text.length := by
  rw [shown, Fragment.length_flatMap_shown, Fragment.flatMap_source_fragments]

theorem flatten_shown (model : Model) (text : Text) :
    (shown model text).flatten = substitute model text := by
  rw [shown, List.flatMap_def, List.flatten_flatten, List.map_map, substitute, List.flatMap_def]
  exact congrArg List.flatten (List.map_congr_left fun fragment _ => Fragment.flatten_shown ..)

section Shown

variable {model : Model} {text : Text}

/-- A position within one of the fragments of a text. -/
theorem shown_at {earlier later : List Fragment} {fragment : Fragment} {k : Nat}
    (h : fragments text = earlier ++ fragment :: later)
    (hle : (earlier.flatMap Fragment.source).length ≤ k)
    (hlt : k < (earlier.flatMap Fragment.source).length + fragment.source.length) :
    (shown model text)[k]? =
      (fragment.shown model)[k - (earlier.flatMap Fragment.source).length]? := by
  have hl := Fragment.length_flatMap_shown model earlier
  have hf := Fragment.length_shown model fragment
  rw [shown, h, List.flatMap_append, List.flatMap_cons, List.getElem?_append_right (by omega), hl,
    List.getElem?_append_left (by omega)]

/-- A placeholder with a value shows the value. -/
theorem shown_occurrence (o : Occurrence text) {value : Value} (h : model.get? o.path = some value)
    {k : Nat} (hle : o.start ≤ k) (hlt : k < o.stop) :
    (shown model text)[k]? = some (if k = o.start then value.display else []) := by
  obtain ⟨earlier, hf, hs⟩ := o.fragments
  have hlength : (placeholderText o.path).length = o.path.length + 2 := by simp [placeholderText]
  have bounds : k < o.before.length + (o.path.length + 2) := by
    rwa [Occurrence.stop, Occurrence.start, hlength] at hlt
  have found := @shown_at model text earlier _ (.placeholder o.path) k hf (hs ▸ hle)
    (by rw [hs, Fragment.source, hlength]; exact bounds)
  rw [found, Fragment.shown_resolved h, hs]
  by_cases hk : k = o.start
  · rw [if_pos hk, hk, Occurrence.start, Nat.sub_self]
    rfl
  · obtain ⟨j, rfl⟩ : ∃ j, k = o.before.length + (j + 1) := by
      rw [Occurrence.start] at hk hle
      exact ⟨k - o.before.length - 1, by omega⟩
    rw [if_neg hk, Nat.add_sub_cancel_left, List.getElem?_cons_succ, List.getElem?_replicate,
      if_pos (by omega)]

/-- All else is kept. -/
theorem shown_other {k : Nat} (hk : k < text.length)
    (h : ∀ o : Occurrence text, o.Covers k → model.get? o.path = none) :
    (shown model text)[k]? = some [text[k]] := by
  have hsource := Fragment.flatMap_source_fragments text
  obtain ⟨earlier, fragment, later, hf, hle, hlt⟩ :=
    @Fragment.exists_at (fragments text) k (by rwa [hsource])
  have kept : fragment.shown model = fragment.source.map ([·]) := by
    refine Fragment.shown_kept fun path hp => ?_
    subst hp
    obtain ⟨o, rfl, hb⟩ := exists_occurrence hf
    refine h o ⟨?_, ?_⟩
    · rwa [Occurrence.start, hb]
    · rwa [Occurrence.stop, Occurrence.start, hb]
  have character : fragment.source[k - (earlier.flatMap Fragment.source).length]? = text[k]? := by
    conv => rhs; rw [← hsource, hf, List.flatMap_append, List.flatMap_cons]
    rw [List.getElem?_append_right hle, List.getElem?_append_left (by omega)]
  rw [shown_at hf hle hlt, kept, List.getElem?_map, character, List.getElem?_eq_getElem hk]
  rfl

end Shown

/-- What comes first in a list without its repetitions comes first in the list. -/
theorem pairwise_eraseDups (list : List Text) :
    list.eraseDups.Pairwise fun first second =>
      ∀ earlier later, list = earlier ++ second :: later → first ∈ earlier := by
  induction hn : list.length using Nat.strongRecOn generalizing list with
  | ind n ih =>
    subst hn
    cases list with
    | nil => exact .nil
    | cons a rest =>
      rw [List.eraseDups_cons]
      have shorter : (rest.filter fun b => !b == a).length < (a :: rest).length :=
        Nat.lt_succ_of_le (List.length_filter_le ..)
      refine List.pairwise_cons.mpr ⟨fun b hb earlier later he => ?_, ?_⟩
      · have hne : b ≠ a := by
          have hb := (List.mem_filter.mp (List.mem_eraseDups.mp hb)).2
          simpa using hb
        cases earlier with
        | nil => exact absurd (List.cons.inj he).1.symm hne
        | cons c earlier => exact (List.cons.inj he).1 ▸ List.mem_cons_self
      · refine (ih _ shorter _ rfl).imp_of_mem fun {b c} _ hc hbc earlier later he => ?_
        have hne : c ≠ a := by
          have hc := (List.mem_filter.mp (List.mem_eraseDups.mp hc)).2
          simpa using hc
        cases earlier with
        | nil => exact absurd (List.cons.inj he).1.symm hne
        | cons d earlier =>
          have hrest : rest = earlier ++ c :: later := (List.cons.inj he).2
          have hfilter := congrArg (List.filter fun b => !b == a) hrest
          rw [List.filter_append, List.filter_cons_of_pos (by simpa using hne)] at hfilter
          exact List.mem_cons_of_mem d (List.mem_filter.mp (hbc _ _ hfilter)).1

theorem nodup_eraseDups (list : List Text) : list.eraseDups.Nodup := by
  refine (pairwise_eraseDups list).imp_of_mem fun {first second} _ hm hbefore he => ?_
  subst he
  obtain ⟨earlier, later, hs, hnot⟩ := List.eq_append_cons_of_mem (List.mem_eraseDups.mp hm)
  exact hnot (hbefore earlier later hs)

/-- Fills the placeholders of a text at the end of a render, and notes those that have no value. -/
def Run.fill (run : Run) (text : Text) : Run × Text :=
  (run.noteAll ((unresolved run.model text).map fun path => .unresolved (placeholderText path)),
    substitute run.model text)

theorem render?_fill (context : Context) (depth : Nat) (model : Model) (compiled : Text) :
    render? context depth model compiled =
      (resolveDocument context depth model compiled).map fun pass =>
        let filled := pass.1.fill pass.2.markup
        ⟨filled.2, filled.1.notices.reverse, pass.1.expanded.reverse⟩ :=
  render?_eq context depth model compiled

section Unresolved

variable {model : Model} {text path : Text}

theorem unresolved?_eq_some {fragment : Fragment} :
    fragment.unresolved? model = some path ↔
      fragment = .placeholder path ∧ model.get? path = none := by
  cases fragment with
  | plain c => simp [Fragment.unresolved?]
  | placeholder other =>
    rw [Fragment.unresolved?]
    cases hg : model.get? other with
    | none => simpa using fun he => he ▸ hg
    | some value =>
      simp only [Option.isSome_some, if_true, reduceCtorEq, Fragment.placeholder.injEq, false_iff]
      rintro ⟨rfl, hn⟩
      cases hg.symm.trans hn

theorem mem_unresolved :
    path ∈ unresolved model text ↔
      model.get? path = none ∧ ∃ o : Occurrence text, o.path = path := by
  rw [unresolved, List.mem_eraseDups, List.mem_filterMap]
  constructor
  · rintro ⟨fragment, hm, hf⟩
    obtain ⟨rfl, hn⟩ := unresolved?_eq_some.mp hf
    obtain ⟨earlier, later, hs⟩ := List.append_of_mem hm
    obtain ⟨o, ho, _⟩ := exists_occurrence hs
    exact ⟨hn, o, ho⟩
  · rintro ⟨hn, o, rfl⟩
    obtain ⟨earlier, hs, _⟩ := o.fragments
    exact ⟨.placeholder o.path, by simp [hs], unresolved?_eq_some.mpr ⟨rfl, hn⟩⟩

/-- The placeholders without a value are in the order in which they first stand in the text. -/
theorem pairwise_unresolved (model : Model) (text : Text) :
    (unresolved model text).Pairwise fun first second =>
      ∀ o : Occurrence text, o.path = second →
        ∃ earlier : Occurrence text, earlier.path = first ∧ earlier.start < o.start := by
  refine (pairwise_eraseDups _).imp_of_mem fun {first second} _ hm hbefore o ho => ?_
  subst ho
  have hn := (mem_unresolved.mp hm).1
  obtain ⟨before, hs, hb⟩ := o.fragments
  have split : (fragments text).filterMap (·.unresolved? model) =
      before.filterMap (·.unresolved? model) ++
        o.path :: (fragments o.after).filterMap (·.unresolved? model) := by
    rw [hs, List.filterMap_append, List.filterMap_cons_some (unresolved?_eq_some.mpr ⟨rfl, hn⟩)]
  obtain ⟨fragment, hf, hu⟩ := List.mem_filterMap.mp (hbefore _ _ split)
  obtain ⟨rfl, _⟩ := unresolved?_eq_some.mp hu
  obtain ⟨begun, rest, rfl⟩ := List.append_of_mem hf
  rw [List.append_assoc] at hs
  obtain ⟨earlier, he, hstart⟩ := exists_occurrence hs
  refine ⟨earlier, he, ?_⟩
  have opens : 0 < (Fragment.placeholder first).source.length := by
    simp [Fragment.source, placeholderText]
  rw [Occurrence.start, Occurrence.start, hstart, ← hb, List.flatMap_append, List.flatMap_cons,
    List.length_append, List.length_append]
  omega

theorem flatMap_range_getD (list : List Text) :
    (List.range list.length).flatMap (fun k => list[k]?.getD []) = list.flatten := by
  have entries : (List.range list.length).map (fun k => list[k]?.getD []) = list := by
    refine List.ext_getElem (by simp) fun k _ hk => ?_
    simp [List.getElem?_eq_getElem hk]
  rw [List.flatMap_def, entries]

theorem told_unresolved (verbosity : Verbosity) (paths : List Text) :
    Notice.told verbosity (paths.map fun path => .unresolved (placeholderText path)) =
      if 2 ≤ verbosity.level then paths.map fun path => .unresolved (placeholderText path)
      else [] := by
  have level : ∀ notice ∈ paths.map fun path => Notice.unresolved (placeholderText path),
      verbosity.tells notice.level = decide (2 ≤ verbosity.level) := by
    intro notice hn
    obtain ⟨path, _, rfl⟩ := List.mem_map.mp hn
    cases verbosity <;> rfl
  rw [Notice.told, List.filter_congr level]
  split
  next h => simp [h]
  next h => simp [h]

end Unresolved

/-- Filling a text replaces all its placeholders at once. No two of them overlap; one with a value
shows the value, which is not looked at again, and every other character stays in its place. Those
without a value are told once each, in the order in which they first stand in the text. An iteration
fills its text in the same way. -/
theorem fill_at_once (run : Run) (text : Text) :
    (∀ a b : Occurrence text, a = b ∨ a.stop ≤ b.start ∨ b.stop ≤ a.start) ∧
    (∃ shown : Nat → Text, (run.fill text).2 = (List.range text.length).flatMap shown ∧
      (∀ (o : Occurrence text) (value : Value), run.model.get? o.path = some value →
        shown o.start = value.display ∧ ∀ k, o.start < k → k < o.stop → shown k = []) ∧
      ∀ (k : Nat) (hk : k < text.length),
        (∀ o : Occurrence text, o.Covers k → run.model.get? o.path = none) →
          shown k = [text[k]]) ∧
    (∃ paths : List Text, paths.Nodup ∧
      (∀ path, path ∈ paths ↔
        run.model.get? path = none ∧ ∃ o : Occurrence text, o.path = path) ∧
      (paths.Pairwise fun first second => ∀ o : Occurrence text, o.path = second →
        ∃ earlier : Occurrence text, earlier.path = first ∧ earlier.start < o.start) ∧
      (run.fill text).1 = { run with notices := (run.fill text).1.notices } ∧
      (run.fill text).1.notices.reverse = run.notices.reverse ++
        if 2 ≤ run.verbosity.level then paths.map fun path => .unresolved (placeholderText path)
        else []) ∧
    iterationText run.model [.markup text] = (run.fill text).2 := by
  have lengths := length_shown run.model text
  refine ⟨Occurrence.disjoint, ⟨fun k => (shown run.model text)[k]?.getD [], ?_, ?_, ?_⟩,
    ⟨unresolved run.model text, nodup_eraseDups _, fun path => mem_unresolved,
      pairwise_unresolved run.model text, rfl, ?_⟩, List.flatMap_singleton ..⟩
  · rw [← lengths, flatMap_range_getD, flatten_shown, Run.fill]
  · intro o value h
    have opens : o.start < o.stop := by simp [Occurrence.stop, placeholderText]
    constructor
    · simp [shown_occurrence o h (Nat.le_refl _) opens]
    · intro k hlt hstop
      simp [shown_occurrence o h (Nat.le_of_lt hlt) hstop, Nat.ne_of_gt hlt]
  · intro k hk h
    simp [shown_other hk h]
  · rw [Run.fill, Run.noteAll, told_unresolved]
    simp

end MarkupTemplate
