import MarkupTemplate.Proofs.Render.IncludeExpansion
import MarkupTemplate.Proofs.Render.BodyFilling

namespace MarkupTemplate

theorem closedBrace?_path {path : Text} (hne : path ≠ []) (hp : ∀ c ∈ path, notBrace c = true)
    (after : Text) : closedBrace? (path ++ '}' :: after) = some (path, after) := by
  have hbrace : notBrace '}' = false := rfl
  have htake : (path ++ '}' :: after).takeWhile notBrace = path := by
    rw [List.takeWhile_append_of_pos hp, List.takeWhile_cons, hbrace]
    simp
  have hdrop : (path ++ '}' :: after).dropWhile notBrace = '}' :: after := by
    rw [List.dropWhile_append_of_pos hp, List.dropWhile_cons, hbrace]
    simp
  obtain ⟨c, inner, rfl⟩ := List.exists_cons_of_ne_nil hne
  simp only [closedBrace?, htake, hdrop]

theorem closedBrace?_brace {path : Text} (hp : ∀ c ∈ path, notBrace c = true) (after : Text) :
    closedBrace? (path ++ '{' :: after) = none := by
  have hbrace : notBrace '{' = false := rfl
  have hdrop : (path ++ '{' :: after).dropWhile notBrace = '{' :: after := by
    rw [List.dropWhile_append_of_pos hp, List.dropWhile_cons, hbrace]
    simp
  unfold closedBrace?
  rw [hdrop]
  split
  next he => cases he
  next => rfl

theorem path_of_closedBrace? {text path after : Text}
    (h : closedBrace? text = some (path, after)) :
    path ≠ [] ∧ ∀ c ∈ path, notBrace c = true := by
  unfold closedBrace? at h
  split at h
  next c inner rest ht _ =>
    obtain ⟨rfl, rfl⟩ := Prod.mk.inj (Option.some.inj h)
    refine ⟨List.cons_ne_nil _ _, fun d hd => ?_⟩
    rw [← ht] at hd
    exact List.all_eq_true.mp List.all_takeWhile d hd
  next => cases h

theorem substitute_cons {c : Char} (h : c ≠ '{') (model : Model) (text : Text) :
    substitute model (c :: text) = c :: substitute model text := by
  rw [substitute, fragments_plain h]
  rfl

theorem substitute_plain_append {path : Text} (hp : ∀ c ∈ path, notBrace c = true) (model : Model)
    (after : Text) : substitute model (path ++ after) = path ++ substitute model after := by
  have hm : '{' ∉ path := fun hm => absurd (hp _ hm) (by decide)
  rw [substitute_append (noOpenBrace_of_notMem hm), substitute_of_notMem hm]

theorem substitute_path {path : Text} (hne : path ≠ []) (hp : ∀ c ∈ path, notBrace c = true)
    (model : Model) (after : Text) :
    substitute model ('{' :: (path ++ '}' :: after)) =
      (Fragment.placeholder path).fill model ++ substitute model after := by
  rw [substitute, fragments_placeholder (closedBrace?_path hne hp after)]
  rfl

theorem substitute_placeholder {path : Text} (hne : path ≠ [])
    (hp : ∀ c ∈ path, notBrace c = true) {model : Model} {shown : Text}
    (hg : (model.get? path).map (·.display) = some shown) :
    substitute model (placeholderText path) = shown := by
  obtain ⟨value, hv, rfl⟩ := Option.map_eq_some_iff.mp hg
  have whole := substitute_path hne hp model []
  rw [substitute_of_notMem List.not_mem_nil, List.append_nil] at whole
  exact whole.trans (by simp only [Fragment.fill, hv])

theorem substitute_brace {text : Text} (h : closedBrace? text = none) (model : Model) :
    substitute model ('{' :: text) = '{' :: substitute model text := by
  rw [substitute, fragments_brace h]
  rfl

/-- An opening brace stays where it begins no placeholder with a value. -/
theorem substitute_kept {model : Model} {text : Text}
    (h : ∀ path after, closedBrace? text = some (path, after) → model.get? path = none) :
    substitute model ('{' :: text) = '{' :: substitute model text := by
  cases hc : closedBrace? text with
  | none => exact substitute_brace hc model
  | some found =>
    obtain ⟨path, after⟩ := found
    obtain ⟨hne, hp⟩ := path_of_closedBrace? hc
    have fill : (Fragment.placeholder path).fill model = placeholderText path := by
      simp only [Fragment.fill, h path after hc]
    rw [← append_of_closedBrace? hc, substitute_path hne hp, fill, substitute_plain_append hp,
      substitute_cons (by decide)]
    simp [placeholderText]

/-- A text that stays as it is when it is filled once more, whatever stands around it. -/
structure StaysFilled (model : Model) (text : Text) : Prop where
  filled : substitute model text = text
  closed : NoOpenBrace text
  opened : ∀ before after, text = before ++ '}' :: after → '{' ∈ before

theorem staysFilled_of_notBrace {text : Text} (h : ∀ c ∈ text, notBrace c = true) (model : Model) :
    StaysFilled model text where
  filled := substitute_of_notMem (fun hm => absurd (h _ hm) (by decide)) model
  closed := noOpenBrace_of_notMem fun hm => absurd (h _ hm) (by decide)
  opened := by
    rintro before after rfl
    exact absurd (h '}' (by simp)) (by decide)

/-- The second text is the first one with some of the placeholders filled that may be. -/
inductive FilledAhead (fills : Text → Text → Prop) : Text → Text → Prop
  | nil : FilledAhead fills [] []
  | keep {c : Char} {text text' : Text} :
      FilledAhead fills text text' → FilledAhead fills (c :: text) (c :: text')
  | fill {path shown text text' : Text} :
      fills path shown → path ≠ [] → (∀ c ∈ path, notBrace c = true) →
      FilledAhead fills text text' →
      FilledAhead fills (placeholderText path ++ text) (shown ++ text')

/-- A name that may be filled, with its value in a model, which stays as it is when it is filled
once more. -/
structure Lasting (model : Model) (may : Text → Prop) (path shown : Text) : Prop where
  allowed : may path
  value : (model.get? path).map (·.display) = some shown
  stays : StaysFilled model shown

theorem filledAhead_placeholder {fills : Text → Text → Prop} {path shown : Text}
    (h : fills path shown) (hne : path ≠ []) (hp : ∀ c ∈ path, notBrace c = true) :
    FilledAhead fills (placeholderText path) shown := by
  have filled := FilledAhead.fill h hne hp .nil
  rwa [List.append_nil, List.append_nil] at filled

/-- Where values that are filled in would come to stand in a placeholder, that has no value. -/
def Unnested (model : Model) (may : Text → Prop) (text : Text) : Prop :=
  ∀ before inner path after, text = before ++ '{' :: (inner ++ '}' :: after) → '{' ∈ inner →
    FilledAhead (Lasting model may) inner path → (∀ c ∈ path, notBrace c = true) →
    model.get? path = none

theorem Unnested.of_append {model : Model} {may : Text → Prop} {a b : Text}
    (h : Unnested model may (a ++ b)) : Unnested model may b := by
  rintro before inner path after rfl
  exact h (a ++ before) inner path after (List.append_assoc ..).symm

namespace FilledAhead

variable {fills : Text → Text → Prop} {a a' b b' : Text}

theorem refl (text : Text) : FilledAhead fills text text := by
  induction text with
  | nil => exact .nil
  | cons c text ih => exact .keep ih

theorem append (ha : FilledAhead fills a a') (hb : FilledAhead fills b b') :
    FilledAhead fills (a ++ b) (a' ++ b') := by
  induction ha with
  | nil => exact hb
  | keep _ ih => exact .keep ih
  | fill hf hne hp _ ih =>
    rw [List.append_assoc, List.append_assoc]
    exact .fill hf hne hp ih

/-- Only the placeholders that are there are filled. -/
theorem restrict {fills' : Text → Text → Prop} (h : FilledAhead fills a a')
    (hr : ∀ path shown, placeholderText path <:+: a → fills path shown → fills' path shown) :
    FilledAhead fills' a a' := by
  induction h with
  | nil => exact .nil
  | keep _ ih =>
    exact .keep (ih fun path shown hp => hr path shown (hp.trans (List.suffix_cons ..).isInfix))
  | fill hf hne hp _ ih =>
    refine .fill (hr _ _ (List.prefix_append ..).isInfix hf) hne hp (ih fun path shown hp => ?_)
    exact hr path shown (hp.trans (List.suffix_append ..).isInfix)

theorem eq_of_none (h : FilledAhead fills a a') (hf : ∀ path shown, ¬ fills path shown) :
    a' = a := by
  induction h with
  | nil => rfl
  | keep _ ih => rw [ih]
  | fill ht => exact absurd ht (hf _ _)

theorem of_cons {c : Char} (hc : c ≠ '{') (h : FilledAhead fills (c :: a) a') :
    ∃ text, a' = c :: text ∧ FilledAhead fills a text := by
  generalize hs : c :: a = source at h
  cases h with
  | nil => cases hs
  | keep h =>
    cases hs
    exact ⟨_, rfl, h⟩
  | fill => exact absurd (List.cons.inj hs).1 hc

theorem of_plain_append {path : Text} (hp : ∀ c ∈ path, notBrace c = true)
    (h : FilledAhead fills (path ++ a) a') :
    ∃ text, a' = path ++ text ∧ FilledAhead fills a text := by
  induction path generalizing a' with
  | nil => exact ⟨a', rfl, h⟩
  | cons c path ih =>
    obtain ⟨hc, hp⟩ := List.forall_mem_cons.mp hp
    obtain ⟨rest, rfl, hrest⟩ := of_cons (fun he => by rw [he] at hc; cases hc) h
    obtain ⟨text, rfl, htext⟩ := ih hp hrest
    exact ⟨text, rfl, htext⟩

variable {model : Model} {may : Text → Prop}

/-- A closing brace that comes first stands in both texts, as no value begins with one. -/
theorem exists_inner {path after : Text} (hp : ∀ c ∈ path, notBrace c = true)
    (h : FilledAhead (Lasting model may) a (path ++ '}' :: after)) :
    ∃ inner rest, a = inner ++ '}' :: rest ∧ FilledAhead (Lasting model may) inner path ∧
      FilledAhead (Lasting model may) rest after := by
  generalize ht : path ++ '}' :: after = target at h
  induction h generalizing path with
  | nil => simp at ht
  | keep h ih =>
    cases path with
    | nil =>
      obtain ⟨rfl, rfl⟩ := List.cons.inj ht
      exact ⟨[], _, rfl, .nil, h⟩
    | cons c path =>
      obtain ⟨rfl, hrest⟩ := List.cons.inj ht
      obtain ⟨inner, rest, rfl, hi, hr⟩ := ih (List.forall_mem_cons.mp hp).2 hrest
      exact ⟨_, rest, rfl, hi.keep, hr⟩
  | @fill name shown text text' hf hne hn _ ih =>
    have inside {between : Text} (hb : path = shown ++ between)
        (hr : text' = between ++ '}' :: after) : ∃ inner rest,
        placeholderText name ++ text = inner ++ '}' :: rest ∧
          FilledAhead (Lasting model may) inner path ∧
          FilledAhead (Lasting model may) rest after := by
      have hbetween : ∀ c ∈ between, notBrace c = true :=
        fun c hc => hp c (hb ▸ List.mem_append_right _ hc)
      obtain ⟨inner, rest, rfl, hi, hrest⟩ := ih hbetween hr.symm
      refine ⟨placeholderText name ++ inner, rest, (List.append_assoc ..).symm, ?_, hrest⟩
      rw [hb]
      exact .fill hf hne hn hi
    rcases List.append_eq_append_iff.mp ht with ⟨between, hd, hr⟩ | ⟨between, hd, hr⟩
    · cases between with
      | nil =>
        have whole : path = shown ++ [] := by simpa using hd.symm
        exact inside whole hr.symm
      | cons c between =>
        -- the brace would close one that the value itself has opened
        obtain ⟨rfl, -⟩ := List.cons.inj hr
        exact absurd (hp _ (hf.stays.opened path between hd)) (by decide)
    · exact inside hd hr

theorem notMem_of_path {path : Text} (hp : ∀ c ∈ path, notBrace c = true)
    (h : FilledAhead fills a path) (hm : '{' ∉ a) : a = path := by
  induction h with
  | nil => rfl
  | keep h ih =>
    rw [ih (List.forall_mem_cons.mp hp).2 fun hc => hm (List.mem_cons_of_mem _ hc)]
  | fill => exact absurd (by simp [placeholderText]) hm

/-- If no value comes to stand in a placeholder with a value, filling some placeholders ahead
changes nothing. -/
theorem substitute_eq (h : FilledAhead (Lasting model may) a a') (hu : Unnested model may a) :
    substitute model a = substitute model a' := by
  induction hn : a.length using Nat.strongRecOn generalizing a a' with
  | ind n ih =>
    subst hn
    cases h with
    | nil => rfl
    | @keep c text text' h =>
      have same := ih _ (by simp) h (Unnested.of_append (a := [c]) hu) rfl
      by_cases hc : c = '{'
      · subst hc
        cases closing : closedBrace? text with
        | some found =>
          obtain ⟨path, after⟩ := found
          obtain ⟨hne, hp⟩ := path_of_closedBrace? closing
          obtain rfl := append_of_closedBrace? closing
          obtain ⟨rest, rfl, hrest⟩ := h.of_plain_append hp
          obtain ⟨after', rfl, hafter'⟩ := of_cons (by decide) hrest
          have hlen : after.length < ('{' :: (path ++ '}' :: after)).length := by
            simp only [List.length_cons, List.length_append]
            omega
          have hafter : Unnested model may after :=
            Unnested.of_append (a := '{' :: (path ++ ['}'])) (by simpa using hu)
          rw [substitute_path hne hp, substitute_path hne hp, ih _ hlen hafter' hafter rfl]
        | none =>
          have kept : ∀ path after, closedBrace? text' = some (path, after) →
              model.get? path = none := by
            intro path after hc
            obtain ⟨hne, hp⟩ := path_of_closedBrace? hc
            obtain rfl := append_of_closedBrace? hc
            obtain ⟨inner, rest, rfl, hi, -⟩ := h.exists_inner hp
            by_cases hm : '{' ∈ inner
            · exact hu [] inner path rest rfl hm hi hp
            · rw [hi.notMem_of_path hp hm, closedBrace?_path hne hp] at closing
              cases closing
          rw [substitute_brace closing, substitute_kept kept, same]
      · rw [substitute_cons hc, substitute_cons hc, same]
    | @fill path shown text text' hf hne hp h =>
      have hlen : text.length < (placeholderText path ++ text).length := by
        simp only [placeholderText, List.length_append, List.length_cons]
        omega
      have hclosed : NoOpenBrace (placeholderText path) :=
        noOpenBrace_placeholder fun hm => absurd (hp _ hm) (by decide)
      rw [substitute_append hclosed, substitute_placeholder hne hp hf.value,
        substitute_append hf.stays.closed, hf.stays.filled, ih _ hlen h hu.of_append rfl]

end FilledAhead

/-- A text in which no brace is opened between two others that belong together. -/
theorem unnested_of_flat {model : Model} {may : Text → Prop} {text : Text}
    (h : ∀ n < text.length, text[n]? = some '{' →
      ((text.drop (n + 1)).dropWhile notBrace).head? ≠ some '{') : Unnested model may text := by
  rintro before inner path after rfl hbrace hf hp
  have closed : notBrace '{' = false := rfl
  have inside := dropWhile_ne_nil_of_mem hbrace closed
  obtain ⟨c, rest, hc⟩ := List.exists_cons_of_ne_nil inside
  have plain : ∀ d ∈ inner.takeWhile notBrace, notBrace d = true :=
    List.all_eq_true.mp List.all_takeWhile
  have split := List.takeWhile_append_dropWhile (p := notBrace) (l := inner)
  rw [hc] at split
  by_cases hopen : c = '{'
  · have flat := h before.length (by simp) (by simp)
    have behind : (before ++ '{' :: (inner ++ '}' :: after)).drop (before.length + 1) =
        inner ++ '}' :: after := by simp
    rw [behind, (dropWhile_append_of_ne_nil inside _).2, hc, hopen] at flat
    exact absurd rfl flat
  · have brace : notBrace c = false := by
      have := List.head?_dropWhile_not notBrace inner
      simpa [hc] using this
    rw [← split] at hf
    obtain ⟨shown, rfl, hfilled⟩ := hf.of_plain_append plain
    obtain ⟨_, rfl, -⟩ := hfilled.of_cons hopen
    cases brace.symm.trans (hp c (by simp))

theorem unnested_of_none {model : Model} {may : Text → Prop} (hm : ∀ path, ¬ may path)
    (text : Text) : Unnested model may text := by
  intro before inner path after _ hbrace hf hp
  rw [hf.eq_of_none fun name shown hs => hm name hs.allowed] at hp
  exact absurd (hp _ hbrace) (by decide)

end MarkupTemplate
