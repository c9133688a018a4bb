import MarkupTemplate.Proofs.Render.BodyFilling

namespace MarkupTemplate

/-- No text in the value has a `<`. -/
inductive Value.Plain : Value → Prop
  | null : Plain .null
  | bool (b : Bool) : Plain (.bool b)
  | number (n : Number) : Plain (.number n)
  | text {shown : Text} : '<' ∉ shown → Plain (.text shown)
  | list {items : List Value} : (∀ item ∈ items, item.Plain) → Plain (.list items)
  | record {fields : List (Text × Value)} :
      (∀ field ∈ fields, '<' ∉ field.1) → (∀ field ∈ fields, field.2.Plain) →
      Plain (.record fields)

/-- No text in the values of the model has a `<`. -/
def Model.Plain (model : Model) : Prop :=
  ∀ field ∈ model.fields, field.2.Plain

theorem natText_plain (n : Nat) : '<' ∉ natText n := by
  intro h
  have digit := Nat.isDigit_of_mem_toDigits (by decide) (by decide) h
  exact absurd digit (by decide)

theorem intText_plain (n : Int) : '<' ∉ intText n := by
  unfold intText
  split
  next => simpa using natText_plain n.natAbs
  next => exact natText_plain n.natAbs

theorem positionalText_plain {digits : Text} (h : '<' ∉ digits) (lead : Int) :
    '<' ∉ positionalText digits lead := by
  have taken (count : Nat) : '<' ∉ digits.take count := fun hm => h (List.mem_of_mem_take hm)
  have dropped (count : Nat) : '<' ∉ digits.drop count := fun hm => h (List.mem_of_mem_drop hm)
  unfold positionalText
  dsimp only
  split
  next => simp [h]
  next =>
    split
    next => simp [h]
    next => simp [taken, dropped]

theorem exponentText_plain {digits : Text} (h : '<' ∉ digits) (plusSign : Bool) (lead : Int) :
    '<' ∉ exponentText plusSign digits lead := by
  have first : '<' ∉ digits.take 1 := fun hm => h (List.mem_of_mem_take hm)
  have others : '<' ∉ digits.drop 1 := fun hm => h (List.mem_of_mem_drop hm)
  have fraction : '<' ∉ (if (digits.drop 1).isEmpty then [] else '.' :: digits.drop 1) := by
    split
    next => exact List.not_mem_nil
    next => simpa using others
  have sign : '<' ∉ (if lead < 0 then ['-'] else if plusSign then ['+'] else []) := by
    split
    next => simp
    next => split <;> simp
  have power := natText_plain lead.natAbs
  simp only [exponentText, List.mem_append, List.mem_cons]
  rintro (((hm | hm) | hm | hm) | hm)
  · exact first hm
  · exact fraction hm
  · exact absurd hm (by decide)
  · exact sign hm
  · exact power hm

theorem Double.text_plain (layout : NumberLayout) (x : Double) : '<' ∉ x.text layout := by
  have kept : '<' ∉ ((natText x.shortest.1).reverse.dropWhile (· == '0')).reverse := by
    intro h
    have h := (List.dropWhile_sublist _).mem (List.mem_reverse.mp h)
    exact natText_plain _ (List.mem_reverse.mp h)
  obtain ⟨sign, hsign, hplain⟩ : ∃ sign, (if x.negative then ['-'] else []) = sign ∧
      '<' ∉ sign := ⟨_, rfl, by split <;> simp⟩
  simp only [Double.text, hsign]
  split
  next => simp [hplain]
  next =>
    split
    next => simp [hplain, positionalText_plain kept]
    next => simp [hplain, exponentText_plain kept]

theorem Number.text_plain (layout : NumberLayout) (n : Number) : '<' ∉ n.text layout := by
  cases n with
  | integer value => exact intText_plain value
  | double x => exact x.text_plain layout

theorem jsonChar_plain {c : Char} (h : c ≠ '<') : '<' ∉ jsonChar c := by
  have digit : ∀ n < 16, '<' ≠ Nat.digitChar n := by decide
  unfold jsonChar
  split
  all_goals try decide
  split
  next hc => simp [digit (c.toNat / 16) (by omega), digit (c.toNat % 16) (by omega)]
  next => simp [h.symm]

theorem jsonQuoted_plain {text : Text} (h : '<' ∉ text) : '<' ∉ jsonQuoted text := by
  have chars : '<' ∉ text.flatMap jsonChar := by
    intro hm
    obtain ⟨c, hc, hm⟩ := List.mem_flatMap.mp hm
    exact jsonChar_plain (fun he => h (he ▸ hc)) hm
  simp [jsonQuoted, chars]

theorem joinText_plain {parts : List Text} (h : ∀ part ∈ parts, '<' ∉ part) :
    '<' ∉ joinText [','] parts := by
  induction parts with
  | nil => simp [joinText]
  | cons part parts ih =>
    have first := h part List.mem_cons_self
    have rest := ih fun other ho => h other (List.mem_cons_of_mem _ ho)
    cases parts with
    | nil => exact first
    | cons other parts => simp [joinText, first, rest]

theorem jsonItems_eq (items : List Value) : Value.jsonItems items = items.map Value.json := by
  induction items with
  | nil => rw [Value.jsonItems, List.map_nil]
  | cons item items ih => rw [Value.jsonItems, ih, List.map_cons]

theorem jsonFields_eq (fields : List (Text × Value)) :
    Value.jsonFields fields =
      fields.map fun field => jsonQuoted field.1 ++ ':' :: field.2.json := by
  induction fields with
  | nil => rw [Value.jsonFields, List.map_nil]
  | cons field fields ih => rw [Value.jsonFields, ih, List.map_cons]

namespace Value.Plain

variable {value : Value}

theorem json (h : value.Plain) : '<' ∉ value.json := by
  induction h with
  | null => simp [Value.json]
  | bool b => cases b <;> simp [Value.json, boolText]
  | number n => exact n.text_plain jsonLayout
  | text ht => exact jsonQuoted_plain ht
  | @list items _ ih =>
    have inside : '<' ∉ joinText [','] (Value.jsonItems items) := by
      rw [jsonItems_eq]
      exact joinText_plain (List.forall_mem_map.mpr ih)
    simpa [Value.json] using inside
  | @record fields hnames _ ih =>
    have inside : '<' ∉ joinText [','] (Value.jsonFields fields) := by
      rw [jsonFields_eq]
      refine joinText_plain (List.forall_mem_map.mpr fun field hf => ?_)
      simp [jsonQuoted_plain (hnames field hf), ih field hf]
    simpa [Value.json] using inside

theorem display (h : value.Plain) : '<' ∉ value.display := by
  cases h with
  | null => exact List.not_mem_nil
  | text ht => exact ht
  | bool b => exact (Plain.bool b).json
  | number n => exact (Plain.number n).json
  | list hi => exact (Plain.list hi).json
  | record hn hf => exact (Plain.record hn hf).json

end Value.Plain

theorem mem_of_fieldNamed? {name : Text} {fields : List (Text × Value)} {value : Value}
    (h : fieldNamed? name fields = some value) : ∃ field ∈ fields, field.2 = value := by
  have found {table : Table Value} (h : Table.find? (lowerText name) table = some value) :
      ∃ field ∈ table, field.2 = value := by
    induction table with
    | nil => cases h
    | cons field table ih =>
      rw [Table.find?] at h
      split at h
      next => exact ⟨field, List.mem_cons_self, Option.some.inj h⟩
      next =>
        obtain ⟨other, ho, he⟩ := ih h
        exact ⟨other, List.mem_cons_of_mem _ ho, he⟩
  dsimp only [fieldNamed?] at h
  split at h
  next hf =>
    cases Option.some.inj h
    exact found hf
  next =>
    obtain ⟨field, hf, rfl⟩ := Option.map_eq_some_iff.mp h
    exact ⟨field, List.mem_of_find?_eq_some hf, rfl⟩

theorem Value.Plain.follow? {value inner : Value} {segment : Segment} (h : value.Plain)
    (hf : value.follow? segment = some inner) : inner.Plain := by
  cases h with
  | null | bool | number | text => cases segment <;> cases hf
  | list hitems =>
    cases segment with
    | key name =>
      obtain ⟨index, _, hi⟩ := Option.bind_eq_some_iff.mp hf
      exact hitems _ (List.mem_of_getElem? hi)
    | index position => exact hitems _ (List.mem_of_getElem? hf)
  | record _ hfields =>
    cases segment with
    | key name | index position =>
      obtain ⟨field, hm, rfl⟩ := mem_of_fieldNamed? hf
      exact hfields field hm

theorem Value.Plain.followAll? {segments : List Segment} {value inner : Value} (h : value.Plain)
    (hf : value.followAll? segments = some inner) : inner.Plain := by
  induction segments generalizing value with
  | nil =>
    cases Option.some.inj hf
    exact h
  | cons segment segments ih =>
    obtain ⟨next, hn, hf⟩ := Option.bind_eq_some_iff.mp hf
    exact ih (h.follow? hn) hf

namespace Model.Plain

variable {model : Model}

theorem get? (h : model.Plain) {name : Text} {value : Value} (hg : model.get? name = some value) :
    value.Plain := by
  obtain ⟨path, _, hf⟩ := Option.bind_eq_some_iff.mp hg
  obtain ⟨first, hn, hf⟩ := Option.bind_eq_some_iff.mp hf
  obtain ⟨field, hm, rfl⟩ := mem_of_fieldNamed? hn
  exact (h field hm).followAll? hf

theorem set (h : model.Plain) {value : Value} (hv : value.Plain) (name : Text) :
    (model.set name value).Plain := by
  obtain ⟨fields⟩ := model
  change ∀ field ∈ Table.insert (lowerText name) value fields, field.2.Plain
  induction fields with
  | nil => simpa [Table.insert] using hv
  | cons field fields ih =>
    obtain ⟨hfield, hfields⟩ := List.forall_mem_cons.mp h
    rw [Table.insert]
    split
    next => exact List.forall_mem_cons.mpr ⟨hv, hfields⟩
    next => exact List.forall_mem_cons.mpr ⟨hfield, ih hfields⟩

end Model.Plain

theorem Loop.bind_plain {loop : Loop} {model : Model} {entry : Value × Value} (h : model.Plain)
    (hk : entry.1.Plain) (hv : entry.2.Plain) : (loop.bind model entry).Plain := by
  have bound := h.set hv loop.valueName
  unfold Loop.bind
  dsimp only
  split
  next name _ => exact bound.set hk name
  next => exact bound

theorem substitute_plain {model : Model} (hm : model.Plain) {text : Text} (h : '<' ∉ text) :
    '<' ∉ substitute model text := by
  intro hs
  obtain ⟨fragment, hf, hs⟩ := List.mem_flatMap.mp hs
  have source : '<' ∉ fragment.source := by
    intro hc
    rw [← Fragment.flatMap_source_fragments text] at h
    exact h (List.mem_flatMap.mpr ⟨fragment, hf, hc⟩)
  cases fragment with
  | plain c => exact source hs
  | placeholder path =>
    rw [Fragment.fill] at hs
    split at hs
    next value hg => exact (hm.get? hg).display hs
    next => exact source hs

namespace Forest

/-- Outside of loops, opening braces stand only in texts, and in none inside an element whose
content is not markup. -/
def FillsTexts : Forest → Prop
  | .nil => True
  | .node content children next =>
    (content.isElement (·.isLoop) = false →
      ((∀ shown, content ≠ .text shown) → '{' ∉ content.opening) ∧ children.FillsTexts ∧
        (content.isElement (fun e => isRawTextName e.name) = true → children.Braceless)) ∧
      next.FillsTexts

/-- A start tag is kept, and so are the children of a loop. -/
theorem FillsTexts.fill_element {e : Element} {children next : Forest}
    (h : (Forest.node (.element e) children next).FillsTexts) (model : Model) :
    ∃ inside, (Forest.node (.element e) children next).fill model =
        .node (.element e) inside (next.fill model) ∧
      (inside = children ∨ inside = children.fill model ∧ children.FillsTexts ∧
        (isRawTextName e.name = true → children.Braceless)) := by
  cases hl : (Content.element e).isElement (·.isLoop) with
  | true => exact ⟨children, fill_loop hl model children next, .inl rfl⟩
  | false =>
    obtain ⟨hopening, hchildren, hraw⟩ := h.1 hl
    refine ⟨children.fill model, ?_, .inr ⟨rfl, hchildren, hraw⟩⟩
    rw [fill_other hl, Content.fill_of_notMem (hopening nofun)]

/-- Filling with plain data keeps the shape of what is written. -/
theorem Writable.fill {forest : Forest} (h : forest.Writable) (ht : forest.FillsTexts)
    {model : Model} (hm : model.Plain) : (forest.fill model).Writable := by
  induction h with
  | nil => exact .nil
  | text hs _ ih => exact .text (substitute_plain hm hs) (ih ht.2)
  | verbatim hs _ ih =>
    have hopening := (ht.1 rfl).1 nofun
    rw [fill_other rfl, Content.fill_of_notMem hopening]
    exact .verbatim hs (ih ht.2)
  | single he hf _ ih =>
    obtain ⟨inside, hfill, hinside⟩ := ht.fill_element model
    obtain rfl : inside = .nil := hinside.elim id fun h => h.1
    rw [hfill]
    exact .single he hf (ih ht.2)
  | raw he hf hr _ ih =>
    obtain ⟨inside, hfill, hinside⟩ := ht.fill_element model
    obtain rfl : inside = .nil := hinside.elim id fun h => h.1
    rw [hfill]
    exact .raw he hf hr (ih ht.2)
  | @rawText _ shown _ he hf hr hl _ ih =>
    obtain ⟨inside, hfill, hinside⟩ := ht.fill_element model
    obtain rfl : inside = .node (.text shown) .nil .nil :=
      hinside.elim id fun ⟨h, _, hbraceless⟩ => h.trans ((hbraceless hr).fill_eq model)
    rw [hfill]
    exact .rawText he hf hr hl (ih ht.2)
  | normal he hf hr hc _ ihc ih =>
    obtain ⟨inside, hfill, hinside⟩ := ht.fill_element model
    rw [hfill]
    rcases hinside with rfl | ⟨rfl, hchildren, _⟩
    · exact .normal he hf hr hc (ih ht.2)
    · exact .normal he hf hr (ihc hchildren) (ih ht.2)

end Forest

end MarkupTemplate
