import MarkupTemplate.Proofs.Data.PathGrammar
import MarkupTemplate.Proofs.Data.ModelWalk
import MarkupTemplate.Proofs.Text.WordEnds

namespace MarkupTemplate

theorem isCaseless_of_isBlank {c : Char} (h : isBlank c = true) : isCaseless c = true := by
  have inside : c.toNat ≤ 0x40 ∨ (0x7B ≤ c.toNat ∧ c.toNat ≤ 0xA0) ∨ c.toNat = 0x1680 ∨
      (0x2000 ≤ c.toNat ∧ c.toNat ≤ 0x205F) ∨ c.toNat = 0x3000 := by
    simp only [isBlank, Bool.or_eq_true, Bool.and_eq_true, decide_eq_true_eq, beq_iff_eq] at h
    omega
  rcases inside with hc | ⟨hf, hl⟩ | hc | ⟨hf, hl⟩ | hc
  · exact isCaseless_of_mem (show .ofRange 0 0x40 ∈ caselessRuns by simp [caselessRuns])
      (Nat.zero_le _) hc
  · exact isCaseless_of_mem (by simp [caselessRuns]) hf hl
  · exact isCaseless_of_mem (by simp [caselessRuns]) (Nat.le_of_eq hc.symm) (Nat.le_of_eq hc)
  · exact isCaseless_of_mem (by simp [caselessRuns]) hf hl
  · exact isCaseless_of_mem (by simp [caselessRuns]) (Nat.le_of_eq hc.symm) (Nat.le_of_eq hc)

theorem isCaseless_of_isPathDelimiter {c : Char} (h : isPathDelimiter c = true) :
    isCaseless c = true := by
  simp only [isPathDelimiter, Bool.or_eq_true, beq_iff_eq] at h
  rcases h with ((((rfl | rfl) | rfl) | rfl) | rfl) | hb
  · decide
  · decide
  · decide
  · decide
  · decide
  · exact isCaseless_of_isBlank hb

theorem isCaseless_of_digit {c : Char} (h : '0' ≤ c ∧ c ≤ '9') : isCaseless c = true := by
  have last : c.toNat ≤ '9'.toNat := UInt32.le_iff_toNat_le.mp h.2
  exact isCaseless_of_mem (show .ofRange 0 0x40 ∈ caselessRuns by simp [caselessRuns])
    (Nat.zero_le _) (Nat.le_trans last (by decide))

theorem IsNumeral.caseless {sign digits : Text} (hs : sign = [] ∨ sign = ['+'])
    (h : IsNumeral digits) : ∀ c ∈ sign ++ digits, isCaseless c = true := by
  intro c hc
  rcases List.mem_append.mp hc with hc | hc
  · rcases hs with rfl | rfl
    · cases hc
    · rw [List.mem_singleton.mp hc]
      decide
  · exact isCaseless_of_digit (h.all_digits c hc)

/-- A numeral has no case. -/
theorem index?_lowerText (name : Text) : index? (lowerText name) = index? name := by
  have settled {text : Text} {number : Nat} (h : index? text = some number) :
      ∀ c ∈ text, isCaseless c = true := by
    obtain ⟨sign, digits, hs, rfl, hn, -⟩ := index?_eq_some_iff.mp h
    exact hn.caseless hs
  rw [lowerText_eq_lowerIn]
  cases hn : index? name with
  | some number => rw [lowerIn_of_caseless (settled hn), hn]
  | none =>
    cases hl : index? (lowerIn [] name []) with
    | none => rfl
    | some number => rw [← hl, lowerIn_eq_self (settled hl), hn]

/-- A step whose name is in lower case. -/
def Segment.lower : Segment → Segment
  | .key name => .key (lowerText name)
  | .index position => .index position

theorem fieldNamed?_lowerText (name : Text) (fields : List (Text × Value)) :
    fieldNamed? (lowerText name) fields = fieldNamed? name fields := by
  rw [fieldNamed?, lowerText_lowerText]
  rfl

theorem Value.follow?_lower (value : Value) (segment : Segment) :
    value.follow? segment.lower = value.follow? segment := by
  cases segment with
  | index position => rfl
  | key name =>
    cases value with
    | record fields => exact fieldNamed?_lowerText name fields
    | list items =>
      change (index? (lowerText name)).bind _ = (index? name).bind _
      rw [index?_lowerText]
    | null | bool | number | text => rfl

theorem Value.followAll?_lower (value : Value) (segments : List Segment) :
    value.followAll? (segments.map Segment.lower) = value.followAll? segments := by
  induction segments generalizing value with
  | nil => rfl
  | cons segment segments ih =>
    rw [List.map_cons, followAll?_cons, followAll?_cons, follow?_lower]
    congr 1
    funext inner
    exact ih inner

/-- A path whose names are in lower case. -/
def Path.lower (path : Path) : Path :=
  ⟨lowerText path.head, path.segments.map Segment.lower⟩

/-- A path leads to the same with its names in lower case. -/
theorem Model.follow?_lower (model : Model) (path : Path) :
    model.follow? path.lower = model.follow? path := by
  rw [follow?, Path.lower, fieldNamed?_lowerText]
  congr 1
  funext value
  exact value.followAll?_lower path.segments

theorem isPathName_lowerIn_iff {name : Text} (before after : Text) :
    IsPathName (lowerIn before name after) ↔ IsPathName name := by
  have delimiter (c : Char) (hc : isPathDelimiter c = true) :
      c ∈ lowerIn before name after ↔ c ∈ name :=
    mem_lowerIn_iff (isCaseless_of_isPathDelimiter hc)
  simp only [IsPathName, ne_eq, lowerIn_eq_nil_iff, ← Bool.not_eq_true]
  exact and_congr_right fun _ => ⟨fun h c hc hd => h c ((delimiter c hd).mpr hc) hd,
    fun h c hc hd => h c ((delimiter c hd).mp hc) hd⟩

theorem WritesSteps.head_isCaseless {rest : Text} {segments : List Segment}
    (h : WritesSteps rest segments) : ∀ c ∈ rest.head?, isCaseless c = true :=
  fun c hc => isCaseless_of_isPathDelimiter (h.head_isPathDelimiter c hc)

/-- Quotes and digits come from nothing but themselves. -/
theorem exists_inBrackets_of_lowerIn {before inner after : Text} {segment : Segment}
    (h : InBrackets (lowerIn before inner after) segment) :
    ∃ other, InBrackets inner other := by
  generalize hl : lowerIn before inner after = lowered at h
  cases h with
  | @quoted quote name hq hn =>
    have caseless : isCaseless quote = true := by rcases hq with rfl | rfl <;> decide
    obtain ⟨tail, rfl, htail⟩ := lowerIn_eq_cons caseless hl
    obtain ⟨inside, last, rfl, hinside, hlast⟩ := lowerIn_eq_append_cons caseless htail
    obtain rfl := lowerIn_eq_nil_iff.mp hlast
    refine ⟨.key inside, .quoted hq fun hm => hn ?_⟩
    rw [← hinside]
    exact (mem_lowerIn_iff (by decide)).mpr hm
  | number hs hd =>
    have same : lowerIn before inner after = inner :=
      lowerIn_eq_self (by rw [hl]; exact hd.caseless hs)
    rw [← same, hl]
    exact ⟨_, .number hs hd⟩

/-- What writes steps in lower case wrote steps before. -/
theorem exists_writesSteps_of_lowerIn {before text after : Text} {segments : List Segment}
    (h : WritesSteps (lowerIn before text after) segments) :
    ∃ others, WritesSteps text others := by
  generalize hl : lowerIn before text after = lowered at h
  induction h generalizing before text with
  | nil =>
    rw [lowerIn_eq_nil_iff.mp hl]
    exact ⟨[], .nil⟩
  | @dotted name rest segments hn hr ih =>
    obtain ⟨tail, rfl, htail⟩ := lowerIn_eq_cons (by decide) hl
    obtain ⟨name, rest, rfl, rfl, hrest⟩ := lowerIn_eq_append hr.head_isCaseless htail
    obtain ⟨others, ho⟩ := ih hrest
    exact ⟨_, .dotted ((isPathName_lowerIn_iff ..).mp hn) ho⟩
  | @bracketed inner rest segment segments hb _ ih =>
    obtain ⟨tail, rfl, htail⟩ := lowerIn_eq_cons (by decide) hl
    obtain ⟨inner, rest, rfl, rfl, hrest⟩ := lowerIn_eq_append_cons (by decide) htail
    obtain ⟨others, ho⟩ := ih hrest
    obtain ⟨other, hi⟩ := exists_inBrackets_of_lowerIn hb
    exact ⟨_, .bracketed hi ho⟩

theorem exists_writesPath_of_lowerText {text : Text} {path : Path}
    (h : WritesPath (lowerText text) path) : ∃ other, WritesPath text other := by
  rw [lowerText_eq_lowerIn] at h
  generalize hl : lowerIn [] text [] = lowered at h
  cases h with
  | intro hn hr =>
    obtain ⟨name, rest, rfl, rfl, hrest⟩ := lowerIn_eq_append hr.head_isCaseless hl
    obtain ⟨others, ho⟩ := exists_writesSteps_of_lowerIn (hrest ▸ hr)
    exact ⟨_, .intro ((isPathName_lowerIn_iff ..).mp hn) ho⟩

/-- The text writes steps, and behind `before`, nearest first, the sigmas of their names end a word
exactly if they end one in the name alone. -/
inductive StepsKeepSigmas : Text → Text → Prop
  | nil {before : Text} : StepsKeepSigmas before []
  | dotted {before name rest : Text} : IsPathName name → KeepsSigmas ('.' :: before) name rest →
      StepsKeepSigmas (name.reverse ++ '.' :: before) rest →
      StepsKeepSigmas before ('.' :: (name ++ rest))
  | quoted {before name rest : Text} {quote : Char} : quote = '"' ∨ quote = '\'' → ']' ∉ name →
      KeepsSigmas (quote :: '[' :: before) name (quote :: ']' :: rest) →
      StepsKeepSigmas (']' :: quote :: (name.reverse ++ quote :: '[' :: before)) rest →
      StepsKeepSigmas before ('[' :: (quote :: (name ++ [quote]) ++ ']' :: rest))
  | number {before sign digits rest : Text} : sign = [] ∨ sign = ['+'] → IsNumeral digits →
      StepsKeepSigmas (']' :: ((sign ++ digits).reverse ++ '[' :: before)) rest →
      StepsKeepSigmas before ('[' :: (sign ++ digits ++ ']' :: rest))

/-- The text writes a path in which the sigmas of each name end a word exactly if they end one in
the name alone. -/
inductive KeepsNames : Text → Prop
  | intro {head rest : Text} : IsPathName head → KeepsSigmas [] head rest →
      StepsKeepSigmas head.reverse rest → KeepsNames (head ++ rest)

theorem lowerIn_dotted (before name rest : Text) :
    lowerIn before ('.' :: (name ++ rest)) [] =
      '.' :: (lowerIn ('.' :: before) name rest ++
        lowerIn (name.reverse ++ '.' :: before) rest []) := by
  rw [lowerIn_cons_caseless (by decide), lowerIn_append, List.append_nil]

theorem lowerIn_quoted {quote : Char} (h : quote = '"' ∨ quote = '\'')
    (before name rest : Text) :
    lowerIn before ('[' :: (quote :: (name ++ [quote]) ++ ']' :: rest)) [] =
      '[' :: (quote :: (lowerIn (quote :: '[' :: before) name (quote :: ']' :: rest) ++ [quote]) ++
        ']' :: lowerIn (']' :: quote :: (name.reverse ++ quote :: '[' :: before)) rest []) := by
  have caseless : isCaseless quote = true := by rcases h with rfl | rfl <;> decide
  rw [lowerIn_cons_caseless (by decide), List.cons_append, lowerIn_cons_caseless caseless,
    List.append_assoc, lowerIn_append, List.singleton_append, lowerIn_cons_caseless caseless,
    lowerIn_cons_caseless (by decide), List.append_nil]
  simp

theorem lowerIn_numbered {sign digits : Text} (hs : sign = [] ∨ sign = ['+'])
    (hd : IsNumeral digits) (before rest : Text) :
    lowerIn before ('[' :: (sign ++ digits ++ ']' :: rest)) [] =
      '[' :: (sign ++ digits ++
        ']' :: lowerIn (']' :: ((sign ++ digits).reverse ++ '[' :: before)) rest []) := by
  rw [lowerIn_cons_caseless (by decide), lowerIn_append, lowerIn_of_caseless (hd.caseless hs),
    lowerIn_cons_caseless (by decide)]

theorem StepsKeepSigmas.writesSteps {before text : Text} (h : StepsKeepSigmas before text) :
    ∃ segments, WritesSteps text segments ∧
      WritesSteps (lowerIn before text []) (segments.map Segment.lower) := by
  induction h with
  | nil => exact ⟨[], .nil, .nil⟩
  | @dotted before name rest hn hk _ ih =>
    obtain ⟨segments, hw, hl⟩ := ih
    refine ⟨.key name :: segments, .dotted hn hw, ?_⟩
    have alone := lowerIn_eq_lowerText_iff.mpr hk
    have lowered := (isPathName_lowerIn_iff ('.' :: before) rest).mpr hn
    rw [lowerIn_dotted]
    rw [alone] at lowered ⊢
    exact .dotted lowered hl
  | @quoted before name rest quote hq hc hk _ ih =>
    obtain ⟨segments, hw, hl⟩ := ih
    refine ⟨.key name :: segments, .bracketed (.quoted hq hc) hw, ?_⟩
    have alone := lowerIn_eq_lowerText_iff.mpr hk
    have inside : ']' ∉ lowerIn (quote :: '[' :: before) name (quote :: ']' :: rest) :=
      fun hm => hc ((mem_lowerIn_iff (by decide)).mp hm)
    rw [lowerIn_quoted hq]
    rw [alone] at inside ⊢
    exact .bracketed (.quoted hq inside) hl
  | @number before sign digits rest hs hd _ ih =>
    obtain ⟨segments, hw, hl⟩ := ih
    refine ⟨.index (decimalValue digits) :: segments, .bracketed (.number hs hd) hw, ?_⟩
    rw [lowerIn_numbered hs hd]
    exact .bracketed (.number hs hd) hl

theorem KeepsNames.writesPath {text : Text} (h : KeepsNames text) :
    ∃ path, WritesPath text path ∧ WritesPath (lowerText text) path.lower := by
  obtain @⟨head, rest, hn, hk, hs⟩ := h
  obtain ⟨segments, hw, hl⟩ := hs.writesSteps
  refine ⟨_, .intro hn hw, ?_⟩
  have alone := lowerIn_eq_lowerText_iff.mpr hk
  have lowered := (isPathName_lowerIn_iff [] rest).mpr hn
  rw [alone] at lowered
  rw [lowerText_eq_lowerIn, lowerIn_append, List.append_nil, alone, List.append_nil]
  exact .intro lowered hl

/-- The name by which a step asks a record for a field. -/
def Segment.lowerName (segment : Segment) : Text :=
  lowerText segment.name

theorem keepsSigmas_of_lowerName {before name after : Text}
    (h : lowerText (lowerIn before name after) = lowerText name) :
    KeepsSigmas before name after := by
  have lower : lowerText (lowerIn before name after) = lowerIn before name after :=
    lowerAfter_of_isLower fun _ hd => isLower_of_mem_lowerIn hd
  rw [lower] at h
  exact lowerIn_eq_lowerText_iff.mp h

/-- Steps are steps in lower case. Unless a sigma changes, they ask for the same names. -/
theorem exists_writesSteps_lowerIn {text : Text} {segments : List Segment}
    (h : WritesSteps text segments) (before : Text) :
    ∃ others, WritesSteps (lowerIn before text []) others ∧
      (others.map Segment.lowerName = segments.map Segment.lowerName →
        StepsKeepSigmas before text) := by
  induction h generalizing before with
  | nil => exact ⟨[], .nil, fun _ => .nil⟩
  | @dotted name rest segments hn _ ih =>
    obtain ⟨others, ho, keeps⟩ := ih (name.reverse ++ '.' :: before)
    rw [lowerIn_dotted]
    refine ⟨_, .dotted ((isPathName_lowerIn_iff ..).mpr hn) ho, fun same => ?_⟩
    obtain ⟨first, others⟩ := List.cons.inj same
    exact .dotted hn (keepsSigmas_of_lowerName first) (keeps others)
  | @bracketed inner rest segment segments hb _ ih =>
    cases hb with
    | @quoted quote name hq hc =>
      obtain ⟨others, ho, keeps⟩ := ih (']' :: quote :: (name.reverse ++ quote :: '[' :: before))
      have inside : ']' ∉ lowerIn (quote :: '[' :: before) name (quote :: ']' :: rest) :=
        fun hm => hc ((mem_lowerIn_iff (by decide)).mp hm)
      rw [lowerIn_quoted hq]
      refine ⟨_, .bracketed (.quoted hq inside) ho, fun same => ?_⟩
      obtain ⟨first, others⟩ := List.cons.inj same
      exact .quoted hq hc (keepsSigmas_of_lowerName first) (keeps others)
    | @number sign digits hs hd =>
      obtain ⟨others, ho, keeps⟩ := ih (']' :: ((sign ++ digits).reverse ++ '[' :: before))
      rw [lowerIn_numbered hs hd]
      refine ⟨_, .bracketed (.number hs hd) ho, fun same => ?_⟩
      exact .number hs hd (keeps (List.cons.inj same).2)

theorem exists_writesPath_lowerText {text : Text} {path : Path} (h : WritesPath text path) :
    ∃ other, WritesPath (lowerText text) other ∧
      (other.steps.map Segment.lowerName = path.steps.map Segment.lowerName →
        KeepsNames text) := by
  obtain @⟨head, rest, segments, hn, hr⟩ := h
  obtain ⟨others, ho, keeps⟩ := exists_writesSteps_lowerIn hr head.reverse
  rw [lowerText_eq_lowerIn, lowerIn_append, List.append_nil, List.append_nil]
  refine ⟨_, .intro ((isPathName_lowerIn_iff ..).mpr hn) ho, fun same => ?_⟩
  obtain ⟨first, others⟩ := List.cons.inj same
  exact .intro hn (keepsSigmas_of_lowerName first) (keeps others)

/-- Data through which these steps lead, and no others. -/
def Value.nest : List Segment → Value
  | [] => .null
  | segment :: segments => .record [(segment.lowerName, nest segments)]

theorem Value.flatten_nest (segments : List Segment) : (nest segments).flatten = nest segments := by
  induction segments with
  | nil => rw [nest, flatten]
  | cons segment segments ih =>
    rw [nest, flatten_record]
    simp [Segment.lowerName, ih, Table.ofPairs, Table.insert]

theorem Value.follow?_nest (segment other : Segment) (segments : List Segment) :
    (nest (segment :: segments)).follow? other =
      if other.lowerName = segment.lowerName then some (nest segments) else none := by
  rw [nest, follow?_record, fieldNamed?, Segment.lowerName, Segment.lowerName]
  by_cases same : lowerText other.name = lowerText segment.name
  · simp [Table.find?, same]
  · simp [Table.find?, same, Ne.symm same]

theorem Value.followAll?_nest_iff {others segments : List Segment} :
    (nest segments).followAll? others = some .null ↔
      others.map Segment.lowerName = segments.map Segment.lowerName := by
  induction segments generalizing others with
  | nil =>
    cases others with
    | nil => exact iff_of_true rfl rfl
    | cons other others => exact iff_of_false (fun h => nomatch h) (fun h => nomatch h)
  | cons segment segments ih =>
    cases others with
    | nil => exact iff_of_false (fun h => nomatch h) (fun h => nomatch h)
    | cons other others =>
      rw [followAll?_cons, follow?_nest, List.map_cons, List.map_cons, List.cons.injEq]
      by_cases first : other.lowerName = segment.lowerName
      · rw [if_pos first, Option.bind_some, ih]
        exact (and_iff_right first).symm
      · rw [if_neg first]
        exact iff_of_false (fun h => nomatch h) (fun h => first h.1)

theorem Model.follow?_ofValue_nest (path other : Path) :
    (ofValue (.nest path.steps)).follow? other =
      (Value.nest path.steps).followAll? other.steps := by
  rw [ofValue, Value.flatten_nest]
  rfl

namespace Model

theorem get?_of_writesPath {text : Text} {path : Path} (h : WritesPath text path) (model : Model) :
    model.get? text = model.follow? path := by
  rw [get?, Path.read?_eq_some_iff.mpr h, Option.bind_some]

theorem get?_of_not_writesPath {text : Text} (h : ∀ path, ¬WritesPath text path) (model : Model) :
    model.get? text = none := by
  rw [get?, Option.bind_eq_none_iff]
  exact fun path read => absurd (Path.read?_eq_some_iff.mp read) (h path)

/-- A path in lower case leads to the same in all data exactly if each sigma of a name ends a word
in the path where it ends one in the name alone. A text that writes no path writes none in lower
case either. -/
theorem get?_lowerText_iff (text : Text) :
    (∀ value, (ofValue value).get? (lowerText text) = (ofValue value).get? text) ↔
      ∀ path, WritesPath text path → KeepsNames text := by
  constructor
  · intro same path hw
    obtain ⟨other, ho, keeps⟩ := exists_writesPath_lowerText hw
    -- data through which no other names lead than those of the path
    have led := same (.nest path.steps)
    rw [get?_of_writesPath ho, get?_of_writesPath hw, follow?_ofValue_nest,
      follow?_ofValue_nest] at led
    exact keeps (Value.followAll?_nest_iff.mp (led.trans (Value.followAll?_nest_iff.mpr rfl)))
  · intro keeps value
    by_cases writes : ∃ path, WritesPath text path
    · obtain ⟨path, hw⟩ := writes
      obtain ⟨path, hw, hl⟩ := (keeps path hw).writesPath
      rw [get?_of_writesPath hl, get?_of_writesPath hw, follow?_lower]
    · rw [get?_of_not_writesPath fun path hw => writes ⟨path, hw⟩,
        get?_of_not_writesPath fun path hw => writes (exists_writesPath_of_lowerText hw)]

/-- The dot behind the sigma does not end the word, so the sigma is another letter in the path than
in the name. -/
theorem get?_lowerText_ne :
    (ofValue (.record [("ΑΣ".toList, .record [("x".toList, .bool true)])])).get?
        (lowerText "ΑΣ.x".toList) ≠
      (ofValue (.record [("ΑΣ".toList, .record [("x".toList, .bool true)])])).get?
        "ΑΣ.x".toList := by
  have read : Path.read? "ΑΣ.x".toList = some ⟨"ΑΣ".toList, [.key "x".toList]⟩ := by
    decide +kernel
  have lowered : Path.read? (lowerText "ΑΣ.x".toList) = some ⟨"ασ".toList, [.key "x".toList]⟩ := by
    decide +kernel
  rw [get?, get?, read, lowered, Option.bind_some, Option.bind_some]
  refine fun same => absurd (congrArg Option.isSome same) ?_
  decide +kernel

end Model

end MarkupTemplate
