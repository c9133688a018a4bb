import MarkupTemplate.Data.PathScan
import MarkupTemplate.Proofs.Markup.StartTags

namespace MarkupTemplate

/-- A name that stands in a path without quotes. -/
def IsPathName (name : Text) : Prop :=
  name ≠ [] ∧ ∀ c ∈ name, isPathDelimiter c = false

/-- The number that decimal digits write. -/
def decimalValue (digits : Text) : Nat :=
  digits.foldl (fun value c => 10 * value + (c.toNat - '0'.toNat)) 0

/-- Decimal digits that write a number of 64 bits. -/
structure IsNumeral (digits : Text) : Prop where
  ne_nil : digits ≠ []
  all_digits : ∀ c ∈ digits, '0' ≤ c ∧ c ≤ '9'
  fits : decimalValue digits < wordLimit

/-- The text between two brackets and the step that it writes: a name in quotes, or a number with a
sign before it or none. -/
inductive InBrackets : Text → Segment → Prop
  | quoted {quote : Char} {name : Text} : quote = '"' ∨ quote = '\'' → ']' ∉ name →
      InBrackets (quote :: (name ++ [quote])) (.key name)
  | number {sign digits : Text} : sign = [] ∨ sign = ['+'] → IsNumeral digits →
      InBrackets (sign ++ digits) (.index (decimalValue digits))

/-- The text behind the head of a path and the steps that it writes. -/
inductive WritesSteps : Text → List Segment → Prop
  | nil : WritesSteps [] []
  | dotted {name rest : Text} {segments : List Segment} :
      IsPathName name → WritesSteps rest segments →
      WritesSteps ('.' :: (name ++ rest)) (.key name :: segments)
  | bracketed {inner rest : Text} {segment : Segment} {segments : List Segment} :
      InBrackets inner segment → WritesSteps rest segments →
      WritesSteps ('[' :: (inner ++ ']' :: rest)) (segment :: segments)

/-- The text writes the path. -/
inductive WritesPath : Text → Path → Prop
  | intro {head rest : Text} {segments : List Segment} :
      IsPathName head → WritesSteps rest segments → WritesPath (head ++ rest) ⟨head, segments⟩

theorem digit?_eq_some_iff {c : Char} {d : Nat} :
    digit? c = some d ↔ ('0' ≤ c ∧ c ≤ '9') ∧ c.toNat - '0'.toNat = d := by
  rw [digit?]
  split
  next h => simp [h]
  next h => simp [h]

theorem digitsValue?_eq_some_iff {digits : Text} {value number : Nat} :
    digitsValue? value digits = some number ↔
      (∀ c ∈ digits, '0' ≤ c ∧ c ≤ '9') ∧
        digits.foldl (fun value c => 10 * value + (c.toNat - '0'.toNat)) value = number := by
  induction digits generalizing value with
  | nil => simp [digitsValue?]
  | cons c rest ih =>
    rw [digitsValue?]
    cases hd : digit? c with
    | none =>
      have hc : ¬('0' ≤ c ∧ c ≤ '9') := fun hc => by
        rw [digit?_eq_some_iff.mpr ⟨hc, rfl⟩] at hd
        cases hd
      simp [hc]
    | some d =>
      obtain ⟨hc, rfl⟩ := digit?_eq_some_iff.mp hd
      simp only [ih, List.forall_mem_cons, hc, List.foldl_cons, and_self, true_and]

theorem digitsValue?_word_eq_some_iff {digits : Text} {number : Nat} :
    (if digits.isEmpty then none else (digitsValue? 0 digits).filter (· < wordLimit)) =
        some number ↔
      IsNumeral digits ∧ decimalValue digits = number := by
  cases digits with
  | nil => exact iff_of_false (fun h => nomatch h) (fun h => h.1.ne_nil rfl)
  | cons c rest =>
    rw [if_neg (by simp), Option.filter_eq_some_iff, digitsValue?_eq_some_iff, decide_eq_true_eq]
    constructor
    · rintro ⟨⟨hd, rfl⟩, hl⟩
      exact ⟨⟨List.cons_ne_nil c rest, hd, hl⟩, rfl⟩
    · rintro ⟨hn, rfl⟩
      exact ⟨⟨hn.all_digits, rfl⟩, hn.fits⟩

theorem IsNumeral.ne_plus {c : Char} {rest : Text} (h : IsNumeral (c :: rest)) : c ≠ '+' := by
  rintro rfl
  exact absurd (h.all_digits '+' List.mem_cons_self) (by decide)

theorem index?_eq_some_iff {text : Text} {number : Nat} :
    index? text = some number ↔
      ∃ sign digits, (sign = [] ∨ sign = ['+']) ∧ text = sign ++ digits ∧ IsNumeral digits ∧
        decimalValue digits = number := by
  constructor
  · intro h
    unfold index? at h
    dsimp only at h
    split at h
    next rest =>
      obtain ⟨hn, hv⟩ := digitsValue?_word_eq_some_iff.mp h
      exact ⟨['+'], rest, .inr rfl, rfl, hn, hv⟩
    next =>
      obtain ⟨hn, hv⟩ := digitsValue?_word_eq_some_iff.mp h
      exact ⟨[], text, .inl rfl, rfl, hn, hv⟩
  · rintro ⟨sign, digits, hs, rfl, hn, rfl⟩
    have read := digitsValue?_word_eq_some_iff.mpr ⟨hn, rfl⟩
    rcases hs with rfl | rfl
    · obtain ⟨c, rest, rfl⟩ := List.exists_cons_of_ne_nil hn.ne_nil
      rw [List.nil_append]
      unfold index?
      dsimp only
      split
      next he => exact absurd (List.cons.inj he).1 hn.ne_plus
      next => exact read
    · exact read

theorem bracketSegment?_quoted {quote : Char} (h : quote = '"' ∨ quote = '\'') (name : Text) :
    bracketSegment? (quote :: (name ++ [quote])) = some (.key name) := by
  have last : (quote :: (name ++ [quote])).getLast? = some quote :=
    List.getLast?_eq_some_iff.mpr ⟨quote :: name, rfl⟩
  have inside : (name ++ [quote]).dropLast = name := List.dropLast_concat ..
  obtain ⟨c, rest, hc⟩ := List.exists_cons_of_ne_nil (List.append_ne_nil_of_right_ne_nil name
    (List.cons_ne_nil quote []))
  rw [hc] at last inside ⊢
  rcases h with rfl | rfl <;> simp [bracketSegment?, last, inside]

theorem bracketSegment?_of_ne_quote {inner : Text}
    (h : ∀ quote ∈ inner.head?, quote ≠ '"' ∧ quote ≠ '\'') :
    bracketSegment? inner = (index? inner).map .index := by
  unfold bracketSegment?
  split
  next => exact absurd rfl (h '"' rfl).1
  next => exact absurd rfl (h '\'' rfl).2
  next => rfl

theorem exists_append_quote {quote c : Char} {rest : Text}
    (last : (quote :: c :: rest).getLast? = some quote) : ∃ name, c :: rest = name ++ [quote] :=
  List.getLast?_eq_some_iff.mp (List.getLast?_cons_cons.symm.trans last)

theorem inBrackets_of_getLast? {quote c : Char} {rest : Text}
    (hq : quote = '"' ∨ quote = '\'') (h : ']' ∉ quote :: c :: rest)
    (last : (quote :: c :: rest).getLast? = some quote) :
    InBrackets (quote :: c :: rest) (.key (c :: rest).dropLast) := by
  obtain ⟨name, hname⟩ := exists_append_quote last
  rw [hname] at h ⊢
  rw [List.dropLast_concat]
  exact .quoted hq fun hm => h (List.mem_cons_of_mem _ (List.mem_append_left _ hm))

theorem bracketSegment?_eq_some_iff {inner : Text} {segment : Segment} (h : ']' ∉ inner) :
    bracketSegment? inner = some segment ↔ InBrackets inner segment := by
  constructor
  · intro hs
    unfold bracketSegment? at hs
    split at hs
    next last =>
      cases hs
      exact inBrackets_of_getLast? (.inl rfl) h last
    next last =>
      cases hs
      exact inBrackets_of_getLast? (.inr rfl) h last
    next =>
      obtain ⟨number, hi, rfl⟩ := Option.map_eq_some_iff.mp hs
      obtain ⟨sign, digits, hsign, rfl, hn, rfl⟩ := index?_eq_some_iff.mp hi
      exact .number hsign hn
  · intro hb
    cases hb with
    | quoted hq _ => exact bracketSegment?_quoted hq _
    | @number sign digits hsign hn =>
      have read : index? (sign ++ digits) = some (decimalValue digits) :=
        index?_eq_some_iff.mpr ⟨sign, digits, hsign, rfl, hn, rfl⟩
      rw [bracketSegment?_of_ne_quote, read, Option.map_some]
      intro quote hm
      obtain ⟨c, rest, rfl⟩ := List.exists_cons_of_ne_nil hn.ne_nil
      rcases hsign with rfl | rfl
      · obtain rfl := Option.some.inj hm
        have hc := hn.all_digits c List.mem_cons_self
        constructor <;> rintro rfl <;> exact absurd hc (by decide)
      · cases hm
        decide

theorem append_spanKey (text : Text) : (spanKey text).1 ++ (spanKey text).2 = text :=
  List.takeWhile_append_dropWhile

theorem isPathName_spanKey {text : Text} (h : (spanKey text).1 ≠ []) :
    IsPathName (spanKey text).1 := by
  refine ⟨h, fun c hc => ?_⟩
  simpa using List.all_eq_true.mp (List.all_takeWhile (l := text) (p := (!isPathDelimiter ·))) c hc

/-- Behind a name comes the end, a dot or a bracket. -/
theorem WritesSteps.head_isPathDelimiter {rest : Text} {segments : List Segment}
    (h : WritesSteps rest segments) : ∀ c ∈ rest.head?, isPathDelimiter c = true := by
  intro c hc
  cases h with
  | nil => cases hc
  | dotted | bracketed =>
    obtain rfl := Option.some.inj hc
    decide

theorem spanKey_append {name rest : Text} {segments : List Segment} (hn : IsPathName name)
    (hr : WritesSteps rest segments) : spanKey (name ++ rest) = (name, rest) := by
  have inside : ∀ c ∈ name, (!isPathDelimiter c) = true := fun c hc => by simp [hn.2 c hc]
  have stop : ∀ c ∈ rest.head?, (!isPathDelimiter c) = false :=
    fun c hc => by simp [hr.head_isPathDelimiter c hc]
  obtain ⟨htake, hdrop⟩ := span_append inside stop
  rw [spanKey, htake, hdrop]

theorem InBrackets.notMem {inner : Text} {segment : Segment} (h : InBrackets inner segment) :
    ']' ∉ inner := by
  cases h with
  | quoted hq hn => rcases hq with rfl | rfl <;> simp [hn]
  | @number sign digits hs hn =>
    have hd : ']' ∉ digits := fun hm => absurd (hn.all_digits ']' hm) (by decide)
    rcases hs with rfl | rfl <;> simp [hd]

theorem writesSteps_of_readSegments? {text : Text} {segments : List Segment}
    (h : readSegments? text = some segments) : WritesSteps text segments := by
  fun_induction readSegments? text generalizing segments with
  | case1 =>
    cases h
    exact .nil
  | case3 rest _ hn ih =>
    obtain ⟨others, ho, rfl⟩ := Option.map_eq_some_iff.mp h
    have written := WritesSteps.dotted (isPathName_spanKey (by simpa using hn)) (ih ho)
    rwa [append_spanKey] at written
  | case6 rest inner after hc _ segment hs ih =>
    obtain ⟨others, ho, rfl⟩ := Option.map_eq_some_iff.mp h
    have bracketed := (bracketSegment?_eq_some_iff (notMem_of_cut? hc)).mp hs
    rw [← append_of_cut? hc, List.append_assoc]
    exact .bracketed bracketed (ih ho)
  | case2 | case4 | case5 | case7 => cases h

theorem readSegments?_of_writesSteps {text : Text} {segments : List Segment}
    (h : WritesSteps text segments) : readSegments? text = some segments := by
  induction h with
  | nil => rw [readSegments?]
  | @dotted name rest segments hn hr ih =>
    have named : ¬name.isEmpty = true := by simpa using hn.1
    rw [readSegments?, spanKey_append hn hr]
    dsimp only
    rw [if_neg named, ih, Option.map_some]
  | @bracketed inner rest segment segments hb _ ih =>
    have cut := cut?_char hb.notMem rest
    have read := (bracketSegment?_eq_some_iff hb.notMem).mpr hb
    rw [readSegments?]
    split
    next hc =>
      rw [cut] at hc
      cases hc
    next hc =>
      rw [cut] at hc
      obtain ⟨rfl, rfl⟩ := Prod.mk.inj (Option.some.inj hc)
      simp only [read, ih, Option.map_some]

theorem Path.read?_eq_some_iff {text : Text} {path : Path} :
    Path.read? text = some path ↔ WritesPath text path := by
  constructor
  · intro h
    unfold Path.read? at h
    dsimp only at h
    split at h
    next => cases h
    next hn =>
      obtain ⟨segments, hs, rfl⟩ := Option.map_eq_some_iff.mp h
      have written := WritesPath.intro (isPathName_spanKey (by simpa using hn))
        (writesSteps_of_readSegments? hs)
      rwa [append_spanKey] at written
  · rintro ⟨hn, hr⟩
    have named : ¬List.isEmpty _ = true := fun he => hn.1 (List.isEmpty_iff.mp he)
    unfold Path.read?
    rw [spanKey_append hn hr]
    dsimp only
    rw [if_neg named, readSegments?_of_writesSteps hr, Option.map_some]

/-- A name in quotes is cut behind the one quote and before the other. -/
theorem scanBracket?_quoted {quote : Char} (h : quote = '"' ∨ quote = '\'') (name : Text) :
    scanBracket? (quote :: (name ++ [quote])) = some (some (.key name)) := by
  have size : quote.utf8Size = 1 := by rcases h with rfl | rfl <;> decide
  have last : (quote :: (name ++ [quote])).getLast? = some quote :=
    List.getLast?_eq_some_iff.mpr ⟨quote :: name, rfl⟩
  have length : encodedSize (quote :: (name ++ [quote])) = 1 + encodedSize name + 1 := by
    simp only [encodedSize, encodedSize_append, size]
    omega
  have long : 2 ≤ 1 + encodedSize name + 1 := by omega
  have sliced := slice?_append [quote] name [quote]
  have one : encodedSize [quote] = 1 := by simp [encodedSize, size]
  rw [one, List.singleton_append] at sliced
  unfold scanBracket?
  dsimp only
  rw [length, last, Nat.add_sub_cancel, sliced]
  rcases h with rfl | rfl <;> simp [long]

theorem scanBracket?_eq (inner : Text) : scanBracket? inner = some (bracketSegment? inner) := by
  unfold bracketSegment?
  split
  next c rest last =>
    obtain ⟨name, hname⟩ := exists_append_quote last
    rw [hname, scanBracket?_quoted (.inl rfl), List.dropLast_concat]
  next c rest last =>
    obtain ⟨name, hname⟩ := exists_append_quote last
    rw [hname, scanBracket?_quoted (.inr rfl), List.dropLast_concat]
  next inner _ _ double single =>
    unfold scanBracket?
    dsimp only
    rw [if_neg]
    intro quoted
    simp only [Bool.and_eq_true, Bool.or_eq_true, decide_eq_true_eq, beq_iff_eq] at quoted
    obtain ⟨long, quoted⟩ := quoted
    match inner, quoted with
    | [c], quoted =>
      have one : encodedSize [c] = 1 := by
        rcases quoted with ⟨head, -⟩ | ⟨head, -⟩ <;> cases head <;> decide
      omega
    | quote :: c :: rest, .inl ⟨head, last⟩ =>
      cases head
      exact double c rest rfl last
    | quote :: c :: rest, .inr ⟨head, last⟩ =>
      cases head
      exact single c rest rfl last

theorem scanName?_eq (text : Text) :
    scanName? text = some (if (spanKey text).1.isEmpty then none else some (spanKey text)) := by
  have length : (position? isPathDelimiter text).getD (encodedSize text) =
      encodedSize (spanKey text).1 := position?_getD isPathDelimiter text
  have name := sliceTo?_append (spanKey text).1 (spanKey text).2
  have tail := sliceFrom?_append (spanKey text).1 (spanKey text).2
  rw [append_spanKey] at name tail
  unfold scanName?
  dsimp only
  rw [length]
  by_cases hn : (spanKey text).1 = []
  · rw [hn]
    rfl
  · have pos := encodedSize_pos hn
    rw [if_neg (by omega), if_neg (by simpa using hn), name, tail]
    rfl

theorem scanBracketed?_eq (text : Text) :
    scanBracketed? text = some ((cut? [']'] text).bind fun found =>
      (bracketSegment? found.1).map (·, found.2)) := by
  unfold scanBracketed?
  rw [position?_char]
  cases hc : cut? [']'] text with
  | none => rfl
  | some found =>
    obtain ⟨inner, after⟩ := found
    have whole : inner ++ ']' :: after = text := by simpa using append_of_cut? hc
    have before := sliceTo?_append inner (']' :: after)
    have behind := sliceFrom?_append (inner ++ [']']) after
    rw [encodedSize_concat inner (by decide), List.append_assoc, List.singleton_append] at behind
    rw [whole] at before behind
    simp only [Option.map_some, before, scanBracket?_eq, Option.bind_eq_bind, Option.bind_some]
    cases bracketSegment? inner with
    | none => rfl
    | some segment =>
      simp only [behind, Option.bind_some]
      rfl

/-- Where a name is expected, the steps begin with the name up to the first delimiter. -/
theorem scanSteps?_name (text : Text) :
    scanSteps? true text = if (spanKey text).1.isEmpty then some none
      else (scanSteps? false (spanKey text).2).map fun found =>
        found.map (.key (spanKey text).1 :: ·) := by
  have scanned := scanName?_eq text
  rw [scanSteps?.eq_def true text]
  split at scanned
  next hn =>
    rw [if_pos hn]
    dsimp only
    split
    next h => rw [scanned] at h; cases h
    next => rfl
    next h => rw [scanned] at h; cases h
  next hn =>
    rw [if_neg hn]
    dsimp only
    split
    next h => rw [scanned] at h; cases h
    next h => rw [scanned] at h; cases h
    next h =>
      rw [scanned] at h
      cases h
      rfl

theorem scanSteps?_bracket (rest : Text) :
    scanSteps? false ('[' :: rest) =
      match (cut? [']'] rest).bind fun found => (bracketSegment? found.1).map (·, found.2) with
      | none => some none
      | some (segment, after) =>
        (scanSteps? false after).map fun found => found.map (segment :: ·) := by
  have scanned := scanBracketed?_eq rest
  rw [scanSteps?]
  split
  next h => rw [scanned] at h; cases h
  next h =>
    rw [scanned] at h
    rw [Option.some.inj h]
  next h =>
    rw [scanned] at h
    rw [Option.some.inj h]

theorem scanSteps?_eq (text : Text) : scanSteps? false text = some (readSegments? text) := by
  fun_induction readSegments? text with
  | case1 => rw [scanSteps?]
  | case2 rest _ hn => rw [scanSteps?, scanSteps?_name, if_pos hn]
  | case3 rest _ hn ih =>
    rw [scanSteps?, scanSteps?_name, if_neg hn, ih]
    rfl
  | case4 rest hc => rw [scanSteps?_bracket, hc]; rfl
  | case5 rest inner after hc _ hs =>
    rw [scanSteps?_bracket, hc, Option.bind_some, hs]
    rfl
  | case6 rest inner after hc _ segment hs ih =>
    rw [scanSteps?_bracket, hc, Option.bind_some, hs]
    simp only [Option.map_some, ih]
  | case7 rest hnil hdot hbracket => rw [scanSteps?] <;> assumption

/-- A text writes a path in at most one way, and this is what is read. Reading it by byte positions
comes to its end without cutting a character, and gives the same steps, or that there is no path. -/
theorem Path.read?_iff_writes (text : Text) :
    (∀ path, Path.read? text = some path ↔ WritesPath text path) ∧
      Path.scan? text = some ((Path.read? text).map Path.steps) := by
  refine ⟨fun path => Path.read?_eq_some_iff, ?_⟩
  rw [scan?, scanSteps?_name, scanSteps?_eq, read?]
  split
  next => rfl
  next => simp only [Option.map_some, Option.map_map]; rfl

end MarkupTemplate
