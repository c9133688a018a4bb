import MarkupTemplate.Proofs.Markup.ReadBack
import MarkupTemplate.Proofs.Markup.TokenSpans

namespace MarkupTemplate

/-- A text begins with an end tag of a name: the name in any case, and behind it what ends a
name. -/
def beginsEndTag (name : Text) : Text → Bool
  | '<' :: '/' :: rest =>
    sameName (rest.take name.length) name && (rest.drop name.length).head?.any (!inName ·)
  | _ => false

/-- The text up to the first end tag of a name, or to its end. -/
def rawContent (name : Text) : Text → Text
  | [] => []
  | c :: rest => if beginsEndTag name (c :: rest) then [] else c :: rawContent name rest

/-- Of what is read, at most one text makes up the content, and all else comes after it. -/
def ReadsAsText (content : Text) (reads : List (Token × Text)) : Prop :=
  ∃ inside later, reads = inside ++ later ∧ inside.flatMap Prod.snd = content ∧
    inside.length ≤ 1 ∧ ∀ read ∈ inside, ∃ shown, read.1 = .text shown

variable {name text before rest content : Text} {raw : Option Text} {c : Char}

theorem lt_of_beginsEndTag (h : beginsEndTag name text = true) :
    ∃ after, text = '<' :: '/' :: after ∧ sameName (after.take name.length) name = true := by
  unfold beginsEndTag at h
  split at h
  next after => exact ⟨after, rfl, (Bool.and_eq_true_iff.mp h).1⟩
  next => cases h

/-- Behind the content the text is at its end, or an end tag begins. -/
theorem exists_append_rawContent (name text : Text) :
    ∃ tail, text = rawContent name text ++ tail ∧ ∀ c ∈ tail.head?, c = '<' := by
  induction text with
  | nil => exact ⟨[], rfl, by simp⟩
  | cons c rest ih =>
    rw [rawContent]
    split
    next h =>
      obtain ⟨after, he, _⟩ := lt_of_beginsEndTag h
      exact ⟨c :: rest, rfl, by simp [he]⟩
    next =>
      obtain ⟨tail, he, hstop⟩ := ih
      exact ⟨tail, by rw [List.cons_append, ← he], hstop⟩

/-- Text before the first mark of a tag is in the content. -/
theorem take_rawContent {count : Nat} (h : '<' ∉ text.take count) :
    (rawContent name text).take count = text.take count := by
  induction text generalizing count with
  | nil => rfl
  | cons c rest ih =>
    cases count with
    | zero => rfl
    | succ count =>
      rw [List.take_succ_cons] at h
      obtain ⟨hc, hrest⟩ := not_or.mp (mt List.mem_cons.mpr h)
      have plain : beginsEndTag name (c :: rest) = false := by
        rw [Bool.eq_false_iff]
        intro he
        obtain ⟨_, he, _⟩ := lt_of_beginsEndTag he
        exact hc (List.cons.inj he).1.symm
      rw [rawContent, plain, if_neg Bool.false_ne_true, List.take_succ_cons, List.take_succ_cons,
        ih hrest]

theorem lt_notMem_of_sameName {found : Text} (hname : '<' ∉ lowerAscii name)
    (h : sameName found name = true) : '<' ∉ found := by
  intro hm
  obtain ⟨first, last, rfl⟩ := List.append_of_mem hm
  rw [sameName_append_lt hname] at h
  cases h

/-- What is taken for the content has no beginning of an end tag in it. -/
theorem lacksEndOf_spanRawText (name text : Text) :
    LacksEndOf name (spanRawText name text).1 := by
  induction text with
  | nil => exact fun before after he => by simp [spanRawText] at he
  | cons c rest ih =>
    rw [spanRawText]
    split
    next => exact fun before after he => by simp at he
    next hno =>
      intro before after he
      cases before with
      | cons d before => exact ih before after (List.cons.inj he).2
      | nil =>
        obtain ⟨rfl, hslash⟩ := List.cons.inj he
        have whole := append_spanRawText name rest
        rw [show (spanRawText name rest).1 = '/' :: after from hslash] at whole
        rw [← whole] at hno
        simp only [List.cons_append, List.head?_cons, List.drop_succ_cons, List.drop_zero,
          beq_self_eq_true, Bool.true_and] at hno
        by_cases long : name.length ≤ after.length
        · rw [List.take_append_of_le_length long] at hno
          simpa using hno
        · rw [Bool.eq_false_iff]
          intro hsame
          have := length_of_sameName hsame
          rw [List.length_take] at this
          omega

/-- The content is found exactly if no end tag seems to begin in it. -/
theorem spanRawText_eq_iff (hname : '<' ∉ lowerAscii name) :
    (spanRawText name text).1 = rawContent name text ↔ LacksEndOf name (rawContent name text) := by
  refine ⟨fun h => h ▸ lacksEndOf_spanRawText name text, fun h => ?_⟩
  induction text with
  | nil => rfl
  | cons c rest ih =>
    rw [rawContent] at h ⊢
    split at h
    next hend =>
      obtain ⟨after, he, hsame⟩ := lt_of_beginsEndTag hend
      obtain ⟨rfl, rfl⟩ := List.cons.inj he
      simp [hend, spanRawText, hsame]
    next hend =>
      rw [if_neg hend, spanRawText]
      split
      next hmark =>
        -- The name that seems to end the element lies in the content as a whole.
        simp only [Bool.and_eq_true, beq_iff_eq] at hmark
        obtain ⟨⟨rfl, hhead⟩, hsame⟩ := hmark
        obtain ⟨rest, rfl⟩ := List.head?_eq_some_iff.mp hhead
        have hsame : sameName (rest.take name.length) name = true := hsame
        have slash : rawContent name ('/' :: rest) = '/' :: rawContent name rest := rfl
        rw [slash] at h
        have lacks := h [] _ rfl
        rw [take_rawContent (lt_notMem_of_sameName hname hsame), hsame] at lacks
        cases lacks
      next => exact congrArg (c :: ·) (ih h.of_cons)

theorem startsName_of_toLower (h : startsName c.toLower = true) : startsName c = true := by
  unfold Char.toLower at h
  split at h
  next upper =>
    have isUpper : c.isUpper = true := decide_eq_true upper
    exact Bool.or_eq_true_iff.mpr (.inl isUpper)
  next => exact h

/-- The name of a raw text element begins with a letter, in any case. -/
theorem exists_cons_of_isRawTextName (hraw : isRawTextName name = true)
    (h : sameName (rest.take name.length) name = true) :
    ∃ c tail, rest = c :: tail ∧ startsName c = true := by
  have letters : ∀ raw ∈ rawTextNames, raw.head?.any startsName = true := by decide
  rw [isRawTextName, List.contains_iff_mem] at hraw
  have starts := letters _ hraw
  rw [← beq_iff_eq.mp h] at starts
  cases rest with
  | nil => simp [lowerAscii] at starts
  | cons c tail =>
    refine ⟨c, tail, rfl, startsName_of_toLower ?_⟩
    cases hn : name.length with
    | zero => simp [hn, lowerAscii] at starts
    | succ count => simpa [hn, lowerAscii] using starts

/-- What is read where an end tag seems to begin: one if the input has a `>` behind, and otherwise a
text up to the next mark. -/
theorem readToken_endTag (hraw : isRawTextName name = true)
    (h : sameName (rest.take name.length) name = true) :
    ('>' ∈ rest ∧ ∃ other after, readToken '<' ('/' :: rest) = (.closing other, after)) ∨
      ('>' ∉ rest ∧ readToken '<' ('/' :: rest) = readText '<' ('/' :: rest)) := by
  obtain ⟨c, tail, rfl, hc⟩ := exists_cons_of_isRawTextName hraw h
  have markup : readMarkup? ('<' :: '/' :: c :: tail) = (cut? ['>'] (spanName (c :: tail)).2).map
      fun found => (.closing (spanName (c :: tail)).1, found.2) :=
    readClosing?_of_startsName hc tail
  have named : '>' ∉ (spanName (c :: tail)).1 := fun hm =>
    (ne_of_inName (List.all_eq_true.mp List.all_takeWhile _ hm)).2.1 rfl
  by_cases hm : '>' ∈ c :: tail
  · refine .inl ⟨hm, ?_⟩
    rw [← append_spanName (c :: tail)] at hm
    obtain ⟨first, last, he, hfirst⟩ :=
      List.eq_append_cons_of_mem ((List.mem_append.mp hm).resolve_left named)
    rw [he, cut?_char hfirst, Option.map_some] at markup
    exact ⟨_, _, by rw [readToken, markup]; rfl⟩
  · refine .inr ⟨hm, ?_⟩
    have uncut : cut? ['>'] (spanName (c :: tail)).2 = none := by
      refine Option.eq_none_iff_forall_not_mem.mpr fun found hf => hm ?_
      rw [← append_spanName (c :: tail), ← append_of_cut? hf]
      simp
    rw [uncut, Option.map_none] at markup
    rw [readToken, markup]
    rfl

namespace Reader

variable {reads others done later : List (Token × Text)} {read : Token × Text} {input : Text}

/-- A reader gives the same whenever it is asked. -/
theorem Reads.unique {reader : Reader} (h : Reads reader reads) (h' : Reads reader others) :
    reads = others := by
  induction h generalizing others with
  | done _ hn =>
    cases h' with
    | done => rfl
    | next hn' => cases hn.symm.trans hn'
  | next hn _ hs _ ih =>
    cases h' with
    | done _ hn' => cases hn.symm.trans hn'
    | next hn' _ hs' hr' =>
      cases hn.symm.trans hn'
      cases hs.symm.trans hs'
      rw [ih hr']

/-- Behind what it has read, a reader stands at the rest of its input. -/
theorem Reads.behind (h : Reads ⟨before ++ text, encodedSize before, raw⟩ (done ++ read :: later)) :
    ∃ passed rest, before ++ text = passed ++ rest ∧
      Reads ⟨passed ++ rest, encodedSize passed, read.1.rawText?⟩ later := by
  have step {first : Token × Text} {left : List (Token × Text)} {before text : Text}
      {raw : Option Text} (h : Reads ⟨before ++ text, encodedSize before, raw⟩ (first :: left)) :
      ∃ passed rest, before ++ text = passed ++ rest ∧
        Reads ⟨passed ++ rest, encodedSize passed, first.1.rawText?⟩ left := by
    cases h with
    | next hn _ _ hr =>
      cases text with
      | nil => simp [next?] at hn
      | cons c rest =>
        obtain ⟨span, he, hnext⟩ := next?_append before rest c raw
        cases hn.symm.trans hnext
        refine ⟨before ++ span, (nextToken raw c rest).2, by rw [List.append_assoc, ← he], ?_⟩
        rwa [List.append_assoc, ← he]
  induction done generalizing before text raw with
  | nil => exact step h
  | cons first done ih =>
    obtain ⟨passed, rest, he, hr⟩ := step h
    obtain ⟨passed', rest', he', hr'⟩ := ih hr
    exact ⟨passed', rest', he.trans he', hr'⟩

/-- What a reader gives from a boundary on. -/
theorem Reads.eq (h : Reads ⟨before ++ text, encodedSize before, raw⟩ reads) :
    reads.map Prod.fst = tokensIn raw text ∧ reads.flatMap Prod.snd = text ∧
      ∀ read ∈ reads, read.2 ≠ [] ∧ read.1.Spans read.2 := by
  obtain ⟨same, hs, htokens, htext, hall⟩ := reads_append before text raw
  rw [h.unique hs]
  exact ⟨htokens, htext, hall⟩

/-- What a reader gives first. -/
theorem Reads.first (h : Reads ⟨before ++ c :: rest, encodedSize before, raw⟩ reads) :
    ∃ span others, reads = ((nextToken raw c rest).1, span) :: others ∧
      (nextToken raw c rest).1.Spans span := by
  obtain ⟨htokens, htext, hall⟩ := h.eq
  cases reads with
  | nil => cases htext
  | cons read others =>
    rw [tokensIn_cons rfl] at htokens
    obtain ⟨token, span⟩ := read
    obtain rfl : token = _ := (List.cons.inj htokens).1
    exact ⟨span, others, rfl, (hall _ List.mem_cons_self).2⟩

end Reader

/-- A content that is not empty is read as a text if that is the first thing read. -/
theorem readsAsText_cons_iff {token : Token} {span : Text} {later : List (Token × Text)}
    (hne : content ≠ []) (hs : token.Spans span) :
    ReadsAsText content ((token, span) :: later) ↔ token = .text content := by
  constructor
  · rintro ⟨inside, others, he, hc, hlength, hall⟩
    cases inside with
    | nil => exact absurd hc.symm hne
    | cons first inside =>
      obtain ⟨rfl, _⟩ := List.cons.inj he
      obtain ⟨shown, rfl⟩ := hall _ List.mem_cons_self
      have one : inside = [] := by simpa using hlength
      rw [one, List.flatMap_singleton] at hc
      rw [← hc, show span = shown from hs]
  · rintro rfl
    have same : span = content := hs
    exact ⟨[(.text content, span)], later, rfl, by simpa using same, Nat.le_refl 1, by simp⟩

theorem nextToken_raw (h : (spanRawText name (c :: rest)).1 ≠ []) :
    nextToken (some name) c rest =
      (.text (spanRawText name (c :: rest)).1, (spanRawText name (c :: rest)).2) := by
  simp [nextToken, h]

/-- The text up to the next mark makes up the content if the content has only the first one. -/
theorem takeWhile_eq_rawContent_iff :
    text.takeWhile (· != '<') = rawContent name text ↔ '<' ∉ rawContent name text := by
  constructor
  · intro he hm
    rw [← he] at hm
    simpa using List.all_eq_true.mp List.all_takeWhile _ hm
  · intro plain
    obtain ⟨tail, he, hstop⟩ := exists_append_rawContent name text
    have inside : ∀ c ∈ rawContent name text, (c != '<') = true := fun c hc => by
      rw [bne_iff_ne]
      rintro rfl
      exact plain hc
    exact (congrArg _ he).trans (span_append inside fun c hc => by simp [hstop c hc]).1

/-- If no end tag seems to begin at once and the content has no mark behind its first character,
none seems to begin in it. -/
theorem lacksEndOf_of_notMem_tail (hmark : (spanRawText name text).1 ≠ [])
    (hone : '<' ∉ (rawContent name text).tail) : LacksEndOf name (rawContent name text) := by
  intro before after he
  cases before with
  | cons c before => simp [he] at hone
  | nil =>
    rw [Bool.eq_false_iff]
    intro hsame
    obtain ⟨tail, ht, _⟩ := exists_append_rawContent name text
    rw [he, List.nil_append, List.cons_append, List.cons_append] at ht
    have long : name.length ≤ after.length := by
      rw [← length_of_sameName hsame, List.length_take]
      exact Nat.min_le_right ..
    refine hmark ?_
    rw [ht]
    simp [spanRawText, List.take_append_of_le_length long, hsame]

/-- Where an end tag seems to begin at once but does not, the content is read as a text only if
nothing else looks like markup in it and no `>` follows. -/
theorem nextToken_eq_rawContent_iff (hraw : isRawTextName name = true)
    (hmark : (spanRawText name (c :: rest)).1 = []) (hne : rawContent name (c :: rest) ≠ []) :
    (nextToken (some name) c rest).1 = .text (rawContent name (c :: rest)) ↔
      '<' ∉ (rawContent name (c :: rest)).tail ∧ '>' ∉ c :: rest := by
  have whole := append_spanRawText name (c :: rest)
  rw [hmark, List.nil_append] at whole
  obtain ⟨after, he, hsame⟩ := spanRawText_end (whole ▸ List.cons_ne_nil c rest)
  obtain ⟨rfl, rfl⟩ := List.cons.inj (whole.symm.trans he)
  have content : rawContent name ('<' :: '/' :: after) = '<' :: rawContent name ('/' :: after) := by
    rw [rawContent] at hne ⊢
    split at hne
    next => exact absurd rfl hne
    next hend => rw [if_neg hend]
  have token : nextToken (some name) '<' ('/' :: after) = readToken '<' ('/' :: after) := by
    simp [nextToken, hmark]
  rw [token, content, List.tail_cons]
  obtain ⟨hclose, _, _, hread⟩ | ⟨hopen, hread⟩ := readToken_endTag hraw hsame
  · rw [hread]
    simp [hclose]
  · rw [hread, readText, ← takeWhile_eq_rawContent_iff]
    simp [hopen]

/-- Behind the start tag of a raw text element, what stands up to the first end tag of the element,
or up to the end of the input, is read as at most one text exactly if no end tag seems to begin in
it, or one that begins it has the only mark in it and no `>` behind. -/
theorem Reader.reads_rawContent_iff {input name : Text} {attributes : List Attribute} {span : Text}
    {done later : List (Token × Text)}
    (h : Reads ⟨input, 0, none⟩ (done ++ (.opening name attributes false, span) :: later))
    (hraw : isRawTextName name = true) :
    ReadsAsText (rawContent name (later.flatMap Prod.snd)) later ↔
      LacksEndOf name (rawContent name (later.flatMap Prod.snd)) ∨
        '<' ∉ (rawContent name (later.flatMap Prod.snd)).tail ∧
          '>' ∉ later.flatMap Prod.snd := by
  have start : Reads ⟨[] ++ input, encodedSize [], none⟩
    (done ++ (.opening name attributes false, span) :: later) := h
  obtain ⟨passed, text, _, hreads⟩ := start.behind
  have named : (Token.opening name attributes false).rawText? = some name := by
    simp [Token.rawText?, hraw]
  rw [named] at hreads
  rw [hreads.eq.2.1]
  have hlt := lt_notMem_lowerAscii_of_isRawTextName hraw
  have lacks : LacksEndOf name [] := fun _ _ he => by simp at he
  have nothing (later : List (Token × Text)) : ReadsAsText [] later :=
    ⟨[], later, rfl, rfl, Nat.zero_le 1, by simp⟩
  cases text with
  | nil => exact iff_of_true (nothing later) (.inl lacks)
  | cons c rest =>
    obtain ⟨span, others, rfl, hspan⟩ := hreads.first
    by_cases hnil : rawContent name (c :: rest) = []
    · rw [hnil]
      exact iff_of_true (nothing _) (.inl lacks)
    rw [readsAsText_cons_iff hnil hspan, ← spanRawText_eq_iff hlt]
    by_cases hmark : (spanRawText name (c :: rest)).1 = []
    · rw [nextToken_eq_rawContent_iff hraw hmark hnil, hmark]
      simp [Ne.symm hnil]
    · rw [nextToken_raw hmark]
      refine ⟨fun h => .inl (Token.text.inj h), fun h => congrArg Token.text ?_⟩
      obtain h | ⟨hone, _⟩ := h
      · exact h
      · exact (spanRawText_eq_iff hlt).mpr (lacksEndOf_of_notMem_tail hmark hone)

/-- Another end tag and the case of the own one make no difference. -/
theorem Reader.reads_rawContent_iff_mixed :
    isRawTextName "script".toList = true ∧
      ∃ later, Reads ⟨"<script>a</b>c</SCRIPT >".toList, 0, none⟩
          ((.opening "script".toList [] false, "<script>".toList) :: later) ∧
        ReadsAsText "a</b>c".toList later := by
  have opens : next? ⟨"<script>a</b>c</SCRIPT >".toList, 0, none⟩ = some (some
      (.opening "script".toList [] false,
        ⟨"<script>a</b>c</SCRIPT >".toList, 8, some "script".toList⟩)) := by decide +kernel
  have shows : next? ⟨"<script>a</b>c</SCRIPT >".toList, 8, some "script".toList⟩ = some (some
      (.text "a</b>c".toList, ⟨"<script>a</b>c</SCRIPT >".toList, 14, none⟩)) := by decide +kernel
  have closes : next? ⟨"<script>a</b>c</SCRIPT >".toList, 14, none⟩ = some (some
      (.closing "SCRIPT".toList, ⟨"<script>a</b>c</SCRIPT >".toList, 24, none⟩)) := by
    decide +kernel
  have reads : Reads ⟨"<script>a</b>c</SCRIPT >".toList, 0, none⟩
      ([] ++ (.opening "script".toList [] false, "<script>".toList) ::
        [(.text "a</b>c".toList, "a</b>c".toList),
          (.closing "SCRIPT".toList, "</SCRIPT >".toList)]) :=
    .next opens rfl (by decide +kernel) <| .next shows rfl (by decide +kernel) <|
      .next closes rfl (by decide +kernel) <| .done (by decide +kernel) (by decide +kernel)
  refine ⟨by decide, _, reads, ?_⟩
  have lacks : LacksEndOf "script".toList (rawContent "script".toList "a</b>c</SCRIPT >".toList) :=
    (spanRawText_eq_iff (by decide +kernel)).mp (by decide +kernel)
  exact (reads_rawContent_iff reads (by decide)).mpr (.inl lacks)

/-- An end tag of a longer name is read inside a raw text element. -/
theorem Reader.not_readsAsText_longer :
    ∃ later, Reads ⟨"<script>\"</scripty>\"</script>".toList, 0, none⟩
        ((.opening "script".toList [] false, "<script>".toList) :: later) ∧
      rawContent "script".toList (later.flatMap Prod.snd) = "\"</scripty>\"".toList ∧
      (.closing "scripty".toList, "</scripty>".toList) ∈ later ∧
      ¬ ReadsAsText "\"</scripty>\"".toList later := by
  have opens : next? ⟨"<script>\"</scripty>\"</script>".toList, 0, none⟩ = some (some
      (.opening "script".toList [] false,
        ⟨"<script>\"</scripty>\"</script>".toList, 8, some "script".toList⟩)) := by decide +kernel
  have shows : next? ⟨"<script>\"</scripty>\"</script>".toList, 8, some "script".toList⟩ =
      some (some (.text ['"'], ⟨"<script>\"</scripty>\"</script>".toList, 9, none⟩)) := by
    decide +kernel
  have other : next? ⟨"<script>\"</scripty>\"</script>".toList, 9, none⟩ = some (some
      (.closing "scripty".toList, ⟨"<script>\"</scripty>\"</script>".toList, 19, none⟩)) := by
    decide +kernel
  have quote : next? ⟨"<script>\"</scripty>\"</script>".toList, 19, none⟩ = some (some
      (.text ['"'], ⟨"<script>\"</scripty>\"</script>".toList, 20, none⟩)) := by
    decide +kernel
  have closes : next? ⟨"<script>\"</scripty>\"</script>".toList, 20, none⟩ = some (some
      (.closing "script".toList, ⟨"<script>\"</scripty>\"</script>".toList, 29, none⟩)) := by
    decide +kernel
  refine ⟨[(.text ['"'], ['"']), (.closing "scripty".toList, "</scripty>".toList),
    (.text ['"'], ['"']), (.closing "script".toList, "</script>".toList)], ?_, by decide +kernel,
    by decide, ?_⟩
  · exact .next opens rfl (by decide +kernel) <| .next shows rfl (by decide +kernel) <|
      .next other rfl (by decide +kernel) <| .next quote rfl (by decide +kernel) <|
      .next closes rfl (by decide +kernel) <| .done (by decide +kernel) (by decide +kernel)
  · have spans : (Token.text ['"']).Spans ['"'] := rfl
    rw [readsAsText_cons_iff (by decide) spans]
    decide

end MarkupTemplate
