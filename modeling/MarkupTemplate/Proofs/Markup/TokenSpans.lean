import MarkupTemplate.Proofs.Markup.TokenBoundaries

namespace MarkupTemplate

/-- A text is the span of a token: the text that the token keeps, or a tag. -/
def Token.Spans : Token → Text → Prop
  | .text shown, span => span = shown
  | .comment source, span => span = source
  | .declaration source, span => span = source
  | .opening .., span => ∃ inner, span = '<' :: inner ++ ['>']
  | .closing _, span => ∃ inner, span = '<' :: inner ++ ['>']

theorem readAttributes?_span {text after : Text} {found : List Attribute × Bool}
    (h : readAttributes? text = some (found, after)) :
    ∃ inner, text = inner ++ '>' :: after := by
  induction text using readAttributes?.induct generalizing found with
  | case1 text hs => exact absurd hs (skipSpace_ne_nil_of_readAttributes? h)
  | case2 text rest hs =>
    rw [readAttributes?_end hs] at h
    obtain ⟨_, rfl⟩ := Prod.mk.inj (Option.some.inj h)
    exact ⟨_, append_takeWhile_isTagSpace [] hs⟩
  | case3 text rest hs =>
    rw [readAttributes?_selfClosing hs] at h
    obtain ⟨_, rfl⟩ := Prod.mk.inj (Option.some.inj h)
    refine ⟨text.takeWhile isTagSpace ++ ['/'], ?_⟩
    rw [List.append_assoc]
    exact append_takeWhile_isTagSpace [] hs
  | case4 text rest hr hs _ ih =>
    rw [readAttributes?_slash hs fun after h => hr after h] at h
    obtain ⟨inner, rfl⟩ := ih h
    refine ⟨text.takeWhile isTagSpace ++ '/' :: inner, ?_⟩
    rw [List.append_assoc]
    exact append_takeWhile_isTagSpace [] hs
  | case5 text c rest hend _ hslash hs _ hn =>
    rw [readAttributes?_other hs hslash hend, hn] at h
    cases h
  | case6 text c rest hend _ hslash hs _ attr left ha _ ih =>
    rw [readAttributes?_attribute hs hslash hend ha] at h
    obtain ⟨⟨_, _⟩, hr, he⟩ := Option.map_eq_some_iff.mp h
    obtain ⟨_, rfl⟩ := Prod.mk.inj he
    obtain ⟨inner, hi⟩ := ih hr
    obtain ⟨used, hu⟩ := (scanAttribute?_as (c :: rest)).suffix ha
    refine ⟨text.takeWhile isTagSpace ++ (used ++ inner), ?_⟩
    rw [List.append_assoc, List.append_assoc, ← hi, ← hu]
    exact append_takeWhile_isTagSpace [] hs

theorem readOpening?_span {text after : Text} {token : Token}
    (h : readOpening? text = some (token, after)) :
    ∃ inner, text = inner ++ '>' :: after ∧ token.Spans ('<' :: inner ++ ['>']) := by
  rw [readOpening?_eq] at h
  split at h
  next =>
    obtain ⟨⟨_, _⟩, hr, he⟩ := Option.map_eq_some_iff.mp h
    obtain ⟨rfl, rfl⟩ := Prod.mk.inj he
    obtain ⟨inner, hi⟩ := readAttributes?_span hr
    refine ⟨(spanName text).1 ++ inner, ?_, _, rfl⟩
    rw [List.append_assoc, ← hi, append_spanName]
  next => cases h

theorem readClosing?_span {text after : Text} {token : Token}
    (h : readClosing? text = some (token, after)) :
    ∃ inner, text = inner ++ '>' :: after ∧ token.Spans ('<' :: '/' :: inner ++ ['>']) := by
  rw [readClosing?_eq] at h
  split at h
  next =>
    obtain ⟨⟨inner, _⟩, hc, he⟩ := Option.map_eq_some_iff.mp h
    obtain ⟨rfl, rfl⟩ := Prod.mk.inj he
    refine ⟨(spanName text).1 ++ inner, ?_, _, rfl⟩
    have whole := append_of_cut? hc
    rw [List.append_assoc, List.singleton_append] at whole
    rw [List.append_assoc, whole, append_spanName]
  next => cases h

/-- Markup is read from its span. -/
theorem readMarkup?_span {text after : Text} {token : Token}
    (h : readMarkup? text = some (token, after)) :
    ∃ span, text = span ++ after ∧ token.Spans span := by
  unfold readMarkup? at h
  split at h
  next rest =>
    obtain ⟨⟨inner, _⟩, hc, he⟩ := Option.map_eq_some_iff.mp h
    obtain ⟨rfl, rfl⟩ := Prod.mk.inj he
    refine ⟨_, ?_, rfl⟩
    rw [List.append_assoc, List.append_assoc, ← List.append_assoc inner, append_of_cut? hc]
    rfl
  next rest _ =>
    obtain ⟨⟨inner, _⟩, hc, he⟩ := Option.map_eq_some_iff.mp h
    obtain ⟨rfl, rfl⟩ := Prod.mk.inj he
    refine ⟨_, ?_, rfl⟩
    rw [← append_of_cut? hc]
    rfl
  next rest =>
    obtain ⟨⟨inner, _⟩, hc, he⟩ := Option.map_eq_some_iff.mp h
    obtain ⟨rfl, rfl⟩ := Prod.mk.inj he
    refine ⟨_, ?_, rfl⟩
    rw [← append_of_cut? hc]
    rfl
  next rest =>
    obtain ⟨inner, rfl, hs⟩ := readClosing?_span h
    exact ⟨_, by simp, hs⟩
  next rest _ _ _ _ =>
    obtain ⟨inner, rfl, hs⟩ := readOpening?_span h
    exact ⟨_, by simp, hs⟩
  next => cases h

/-- Every token is read from its span, which is not empty. -/
theorem nextToken_span (raw : Option Text) (c : Char) (rest : Text) :
    ∃ span, c :: rest = span ++ (nextToken raw c rest).2 ∧ span ≠ [] ∧
      (nextToken raw c rest).1.Spans span := by
  have markup : ∃ span, c :: rest = span ++ (readToken c rest).2 ∧
      (readToken c rest).1.Spans span := by
    rw [readToken]
    cases h : readMarkup? (c :: rest) with
    | none =>
      refine ⟨c :: rest.takeWhile (· != '<'), ?_, rfl⟩
      exact congrArg (c :: ·) List.takeWhile_append_dropWhile.symm
    | some found => exact readMarkup?_span h
  have span : ∃ span, c :: rest = span ++ (nextToken raw c rest).2 ∧
      (nextToken raw c rest).1.Spans span := by
    unfold nextToken
    split
    next => exact markup
    next name =>
      dsimp only
      split
      next => exact markup
      next => exact ⟨_, (append_spanRawText name (c :: rest)).symm, rfl⟩
  obtain ⟨span, he, hs⟩ := span
  refine ⟨span, he, ?_, hs⟩
  rintro rfl
  have shorter := length_nextToken_le raw c rest
  have same := congrArg List.length he
  rw [List.nil_append, List.length_cons] at same
  omega

namespace Reader

/-- A reader before the end of its input gives the next token, and stands behind its span then. -/
theorem next?_append (before rest : Text) (c : Char) (raw : Option Text) :
    ∃ span, c :: rest = span ++ (nextToken raw c rest).2 ∧
      next? ⟨before ++ c :: rest, encodedSize before, raw⟩ =
        some (some ((nextToken raw c rest).1, ⟨before ++ c :: rest, encodedSize (before ++ span),
          (nextToken raw c rest).1.rawText?⟩)) := by
  obtain ⟨span, he, scanned⟩ := scanNext?_as raw c rest
  have inside : encodedSize before ≠ encodedSize (before ++ c :: rest) := by
    have pos := encodedSize_pos (List.cons_ne_nil c rest)
    rw [encodedSize_append]
    omega
  refine ⟨span, he, ?_⟩
  rw [next?, if_neg inside, encodedSize_append]
  simp only [sliceFrom?_append, scanned, Option.bind_eq_bind, Option.bind_some]

/-- The calls to a reader up to the end of its input give tokens. Each of them is read from the part
of the input that the reader has passed. -/
inductive Reads : Reader → List (Token × Text) → Prop
  | done {reader : Reader} :
      reader.position = encodedSize reader.input → reader.next? = some none → Reads reader []
  | next {reader after : Reader} {token : Token} {span : Text} {spans : List (Token × Text)} :
      reader.next? = some (some (token, after)) → after.input = reader.input →
      slice? reader.position after.position reader.input = some span → Reads after spans →
      Reads reader ((token, span) :: spans)

/-- From any boundary on, a reader reads the rest of its input. -/
theorem reads_append (before text : Text) (raw : Option Text) :
    ∃ spans, Reads ⟨before ++ text, encodedSize before, raw⟩ spans ∧
      spans.map Prod.fst = tokensIn raw text ∧ spans.flatMap Prod.snd = text ∧
      ∀ read ∈ spans, read.2 ≠ [] ∧ read.1.Spans read.2 := by
  induction hn : text.length using Nat.strongRecOn generalizing before text raw with
  | ind n ih =>
    cases text with
    | nil =>
      refine ⟨[], .done (by simp) (by simp [next?]), ?_, rfl, by simp⟩
      rw [tokensIn]
      rfl
    | cons c rest =>
      obtain ⟨span, he, hne, hspan⟩ := nextToken_span raw c rest
      obtain ⟨passed, hp, hnext⟩ := next?_append before rest c raw
      obtain rfl : passed = span := List.append_cancel_right (hp.symm.trans he)
      have shorter : (nextToken raw c rest).2.length < n := by
        rw [← hn]
        exact Nat.lt_succ_of_le (length_nextToken_le raw c rest)
      obtain ⟨spans, hreads, htokens, htext, hall⟩ :=
        ih _ shorter (before ++ passed) _ (nextToken raw c rest).1.rawText? rfl
      rw [List.append_assoc, ← he] at hreads
      have hslice := slice?_append before passed (nextToken raw c rest).2
      rw [← he, ← encodedSize_append] at hslice
      refine ⟨((nextToken raw c rest).1, passed) :: spans, .next hnext rfl hslice hreads,
        ?_, ?_, ?_⟩
      · exact (congrArg _ htokens).trans (tokensIn_cons rfl).symm
      · rw [List.flatMap_cons, htext, ← he]
      · exact List.forall_mem_cons.mpr ⟨⟨hne, hspan⟩, hall⟩

/-- Reading a text comes to its end and loses nothing. It gives the tokens of the text one after the
other, their spans make up the text, and each token is read from its span. -/
theorem reads_tokens (input : Text) :
    ∃ spans, Reads ⟨input, 0, none⟩ spans ∧ spans.map Prod.fst = tokens input ∧
      spans.flatMap Prod.snd = input ∧
      ∀ read ∈ spans, read.2 ≠ [] ∧ read.1.Spans read.2 :=
  reads_append [] input none

end Reader

end MarkupTemplate
