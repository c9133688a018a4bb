import MarkupTemplate.Proofs.Markup.WrittenTokens

namespace MarkupTemplate

theorem dropWhile_append_of_ne_nil {p : Char → Bool} {text : Text} (h : text.dropWhile p ≠ [])
    (tail : Text) :
    (text ++ tail).takeWhile p = text.takeWhile p ∧
      (text ++ tail).dropWhile p = text.dropWhile p ++ tail := by
  induction text with
  | nil => exact absurd rfl h
  | cons c text ih =>
    cases hc : p c with
    | false => simp [hc]
    | true =>
      have rest := ih (by simpa [hc] using h)
      simp [hc, rest]

theorem dropWhile_ne_nil_of_mem {p : Char → Bool} {text : Text} {c : Char} (hc : c ∈ text)
    (hp : p c = false) : text.dropWhile p ≠ [] := by
  induction text with
  | nil => cases hc
  | cons d text ih =>
    cases hd : p d with
    | false => simp [hd]
    | true =>
      have hne : c ≠ d := by
        rintro rfl
        rw [hp] at hd
        cases hd
      simpa [hd] using ih ((List.mem_cons.mp hc).resolve_left hne)

theorem cut?_extend {mark text before after : Text} (hm : mark ≠ [])
    (h : cut? mark text = some (before, after)) (tail : Text) :
    cut? mark (text ++ tail) = some (before, after ++ tail) := by
  induction text generalizing before with
  | nil => simp [cut?, hm] at h
  | cons c text ih =>
    rw [cut?] at h
    split at h
    next hp =>
      obtain ⟨rest, hr⟩ := List.isPrefixOf_iff_prefix.mp hp
      have hr' : mark ++ (rest ++ tail) = c :: (text ++ tail) := by
        rw [← List.append_assoc, hr, List.cons_append]
      have hp' : mark.isPrefixOf (c :: (text ++ tail)) = true :=
        List.isPrefixOf_iff_prefix.mpr ⟨rest ++ tail, hr'⟩
      obtain ⟨rfl, rfl⟩ := Prod.mk.inj (Option.some.inj h)
      rw [List.cons_append, cut?, if_pos hp', ← hr', ← hr, List.drop_left, List.drop_left]
    next hp =>
      split at h
      next => cases h
      next b a hrest =>
        obtain ⟨rfl, rfl⟩ := Prod.mk.inj (Option.some.inj h)
        have hlen := length_of_cut? hrest
        have hp' : ¬ mark.isPrefixOf (c :: (text ++ tail)) = true := by
          intro hpre
          apply hp
          apply List.isPrefixOf_iff_prefix.mpr
          have hlong : mark <+: (c :: text) ++ tail := List.isPrefixOf_iff_prefix.mp hpre
          apply List.prefix_of_prefix_length_le hlong (List.prefix_append _ _)
          simp only [List.length_cons]
          omega
        rw [List.cons_append, cut?, if_neg hp', ih hrest]

theorem readValue?_extend {text after : Text} {value : AttributeValue} (hne : after ≠ [])
    (h : readValue? text = some (value, after)) (tail : Text) :
    readValue? (text ++ tail) = some (value, after ++ tail) := by
  unfold readValue? at h
  split at h
  next => cases h
  next rest =>
    obtain ⟨⟨shown, left⟩, hc, he⟩ := Option.map_eq_some_iff.mp h
    obtain ⟨rfl, rfl⟩ := Prod.mk.inj he
    rw [List.cons_append, readValue?, cut?_extend (by simp) hc tail]
    rfl
  next rest =>
    obtain ⟨⟨shown, left⟩, hc, he⟩ := Option.map_eq_some_iff.mp h
    obtain ⟨rfl, rfl⟩ := Prod.mk.inj he
    rw [List.cons_append, readValue?, cut?_extend (by simp) hc tail]
    rfl
  next hnil hdouble hsingle =>
    obtain ⟨rfl, rfl⟩ := Prod.mk.inj (Option.some.inj h)
    obtain ⟨htake, hdrop⟩ := dropWhile_append_of_ne_nil hne tail
    obtain ⟨c, text, rfl⟩ := List.exists_cons_of_ne_nil hnil
    rw [List.cons_append, readValue?, ← List.cons_append, htake, hdrop]
    · exact List.cons_ne_nil _ _
    · intro rest he
      exact hdouble text (by rw [(List.cons.inj he).1])
    · intro rest he
      exact hsingle text (by rw [(List.cons.inj he).1])

theorem readAttribute?_extend {text after : Text} {attr : Attribute}
    (hne : skipSpace after ≠ []) (h : readAttribute? text = some (attr, after)) (tail : Text) :
    readAttribute? (text ++ tail) = some (attr, after ++ tail) := by
  have hname : (spanName text).1 ≠ [] := by
    intro he
    simp [readAttribute?, he] at h
  have hafter : after ≠ [] := by
    rintro rfl
    exact hne rfl
  have span (hr : (spanName text).2 ≠ []) :
      spanName (text ++ tail) = ((spanName text).1, (spanName text).2 ++ tail) := by
    obtain ⟨htake, hdrop⟩ := dropWhile_append_of_ne_nil hr tail
    rw [spanName, htake, hdrop]
    rfl
  by_cases hequal : ∃ rest, skipSpace (spanName text).2 = '=' :: rest
  · obtain ⟨rest, hrest⟩ := hequal
    have hr : (spanName text).2 ≠ [] := by
      intro he
      simp [he, skipSpace] at hrest
    rw [readAttribute?_valued rfl hname hrest] at h
    obtain ⟨⟨value, left⟩, hv, he⟩ := Option.map_eq_some_iff.mp h
    obtain ⟨rfl, rfl⟩ := Prod.mk.inj he
    have hspace : skipSpace ((spanName text).2 ++ tail) = '=' :: (rest ++ tail) := by
      have := (dropWhile_append_of_ne_nil (by rw [← skipSpace, hrest]; simp) tail).2
      rw [← skipSpace, ← skipSpace, hrest] at this
      exact this
    have hvalue : skipSpace rest ≠ [] := by
      intro he
      simp [he, readValue?] at hv
    have hskip := (dropWhile_append_of_ne_nil hvalue tail).2
    rw [← skipSpace, ← skipSpace] at hskip
    rw [readAttribute?_valued (span hr) hname hspace, hskip, readValue?_extend hafter hv tail]
    rfl
  · have hbare : ∀ rest, skipSpace (spanName text).2 ≠ '=' :: rest :=
      fun rest he => hequal ⟨rest, he⟩
    rw [readAttribute?_bare rfl hname hbare] at h
    obtain ⟨rfl, rfl⟩ := Prod.mk.inj (Option.some.inj h)
    have hskip := (dropWhile_append_of_ne_nil hne tail).2
    rw [← skipSpace, ← skipSpace] at hskip
    apply readAttribute?_bare (span hafter) hname
    intro rest he
    obtain ⟨c, others, hc⟩ := List.exists_cons_of_ne_nil hne
    have he : skipSpace (text.dropWhile inName ++ tail) = '=' :: rest := he
    rw [hskip, hc] at he
    exact hbare others (hc.trans (by rw [(List.cons.inj he).1]))

theorem readAttributes?_slash {text rest : Text} (h : skipSpace text = '/' :: rest)
    (hr : ∀ after, rest ≠ '>' :: after) : readAttributes? text = readAttributes? rest := by
  rw [readAttributes?]
  split
  next hs => cases h.symm.trans hs
  next tail hs => exact absurd (List.cons.inj (h.symm.trans hs)).1 (by decide)
  next tail hs => exact absurd (List.cons.inj (h.symm.trans hs)).2 (hr tail)
  next tail _ hs => rw [(List.cons.inj (h.symm.trans hs)).2]
  next c tail _ _ hslash hs => exact absurd (List.cons.inj (h.symm.trans hs)).1.symm hslash

theorem skipSpace_ne_nil_of_readAttributes? {text after : Text} {found : List Attribute × Bool}
    (h : readAttributes? text = some (found, after)) : skipSpace text ≠ [] := by
  intro he
  rw [readAttributes?] at h
  split at h
  next => cases h
  all_goals simp_all

theorem skipSpace_append {text : Text} (h : skipSpace text ≠ []) (tail : Text) :
    skipSpace (text ++ tail) = skipSpace text ++ tail :=
  (dropWhile_append_of_ne_nil h tail).2

theorem readAttributes?_extend {text after : Text} {found : List Attribute × Bool}
    (h : readAttributes? text = some (found, after)) (tail : Text) :
    readAttributes? (text ++ tail) = some (found, after ++ tail) := by
  fun_induction readAttributes? text generalizing found after with
  | case1 => cases h
  | case2 text rest hs =>
    obtain ⟨rfl, rfl⟩ := Prod.mk.inj (Option.some.inj h)
    apply readAttributes?_end
    rw [skipSpace_append (by rw [hs]; simp), hs, List.cons_append]
  | case3 text rest hs =>
    obtain ⟨rfl, rfl⟩ := Prod.mk.inj (Option.some.inj h)
    apply readAttributes?_selfClosing
    rw [skipSpace_append (by rw [hs]; simp), hs, List.cons_append, List.cons_append]
  | case4 text rest hend hs _ ih =>
    have hspace : skipSpace (text ++ tail) = '/' :: (rest ++ tail) := by
      rw [skipSpace_append (by rw [hs]; simp), hs, List.cons_append]
    rw [readAttributes?_slash hspace, ih h]
    intro others he
    cases rest with
    | nil => exact skipSpace_ne_nil_of_readAttributes? h rfl
    | cons d rest => exact hend rest (by rw [(List.cons.inj he).1])
  | case5 => cases h
  | case6 text c rest hend hself hslash hs _ attr next ha _ ih =>
    obtain ⟨⟨attributes, left⟩, hr, he⟩ := Option.map_eq_some_iff.mp h
    obtain ⟨rfl, rfl⟩ := Prod.mk.inj he
    have hspace : skipSpace (text ++ tail) = c :: (rest ++ tail) := by
      rw [skipSpace_append (by rw [hs]; simp), hs, List.cons_append]
    have hattr := readAttribute?_extend (skipSpace_ne_nil_of_readAttributes? hr) ha tail
    rw [readAttributes?_attribute hspace hslash hend hattr, ih hr]
    rfl

theorem spanName_extend {text : Text} (h : (spanName text).2 ≠ []) (tail : Text) :
    spanName (text ++ tail) = ((spanName text).1, (spanName text).2 ++ tail) := by
  obtain ⟨htake, hdrop⟩ := dropWhile_append_of_ne_nil h tail
  rw [spanName, htake, hdrop]
  rfl

theorem readOpening?_of_startsName {c : Char} (h : startsName c = true) (rest : Text) :
    readOpening? (c :: rest) = (readAttributes? (spanName (c :: rest)).2).map fun found =>
      (.opening (spanName (c :: rest)).1 found.1.1 found.1.2, found.2) := by
  simp only [readOpening?, h, if_true]

theorem readClosing?_of_startsName {c : Char} (h : startsName c = true) (rest : Text) :
    readClosing? (c :: rest) = (cut? ['>'] (spanName (c :: rest)).2).map fun found =>
      (.closing (spanName (c :: rest)).1, found.2) := by
  simp only [readClosing?, h, if_true]

theorem readOpening?_extend {text after : Text} {token : Token}
    (h : readOpening? text = some (token, after)) (tail : Text) :
    readOpening? (text ++ tail) = some (token, after ++ tail) := by
  cases text with
  | nil => cases h
  | cons c rest =>
    cases hc : startsName c with
    | false => simp [readOpening?, hc] at h
    | true =>
      rw [readOpening?_of_startsName hc] at h
      obtain ⟨⟨found, left⟩, hr, he⟩ := Option.map_eq_some_iff.mp h
      obtain ⟨rfl, rfl⟩ := Prod.mk.inj he
      have hne : (spanName (c :: rest)).2 ≠ [] := by
        intro hnil
        rw [hnil] at hr
        exact skipSpace_ne_nil_of_readAttributes? hr rfl
      have span := spanName_extend hne tail
      rw [List.cons_append] at span ⊢
      rw [readOpening?_of_startsName hc, span, readAttributes?_extend hr tail]
      rfl

theorem readClosing?_extend {text after : Text} {token : Token}
    (h : readClosing? text = some (token, after)) (tail : Text) :
    readClosing? (text ++ tail) = some (token, after ++ tail) := by
  cases text with
  | nil => cases h
  | cons c rest =>
    cases hc : startsName c with
    | false => simp [readClosing?, hc] at h
    | true =>
      rw [readClosing?_of_startsName hc] at h
      obtain ⟨⟨skipped, left⟩, hr, he⟩ := Option.map_eq_some_iff.mp h
      obtain ⟨rfl, rfl⟩ := Prod.mk.inj he
      have hne : (spanName (c :: rest)).2 ≠ [] := by
        intro hnil
        rw [hnil] at hr
        cases hr
      have span := spanName_extend hne tail
      rw [List.cons_append] at span ⊢
      rw [readClosing?_of_startsName hc, span, cut?_extend (by simp) hr tail]
      rfl

/-- Markup that was found is found as well if more text follows. -/
theorem readMarkup?_extend {text after : Text} {token : Token}
    (h : readMarkup? text = some (token, after)) (tail : Text) :
    readMarkup? (text ++ tail) = some (token, after ++ tail) := by
  unfold readMarkup? at h
  split at h
  next rest =>
    obtain ⟨⟨inner, left⟩, hc, he⟩ := Option.map_eq_some_iff.mp h
    obtain ⟨rfl, rfl⟩ := Prod.mk.inj he
    simp only [List.cons_append, readMarkup?]
    rw [cut?_extend (by decide) hc tail]
    rfl
  next rest hcomment =>
    obtain ⟨⟨inner, left⟩, hc, he⟩ := Option.map_eq_some_iff.mp h
    obtain ⟨rfl, rfl⟩ := Prod.mk.inj he
    have hcut := cut?_extend (by simp) hc tail
    rw [List.cons_append, List.cons_append, readMarkup?, hcut]
    · rfl
    · intro others he
      cases rest with
      | nil => cases hc
      | cons c rest =>
        cases rest with
        | nil =>
          obtain ⟨rfl, _⟩ := List.cons.inj he
          cases hc
        | cons d rest =>
          obtain ⟨hc, hd⟩ := List.cons.inj he
          exact hcomment rest (by rw [hc, (List.cons.inj hd).1])
  next rest =>
    obtain ⟨⟨inner, left⟩, hc, he⟩ := Option.map_eq_some_iff.mp h
    obtain ⟨rfl, rfl⟩ := Prod.mk.inj he
    simp only [List.cons_append, readMarkup?]
    rw [cut?_extend (by decide) hc tail]
    rfl
  next rest =>
    simp only [List.cons_append, readMarkup?]
    exact readClosing?_extend h tail
  next rest _ _ _ _ =>
    cases rest with
    | nil => cases h
    | cons c rest =>
      have hstarts : startsName c = true := by
        cases hc : startsName c with
        | false => simp [readOpening?, hc] at h
        | true => rfl
      rw [List.cons_append, List.cons_append, readMarkup?_opening hstarts, ← List.cons_append]
      exact readOpening?_extend h tail
  next => cases h

theorem spanRawText_end {name text : Text} (h : (spanRawText name text).2 ≠ []) :
    ∃ after, (spanRawText name text).2 = '<' :: '/' :: after ∧
      sameName (after.take name.length) name = true := by
  induction text with
  | nil => exact absurd rfl h
  | cons c text ih =>
    by_cases hend : (c == '<' && text.head? == some '/' &&
        sameName ((text.drop 1).take name.length) name) = true
    · simp only [Bool.and_eq_true, beq_iff_eq] at hend
      obtain ⟨⟨rfl, hhead⟩, hsame⟩ := hend
      obtain ⟨text, rfl⟩ := List.head?_eq_some_iff.mp hhead
      have hsame : sameName (text.take name.length) name = true := hsame
      refine ⟨text, ?_, hsame⟩
      simp [spanRawText, hsame]
    · simp only [spanRawText, hend, Bool.false_eq_true, if_false] at h ⊢
      exact ih h

theorem length_of_sameName {a b : Text} (h : sameName a b = true) : a.length = b.length := by
  have := congrArg List.length (beq_iff_eq.mp h)
  simpa [lowerAscii] using this

theorem spanRawText_extend {name text : Text} (h : (spanRawText name text).2 ≠ []) (tail : Text) :
    spanRawText name (text ++ tail) =
      ((spanRawText name text).1, (spanRawText name text).2 ++ tail) := by
  induction text with
  | nil => exact absurd rfl h
  | cons c text ih =>
    -- the end tag that is found lies in the text, so what follows cannot make an earlier one
    have hlen : name.length + 1 ≤ text.length := by
      obtain ⟨after, he, hsame⟩ := spanRawText_end h
      have hname := length_of_sameName hsame
      have hall := congrArg List.length (append_spanRawText name (c :: text))
      simp only [he, List.length_append, List.length_cons, List.length_take] at hname hall
      omega
    have hhead : (text ++ tail).head? = text.head? := by
      cases text with
      | nil => simp at hlen
      | cons d text => rfl
    have htake : ((text ++ tail).drop 1).take name.length = (text.drop 1).take name.length := by
      rw [List.drop_append_of_le_length (by omega), List.take_append_of_le_length]
      simp only [List.length_drop]
      omega
    rw [List.cons_append, spanRawText, spanRawText, hhead, htake]
    split
    next => rfl
    next hend =>
      have hrest : (spanRawText name text).2 ≠ [] := by
        rw [spanRawText, if_neg hend] at h
        exact h
      rw [ih hrest]

theorem tokensIn_plain {c : Char} (h : c ≠ '<') (rest : Text) :
    tokensIn none (c :: rest) =
      .text (c :: rest.takeWhile (· != '<')) :: tokensIn none (rest.dropWhile (· != '<')) :=
  tokensIn_cons (by simp [nextToken, readToken, readMarkup?_text h, readText])

/-- The content of a raw text element as a token, if there is any. -/
def rawTokens (content : Text) : List Token :=
  if content = [] then [] else [.text content]

theorem tokensIn_raw {name text after : Text} {ending : Token}
    (h : readMarkup? (spanRawText name text).2 = some (ending, after)) :
    tokensIn (some name) text =
      rawTokens (spanRawText name text).1 ++ ending :: tokensIn ending.rawText? after := by
  have happend := append_spanRawText name text
  cases text with
  | nil => simp [spanRawText, readMarkup?] at h
  | cons c text =>
    by_cases hcontent : (spanRawText name (c :: text)).1 = []
    · rw [hcontent, List.nil_append] at happend
      rw [happend] at h
      rw [hcontent]
      apply tokensIn_cons
      simp [nextToken, hcontent, readToken, h]
    · rw [rawTokens, if_neg hcontent, List.singleton_append, ← tokensIn_of_readMarkup? h]
      apply tokensIn_cons
      simp [nextToken, hcontent]

/-- A text of whole tokens. No `<` stands among plain characters, and each raw text element has its
end tag. -/
inductive Whole : Text → Prop
  | nil : Whole []
  | plain {c : Char} {rest : Text} : c ≠ '<' → Whole rest → Whole (c :: rest)
  | markup {text rest : Text} {token : Token} :
      readMarkup? text = some (token, rest) → token.rawText? = none → Whole rest → Whole text
  | rawElement {text rest after name : Text} {opening ending : Token} :
      readMarkup? text = some (opening, rest) → opening.rawText? = some name →
      readMarkup? (spanRawText name rest).2 = some (ending, after) → ending.rawText? = none →
      Whole after → Whole text

/-- A token with its text in single characters. -/
def Token.spelled : Token → List Token
  | .text shown => shown.map fun c => .text [c]
  | token => [token]

/-- Tokens with their texts in single characters. -/
def spell (tokens : List Token) : List Token :=
  tokens.flatMap Token.spelled

theorem spell_append (a b : List Token) : spell (a ++ b) = spell a ++ spell b :=
  List.flatMap_append

theorem spell_cons (token : Token) (tokens : List Token) :
    spell (token :: tokens) = token.spelled ++ spell tokens := rfl

theorem spell_plain {c : Char} (h : c ≠ '<') (rest : Text) :
    spell (tokensIn none (c :: rest)) = .text [c] :: spell (tokensIn none rest) := by
  rw [tokensIn_plain h]
  cases rest with
  | nil => rfl
  | cons d rest =>
    by_cases hd : d = '<'
    · subst hd
      rfl
    · rw [tokensIn_plain hd]
      simp [spell_cons, Token.spelled, hd]

namespace Whole

theorem text (shown : Text) {rest : Text} (h : '<' ∉ shown) (hr : Whole rest) :
    Whole (shown ++ rest) := by
  induction shown with
  | nil => exact hr
  | cons c shown ih =>
    exact .plain (Ne.symm (List.ne_of_not_mem_cons h)) (ih (List.not_mem_of_not_mem_cons h))

theorem tag {tag rest : Text} {token : Token} (h : readMarkup? tag = some (token, []))
    (hn : token.rawText? = none) (hr : Whole rest) : Whole (tag ++ rest) :=
  .markup (readMarkup?_extend h rest) hn hr

theorem tokensIn_rawElement {text rest after name : Text} {opening ending : Token}
    (hm : readMarkup? text = some (opening, rest)) (hr : opening.rawText? = some name)
    (he : readMarkup? (spanRawText name rest).2 = some (ending, after))
    (hn : ending.rawText? = none) (tail : Text) :
    tokensIn none (text ++ tail) =
      opening ::
        (rawTokens (spanRawText name rest).1 ++ ending :: tokensIn none (after ++ tail)) := by
  have hne : (spanRawText name rest).2 ≠ [] := by
    intro hnil
    rw [hnil] at he
    cases he
  have span := spanRawText_extend hne tail
  have hend : readMarkup? (spanRawText name (rest ++ tail)).2 = some (ending, after ++ tail) := by
    rw [span]
    exact readMarkup?_extend he tail
  rw [tokensIn_of_readMarkup? (readMarkup?_extend hm tail), hr, tokensIn_raw hend, span, hn]

/-- Apart from where texts are divided, what follows a whole text does not change its tokens. -/
theorem spell_tokens {text : Text} (h : Whole text) (tail : Text) :
    spell (tokens (text ++ tail)) = spell (tokens text) ++ spell (tokens tail) := by
  unfold tokens
  induction h with
  | nil => simp [tokensIn, spell]
  | plain hc _ ih => rw [List.cons_append, spell_plain hc, spell_plain hc, ih, List.cons_append]
  | @markup text rest token hm hr _ ih =>
    rw [tokensIn_of_readMarkup? hm, tokensIn_of_readMarkup? (readMarkup?_extend hm tail), hr,
      spell_cons, spell_cons, ih, List.append_assoc]
  | @rawElement text rest after name opening ending hm hr he hn _ ih =>
    have alone := tokensIn_rawElement hm hr he hn []
    rw [List.append_nil, List.append_nil] at alone
    rw [alone, tokensIn_rawElement hm hr he hn tail]
    simp only [spell_cons, spell_append, ih, List.append_assoc]

end Whole

end MarkupTemplate
