import MarkupTemplate.Proofs.Markup.AttributePositions

namespace MarkupTemplate

theorem readOpening?_eq (text : Text) :
    readOpening? text = if text.head?.any startsName then
      (readAttributes? (spanName text).2).map fun found =>
        (.opening (spanName text).1 found.1.1 found.1.2, found.2)
    else none := by
  cases text <;> rfl

theorem readClosing?_eq (text : Text) :
    readClosing? text = if text.head?.any startsName then
      (cut? ['>'] (spanName text).2).map fun found => (.closing (spanName text).1, found.2)
    else none := by
  cases text <;> rfl

theorem append_spanName (text : Text) : (spanName text).1 ++ (spanName text).2 = text :=
  List.takeWhile_append_dropWhile

theorem slice?_name (before text : Text) :
    slice? (encodedSize before) (encodedSize before + nameLength text) (before ++ text) =
      some (spanName text).1 := by
  have cut := slice?_append before (spanName text).1 (spanName text).2
  rwa [append_spanName, ← nameLength_eq] at cut

theorem sliceFrom?_name (before text : Text) :
    sliceFrom? (encodedSize before + nameLength text) (before ++ text) =
      some (spanName text).2 := by
  have cut := sliceFrom?_append (before ++ (spanName text).1) (spanName text).2
  rwa [List.append_assoc, append_spanName, encodedSize_append, ← nameLength_eq] at cut

theorem scanOpening?_as (rest : Text) :
    ScannedAs ('<' :: rest) (scanOpening? ('<' :: rest)) (readOpening? rest) := by
  have starts : (byteAt? ('<' :: rest) 1).any startsName = rest.head?.any startsName :=
    byteAt?_any ['<'] rest oneByte_startsName
  rw [scanOpening?, starts, readOpening?_eq]
  cases rest.head?.any startsName with
  | false => exact .missing
  | true =>
    have tail : sliceFrom? 1 ('<' :: rest) = some rest := sliceFrom?_append ['<'] rest
    have name : slice? 1 (1 + nameLength rest) ('<' :: rest) = some (spanName rest).1 :=
      slice?_name ['<'] rest
    have found := scanAttributes?_as ('<' :: (spanName rest).1) (spanName rest).2
    have start : encodedSize ('<' :: (spanName rest).1) = 1 + nameLength rest := by
      rw [nameLength_eq]
      rfl
    rw [List.cons_append, append_spanName, start] at found
    simp only [Bool.not_true, Bool.false_eq_true, if_false, if_true, tail, name,
      Option.bind_eq_bind, Option.bind_some]
    exact found.map fun found => Token.opening (spanName rest).1 found.1 found.2

theorem scanClosing?_as (rest : Text) :
    ScannedAs ('<' :: '/' :: rest) (scanClosing? ('<' :: '/' :: rest)) (readClosing? rest) := by
  have starts : (byteAt? ('<' :: '/' :: rest) 2).any startsName = rest.head?.any startsName :=
    byteAt?_any ['<', '/'] rest oneByte_startsName
  rw [scanClosing?, starts, readClosing?_eq]
  cases rest.head?.any startsName with
  | false => exact .missing
  | true =>
    have tail : sliceFrom? 2 ('<' :: '/' :: rest) = some rest := sliceFrom?_append ['<', '/'] rest
    have name : slice? 2 (2 + nameLength rest) ('<' :: '/' :: rest) = some (spanName rest).1 :=
      slice?_name ['<', '/'] rest
    have gap : sliceFrom? (2 + nameLength rest) ('<' :: '/' :: rest) = some (spanName rest).2 :=
      sliceFrom?_name ['<', '/'] rest
    simp only [Bool.not_true, Bool.false_eq_true, if_false, if_true, tail, name, gap,
      position?_char, Option.bind_eq_bind, Option.bind_some]
    cases hc : cut? ['>'] (spanName rest).2 with
    | none => exact .missing
    | some found =>
      obtain ⟨skipped, after⟩ := found
      have whole := append_of_cut? hc
      refine .of_eq ('<' :: '/' :: ((spanName rest).1 ++ (skipped ++ ['>']))) ?_ ?_
      · rw [List.cons_append, List.cons_append, List.append_assoc, whole, append_spanName]
      · have marks : encodedSize ('<' :: '/' :: ((spanName rest).1 ++ (skipped ++ ['>']))) =
            2 + encodedSize ((spanName rest).1 ++ (skipped ++ ['>'])) := by
          rw [encodedSize, encodedSize, ← Nat.add_assoc]
          rfl
        rw [marks, encodedSize_append, encodedSize_concat _ (by decide), nameLength_eq]
        simp only [Nat.add_assoc]

theorem scanComment?_as (rest : Text) :
    ScannedAs ("<!--".toList ++ rest) (scanComment? ("<!--".toList ++ rest))
      ((cut? "-->".toList rest).map fun found =>
        (.comment ("<!--".toList ++ found.1 ++ "-->".toList), found.2)) := by
  have tail : sliceFrom? 4 ("<!--".toList ++ rest) = some rest :=
    sliceFrom?_append "<!--".toList rest
  simp only [scanComment?, tail, positionOf?_eq, Option.bind_eq_bind, Option.bind_some]
  cases hc : cut? "-->".toList rest with
  | none => exact .missing
  | some found =>
    obtain ⟨inner, after⟩ := found
    have whole : "<!--".toList ++ inner ++ "-->".toList ++ after = "<!--".toList ++ rest := by
      rw [List.append_assoc, List.append_assoc, ← append_of_cut? hc, List.append_assoc]
    have length : 4 + encodedSize inner + 3 =
        encodedSize ("<!--".toList ++ inner ++ "-->".toList) := by
      rw [encodedSize_append, encodedSize_append]
      rfl
    have source := sliceTo?_append ("<!--".toList ++ inner ++ "-->".toList) after
    rw [whole, ← length] at source
    simp only [Option.map_some, source, Option.bind_some]
    exact .of_eq _ whole.symm length

theorem scanDeclaration?_as (text : Text) :
    ScannedAs text (scanDeclaration? text)
      ((cut? ['>'] text).map fun found => (.declaration (found.1 ++ ['>']), found.2)) := by
  simp only [scanDeclaration?, position?_char]
  cases hc : cut? ['>'] text with
  | none => exact .missing
  | some found =>
    obtain ⟨inner, after⟩ := found
    have whole := append_of_cut? hc
    have length := encodedSize_concat (c := '>') inner (by decide)
    have source := sliceTo?_append (inner ++ ['>']) after
    rw [whole, length] at source
    simp only [Option.map_some, source, Option.bind_eq_bind, Option.bind_some]
    exact .of_eq _ whole.symm length.symm

theorem cut?_cons {mark : Text} {c : Char} (rest : Text)
    (h : mark.isPrefixOf (c :: rest) = false) :
    cut? mark (c :: rest) = (cut? mark rest).map fun found => (c :: found.1, found.2) := by
  rw [cut?, h]
  cases cut? mark rest <;> rfl

/-- What is scanned of a text that is read to a value for certain. -/
def TakenAs {α : Type} (text : Text) (scanned : Option (α × Nat)) (read : α × Text) : Prop :=
  ∃ used, text = used ++ read.2 ∧ scanned = some (read.1, encodedSize used)

theorem scanText?_append (before tail : Text) :
    TakenAs (before ++ tail) (scanText? (encodedSize before) (before ++ tail))
      (.text (before ++ tail.takeWhile (· != '<')), tail.dropWhile (· != '<')) := by
  have split : before ++ tail =
      before ++ tail.takeWhile (· != '<') ++ tail.dropWhile (· != '<') := by
    rw [List.append_assoc, List.takeWhile_append_dropWhile]
  have length : ((position? (· == '<') tail).map (· + encodedSize before)).getD
      (encodedSize (before ++ tail)) = encodedSize (before ++ tail.takeWhile (· != '<')) := by
    have stop : encodedSize (tail.takeWhile (· != '<')) = _ :=
      (position?_getD (· == '<') tail).symm
    rw [encodedSize_append, encodedSize_append, stop]
    cases position? (· == '<') tail with
    | none => rfl
    | some position => exact Nat.add_comm _ _
  have shown := sliceTo?_append (before ++ tail.takeWhile (· != '<')) (tail.dropWhile (· != '<'))
  rw [← split] at shown
  refine ⟨_, split, ?_⟩
  simp only [scanText?, sliceFrom?_append, length, shown, Option.bind_eq_bind, Option.bind_some]

theorem scanText?_as {c : Char} (h : c ≠ '<') (rest : Text) :
    TakenAs (c :: rest) (scanText? 0 (c :: rest)) (readText c rest) := by
  have taken := scanText?_append [] (c :: rest)
  rwa [List.takeWhile_cons_of_pos (by simpa using h),
    List.dropWhile_cons_of_pos (by simpa using h)] at taken

theorem isPrefixOf_eq_false {mark text : Text} (h : ∀ tail, text ≠ mark ++ tail) :
    mark.isPrefixOf text = false := by
  rw [Bool.eq_false_iff]
  intro hp
  obtain ⟨tail, he⟩ := List.isPrefixOf_iff_prefix.mp hp
  exact h tail he.symm

theorem cut?_tag {c : Char} (hc : c ≠ '>') (rest : Text) :
    ((cut? ['>'] ('<' :: c :: rest)).map fun found =>
      (Token.declaration (found.1 ++ ['>']), found.2)) =
    (cut? ['>'] rest).map fun found => (.declaration ('<' :: c :: found.1 ++ ['>']), found.2) := by
  have other : ['>'].isPrefixOf (c :: rest) = false :=
    isPrefixOf_eq_false fun tail he => hc (List.cons.inj he).1
  rw [cut?_cons _ (by rfl), cut?_cons _ other, Option.map_map, Option.map_map]
  rfl

theorem scanMarkup?_as (rest : Text) :
    ScannedAs ('<' :: rest) (scanMarkup? ('<' :: rest)) (readMarkup? ('<' :: rest)) := by
  unfold readMarkup?
  split
  next rest he =>
    rw [he]
    exact scanComment?_as rest
  next rest hcomment he =>
    have comment : "<!--".toList.isPrefixOf ('<' :: '!' :: rest) = false :=
      isPrefixOf_eq_false fun tail he =>
        hcomment tail (List.cons.inj (List.cons.inj he).2).2
    have declaration :
        scanMarkup? ('<' :: '!' :: rest) = scanDeclaration? ('<' :: '!' :: rest) := by
      rw [scanMarkup?, comment]
      rfl
    rw [he, declaration, ← cut?_tag (by decide)]
    exact scanDeclaration?_as _
  next rest he =>
    rw [he, ← cut?_tag (by decide)]
    exact scanDeclaration?_as _
  next rest he =>
    rw [he]
    exact scanClosing?_as rest
  next rest hcomment hbang hask hslash he =>
    have other {c : Char} (hc : ∀ tail, rest ≠ c :: tail) :
        ['<', c].isPrefixOf ('<' :: rest) = false :=
      isPrefixOf_eq_false fun tail he => hc tail (List.cons.inj he).2
    have comment : "<!--".toList.isPrefixOf ('<' :: rest) = false :=
      isPrefixOf_eq_false fun tail he => hcomment tail (List.cons.inj he).2
    have opening : scanMarkup? ('<' :: rest) = scanOpening? ('<' :: rest) := by
      have bang : "<!".toList.isPrefixOf ('<' :: rest) = false := other hbang
      have ask : "<?".toList.isPrefixOf ('<' :: rest) = false := other hask
      have slash : "</".toList.isPrefixOf ('<' :: rest) = false := other hslash
      rw [scanMarkup?, comment, bang, ask, slash]
      rfl
    rw [he, opening]
    exact scanOpening?_as rest
  next h => exact absurd rfl (h rest)

theorem scanToken?_as (rest : Text) :
    TakenAs ('<' :: rest) (scanToken? ('<' :: rest)) (readToken '<' rest) := by
  have scanned := scanMarkup?_as rest
  rw [scanToken?, readToken]
  generalize scanMarkup? ('<' :: rest) = found, readMarkup? ('<' :: rest) = read at scanned
  cases scanned with
  | missing => exact scanText?_append ['<'] rest
  | found token hs => exact ⟨_, hs, rfl⟩

theorem utf8Size_toLower (c : Char) : c.toLower.utf8Size = c.utf8Size := by
  unfold Char.toLower
  split
  next h =>
    have upper : c.val.toNat ≤ 90 := UInt32.le_iff_toNat_le.mp h.2
    rw [Char.utf8Size_eq_one_iff.mpr, Char.utf8Size_eq_one_iff.mpr]
    · exact UInt32.le_iff_toNat_le.mpr (Nat.le_trans upper (by decide))
    · refine UInt32.le_iff_toNat_le.mpr ?_
      change (c.val.toNat + 32) % 2 ^ 32 ≤ 127
      omega
  next => rfl

theorem encodedSize_of_sameName {a b : Text} (h : sameName a b = true) :
    encodedSize a = encodedSize b := by
  have lower (text : Text) : encodedSize (lowerAscii text) = encodedSize text := by
    induction text with
    | nil => rfl
    | cons c text ih =>
      rw [encodedSize, ← ih, ← utf8Size_toLower c]
      rfl
  rw [← lower a, ← lower b, beq_iff_eq.mp h]

/-- Raw text by the marks in it: it ends at the first one that an end tag begins with. -/
theorem spanRawText_cut (name text : Text) :
    spanRawText name text =
      match cut? ['<', '/'] text with
      | none => (text, [])
      | some (inner, after) =>
        if sameName (after.take name.length) name then (inner, '<' :: '/' :: after)
        else (inner ++ '<' :: '/' :: (spanRawText name after).1, (spanRawText name after).2) := by
  induction text with
  | nil => rfl
  | cons c text ih =>
    cases hp : ['<', '/'].isPrefixOf (c :: text) with
    | true =>
      obtain ⟨after, he⟩ := List.isPrefixOf_iff_prefix.mp hp
      obtain ⟨rfl, rfl⟩ := List.cons.inj he
      simp [spanRawText, cut?]
    | false =>
      have plain : (c == '<' && text.head? == some '/') = false := by
        rw [Bool.eq_false_iff]
        intro h
        simp only [Bool.and_eq_true, beq_iff_eq] at h
        obtain ⟨after, rfl⟩ := List.head?_eq_some_iff.mp h.2
        rw [h.1] at hp
        cases hp
      rw [cut?_cons _ hp, spanRawText, plain, Bool.false_and, if_neg Bool.false_ne_true, ih]
      cases cut? ['<', '/'] text with
      | none => rfl
      | some found =>
        simp only [Option.map_some]
        split <;> rfl

/-- A name is at a position, but for the case of letters, if a text of its length is. -/
theorem slice?_any_sameName (before name after : Text) :
    (slice? (encodedSize before) (encodedSize before + encodedSize name)
      (before ++ after)).any (sameName · name) = sameName (after.take name.length) name := by
  have split : after.take name.length ++ after.drop name.length = after := List.take_append_drop ..
  rw [Bool.eq_iff_iff, Option.any_eq_true]
  constructor
  · rintro ⟨found, hf, hsame⟩
    obtain ⟨tail, ht, hf⟩ := Option.bind_eq_some_iff.mp (by simpa [slice?] using hf)
    cases Option.some.inj ((sliceFrom?_append before after).symm.trans ht)
    obtain ⟨rest, rfl, _⟩ := append_of_sliceTo? hf
    rw [← length_of_sameName hsame, List.take_left]
    exact hsame
  · intro hsame
    refine ⟨_, ?_, hsame⟩
    have cut := slice?_append before (after.take name.length) (after.drop name.length)
    rwa [split, encodedSize_of_sameName hsame] at cut

theorem scanRawText?_append (name before text : Text) :
    scanRawText? name (before ++ text) (encodedSize before) =
      some (encodedSize (before ++ (spanRawText name text).1)) := by
  induction hn : text.length using Nat.strongRecOn generalizing before text with
  | ind n ih =>
    have tail := sliceFrom?_append before text
    rw [scanRawText?, spanRawText_cut]
    split
    next hs =>
      rw [tail] at hs
      cases hs
    next hs =>
      cases Option.some.inj (tail.symm.trans hs)
      split
      next hp =>
        rw [positionOf?_eq, Option.map_eq_none_iff] at hp
        rw [hp]
      next length hp =>
        rw [positionOf?_eq] at hp
        obtain ⟨⟨inner, after⟩, hc, rfl⟩ := Option.map_eq_some_iff.mp hp
        have whole := append_of_cut? hc
        have start : encodedSize before + encodedSize inner + 2 =
            encodedSize (before ++ (inner ++ ['<', '/'])) := by
          rw [encodedSize_append, encodedSize_append, Nat.add_assoc]
          rfl
        have same := slice?_any_sameName (before ++ (inner ++ ['<', '/'])) name after
        have shorter : after.length < n := by
          have := congrArg List.length whole
          simp at this
          omega
        have inner := ih _ shorter (before ++ (inner ++ ['<', '/'])) after rfl
        rw [List.append_assoc, whole] at same inner
        simp only [hc, start, same, inner]
        split
        next => rw [encodedSize_append]
        next => simp

theorem eq_of_spanRawText_nil {name rest : Text} {c : Char}
    (h : (spanRawText name (c :: rest)).1 = []) : c = '<' := by
  rw [spanRawText] at h
  split at h
  next hc =>
    simp only [Bool.and_eq_true, beq_iff_eq] at hc
    exact hc.1.1
  next => cases h

theorem scanNext?_as (raw : Option Text) (c : Char) (rest : Text) :
    TakenAs (c :: rest) (scanNext? raw (c :: rest)) (nextToken raw c rest) := by
  cases raw with
  | none =>
    by_cases hc : c = '<'
    · subst hc
      exact scanToken?_as rest
    · have text : nextToken none c rest = readText c rest := by
        simp [nextToken, readToken, readMarkup?_text hc]
      have head : (c :: rest).head? ≠ some '<' := fun h => hc (Option.some.inj h)
      rw [text, scanNext?, if_neg head]
      exact scanText?_as hc rest
  | some name =>
    have whole := append_spanRawText name (c :: rest)
    have length : scanRawText? name (c :: rest) 0 =
        some (encodedSize (spanRawText name (c :: rest)).1) := scanRawText?_append name [] _
    simp only [scanNext?, nextToken, length, Option.bind_eq_bind, Option.bind_some]
    by_cases hnil : (spanRawText name (c :: rest)).1 = []
    · obtain rfl := eq_of_spanRawText_nil hnil
      rw [hnil]
      exact scanToken?_as rest
    · have shown :=
        sliceTo?_append (spanRawText name (c :: rest)).1 (spanRawText name (c :: rest)).2
      rw [whole] at shown
      have some : (spanRawText name (c :: rest)).1.isEmpty = false := by simpa using hnil
      rw [if_neg (Nat.ne_of_gt (encodedSize_pos hnil)), shown, some]
      exact ⟨_, whole.symm, rfl⟩

end MarkupTemplate
