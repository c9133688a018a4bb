import MarkupTemplate.Markup.Reader
import MarkupTemplate.Proofs.Markup.WholeTokens

namespace MarkupTemplate

theorem oneByte_isTagSpace : OneByte isTagSpace := by
  intro c h
  simp only [isTagSpace, Bool.or_eq_true, beq_iff_eq] at h
  rcases h with (((rfl | rfl) | rfl) | rfl) | rfl <;> decide

theorem oneByte_startsName : OneByte startsName := by
  intro c h
  rcases (Bool.or_eq_true ..).mp h with h | h
  · have upper : 'A'.val ≤ c.val ∧ c.val ≤ 'Z'.val := of_decide_eq_true h
    exact Nat.lt_of_le_of_lt (UInt32.le_iff_toNat_le.mp upper.2) (by decide)
  · have lower : (decide ('a'.val ≤ c.val) && decide (c.val ≤ 'z'.val)) = true := h
    have last := of_decide_eq_true (Bool.and_eq_true_iff.mp lower).2
    exact Nat.lt_of_le_of_lt (UInt32.le_iff_toNat_le.mp last) (by decide)

theorem oneByte_beq {c : Char} (h : c.toNat < 128) : OneByte (· == c) := by
  intro d hd
  rw [beq_iff_eq.mp hd]
  exact h

theorem spaceLength_eq (text : Text) :
    spaceLength text = encodedSize (text.takeWhile isTagSpace) := by
  induction text with
  | nil => rfl
  | cons c text ih =>
    obtain ⟨first, others, he, test⟩ := utf8EncodeChar_test c
    obtain ⟨same, single⟩ := test _ oneByte_isTagSpace
    have hb : bytes (c :: text) = first :: (others ++ bytes text) := by simp [bytes, he]
    rw [spaceLength, hb]
    cases hc : isTagSpace c with
    | false =>
      rw [hc] at same
      rw [List.takeWhile_cons_of_neg (by simp [same]), List.takeWhile_cons_of_neg (by simp [hc])]
      rfl
    | true =>
      rw [hc] at same
      have size := String.length_utf8EncodeChar c
      rw [he, single hc] at size
      rw [List.takeWhile_cons_of_pos (by simp [same]), List.takeWhile_cons_of_pos hc, single hc,
        List.nil_append, List.length_cons, encodedSize, ← ih, ← size]
      exact Nat.add_comm _ _

theorem nameLength_eq (text : Text) : nameLength text = encodedSize (spanName text).1 := by
  rw [nameLength, position?_getD]
  simp only [Bool.not_not]
  rfl

/-- What is scanned in a text is what is read there, and the position is where the rest begins. -/
inductive ScannedAs {α : Type} (text : Text) :
    Option (Option (α × Nat)) → Option (α × Text) → Prop
  | missing : ScannedAs text (some none) none
  | found (value : α) {used rest : Text} : text = used ++ rest →
      ScannedAs text (some (some (value, encodedSize used))) (some (value, rest))

namespace ScannedAs

variable {α : Type} {text : Text} {scanned : Option (Option (α × Nat))} {read : Option (α × Text)}

theorem of_eq {value : α} (used : Text) {rest : Text} {position : Nat} (h : text = used ++ rest)
    (hp : position = encodedSize used) :
    ScannedAs text (some (some (value, position))) (some (value, rest)) := by
  rw [hp]
  exact .found value h

theorem suffix (h : ScannedAs text scanned read) {value : α} {rest : Text}
    (hr : read = some (value, rest)) : ∃ used, text = used ++ rest := by
  cases h with
  | missing => cases hr
  | found found hs =>
    obtain ⟨_, rfl⟩ := Prod.mk.inj (Option.some.inj hr)
    exact ⟨_, hs⟩

/-- What is made of a value on both sides. -/
theorem map {β : Type} (h : ScannedAs text scanned read) (f : α → β) :
    ScannedAs text (scanned.map fun found => found.map fun found => (f found.1, found.2))
      (read.map fun found => (f found.1, found.2)) := by
  cases h with
  | missing => exact .missing
  | found value hs => exact .found _ hs

end ScannedAs

theorem readValue?_quote (quote : Quote) (rest : Text) :
    readValue? (quote.char :: rest) =
      (cut? [quote.char] rest).map fun found => (.quoted quote found.1, found.2) := by
  cases quote <;> rfl

theorem readValue?_other {c : Char} (h : quote? c = none) (rest : Text) :
    readValue? (c :: rest) =
      some (.unquoted ((c :: rest).takeWhile inValue), (c :: rest).dropWhile inValue) := by
  unfold readValue?
  split
  next he => cases he
  next he =>
    rw [(List.cons.inj he).1] at h
    cases h
  next he =>
    rw [(List.cons.inj he).1] at h
    cases h
  next => rfl

theorem sliceFrom?_one {c : Char} (h : c.utf8Size = 1) (rest : Text) :
    sliceFrom? 1 (c :: rest) = some rest := by
  have cut := sliceFrom?_append [c] rest
  rwa [encodedSize, encodedSize, h] at cut

theorem scanValue?_as (text : Text) : ScannedAs text (scanValue? text) (readValue? text) := by
  cases text with
  | nil => exact .missing
  | cons c rest =>
    cases hq : quote? c with
    | none =>
      have length := position?_getD (fun c => isTagSpace c || c == '>') (c :: rest)
      have chars : (fun c => !(isTagSpace c || c == '>')) = inValue := rfl
      have split : c :: rest = (c :: rest).takeWhile inValue ++ (c :: rest).dropWhile inValue :=
        List.takeWhile_append_dropWhile.symm
      have value := sliceTo?_append ((c :: rest).takeWhile inValue) ((c :: rest).dropWhile inValue)
      rw [← split] at value
      simp only [scanValue?, List.head?_cons, hq, readValue?_other hq, length, chars, value]
      exact .found _ split
    | some quote =>
      obtain ⟨rfl, size⟩ : c = quote.char ∧ quote.char.utf8Size = 1 := by
        unfold quote? at hq
        split at hq
        next h =>
          cases hq
          exact ⟨h, by decide⟩
        next =>
          split at hq
          next h =>
            cases hq
            exact ⟨h, by decide⟩
          next => cases hq
      simp only [scanValue?, List.head?_cons, hq, readValue?_quote, sliceFrom?_one size,
        position?_char, Option.bind_eq_bind, Option.bind_some]
      cases hc : cut? [quote.char] rest with
      | none => exact .missing
      | some found =>
        obtain ⟨value, after⟩ := found
        have tail : value ++ quote.char :: after = rest := by simpa using append_of_cut? hc
        have one : encodedSize [quote.char] = 1 := by simp [encodedSize, size]
        have sliced := slice?_append [quote.char] value (quote.char :: after)
        rw [tail, one] at sliced
        simp only [Option.map_some, List.singleton_append] at sliced ⊢
        simp only [sliced, Option.bind_some]
        refine .of_eq (quote.char :: (value ++ [quote.char])) ?_ ?_
        · simp [← tail]
        · simp only [encodedSize, encodedSize_append, size]
          omega

theorem append_skipSpace (text : Text) : text.takeWhile isTagSpace ++ skipSpace text = text :=
  List.takeWhile_append_dropWhile

theorem scanAttribute?_as (text : Text) :
    ScannedAs text (scanAttribute? text) (readAttribute? text) := by
  have split : (spanName text).1 ++ (spanName text).2 = text := List.takeWhile_append_dropWhile
  rcases hspan : spanName text with ⟨name, gap⟩
  rw [hspan] at split
  have length : nameLength text = encodedSize name := by rw [nameLength_eq, hspan]
  by_cases hne : name = []
  · subst hne
    have missing : readAttribute? text = none := by simp [readAttribute?, hspan]
    rw [missing, scanAttribute?, length]
    exact .missing
  · have pos := encodedSize_pos hne
    have named := sliceTo?_append name gap
    have behind := sliceFrom?_append name gap
    have spaces := sliceFrom?_append (name ++ gap.takeWhile isTagSpace) (skipSpace gap)
    rw [List.append_assoc, append_skipSpace, encodedSize_append] at spaces
    rw [split] at named behind spaces
    simp only [scanAttribute?, length, Nat.ne_of_gt pos, if_false, named, behind, spaceLength_eq,
      spaces, Option.bind_eq_bind, Option.bind_some]
    cases hgap : skipSpace gap with
    | nil =>
      rw [readAttribute?_bare hspan hne (by simp [hgap])]
      exact .found _ split.symm
    | cons c tail =>
      by_cases hc : c = '='
      · subst hc
        rw [readAttribute?_valued hspan hne hgap]
        obtain ⟨before, whole, start⟩ : ∃ before, before ++ tail = text ∧
            encodedSize name + encodedSize (gap.takeWhile isTagSpace) + 1 = encodedSize before := by
          refine ⟨name ++ (gap.takeWhile isTagSpace ++ ['=']), ?_, ?_⟩
          · calc name ++ (gap.takeWhile isTagSpace ++ ['=']) ++ tail
              _ = name ++ (gap.takeWhile isTagSpace ++ '=' :: tail) := by simp
              _ = text := by rw [← hgap, append_skipSpace]; exact split
          · simp only [encodedSize_append, encodedSize]
            exact Nat.add_assoc _ _ 1
        have tails := sliceFrom?_append before tail
        have rests := sliceFrom?_append (before ++ tail.takeWhile isTagSpace) (skipSpace tail)
        rw [List.append_assoc, append_skipSpace, encodedSize_append] at rests
        rw [whole] at tails rests
        simp only [List.head?_cons, ne_eq, not_true_eq_false, if_false, start, tails, rests,
          Option.bind_some]
        have value := scanValue?_as (skipSpace tail)
        generalize scanValue? (skipSpace tail) = scanned,
          readValue? (skipSpace tail) = read at value
        cases value with
        | missing => exact .missing
        | @found value used rest hs =>
          refine .of_eq (before ++ (tail.takeWhile isTagSpace ++ used)) ?_ ?_
          · rw [List.append_assoc, List.append_assoc, ← hs, append_skipSpace, whole]
          · simp only [encodedSize_append, Nat.add_assoc]
      · rw [readAttribute?_bare hspan hne (by simp [hgap, hc])]
        simp only [List.head?_cons, ne_eq, Option.some.injEq, hc, not_false_eq_true, if_true]
        exact .found _ split.symm

/-- A test of a byte where a text ends or goes on. -/
theorem byteAt?_any (before text : Text) {p : Char → Bool} (hp : OneByte p) :
    (byteAt? (before ++ text) (encodedSize before)).any p = text.head?.any p := by
  cases text with
  | nil => rw [List.append_nil, byteAt?_end]; rfl
  | cons c rest =>
    obtain ⟨d, hd, test⟩ := byteAt?_append before c rest
    rw [hd]
    exact test p hp

theorem byteAt?_eq_some_iff (before text : Text) {c : Char} (hc : c.toNat < 128) :
    byteAt? (before ++ text) (encodedSize before) = some c ↔ text.head? = some c := by
  have any (found : Option Char) : found = some c ↔ found.any (· == c) = true := by
    cases found <;> simp
  rw [any, any, byteAt?_any _ _ (oneByte_beq hc)]

section

variable {before text rest : Text} {c : Char}

theorem scanAttributes?_nil (h : skipSpace text = []) :
    scanAttributes? (before ++ text) (encodedSize before) = some none := by
  have whole : text.takeWhile isTagSpace = text := by
    simpa [h] using append_skipSpace text
  have atEnd : byteAt? (before ++ text) (encodedSize before + spaceLength text) = none := by
    rw [spaceLength_eq, whole, ← encodedSize_append, byteAt?_end]
  rw [scanAttributes?]
  simp only [sliceFrom?_append, Option.bind_eq_bind, Option.bind_some]
  split
  next => rfl
  next hb =>
    rw [atEnd] at hb
    cases hb

/-- What a scan does with the character after the spaces. -/
theorem scanAttributes?_cons {stop : Text} (h : skipSpace text = c :: rest)
    (hs : stop = before ++ text.takeWhile isTagSpace) :
    scanAttributes? (before ++ text) (encodedSize before) =
      if c = '>' then some (some (([], false), encodedSize stop + 1))
      else if c = '/' then
        if rest.head? = some '>' then some (some (([], true), encodedSize stop + 2))
        else scanAttributes? (before ++ text) (encodedSize stop + 1)
      else (scanAttribute? (c :: rest)).bind fun
        | none => some none
        | some (attr, after) =>
          (scanAttributes? (before ++ text) (encodedSize stop + after)).map fun found =>
            found.map fun found => ((attr :: found.1.1, found.1.2), found.2) := by
  have whole : before ++ text = stop ++ c :: rest := by
    rw [hs, List.append_assoc, ← h, append_skipSpace]
  have start : encodedSize before + spaceLength text = encodedSize stop := by
    rw [hs, spaceLength_eq, encodedSize_append]
  obtain ⟨d, hd, test⟩ := byteAt?_append stop c rest
  rw [← whole] at hd
  have same : ∀ {e : Char}, e.toNat < 128 → (d = e ↔ c = e) := fun he => by
    have beq := test _ (oneByte_beq he)
    rwa [Bool.eq_iff_iff, beq_iff_eq, beq_iff_eq] at beq
  rw [scanAttributes?]
  simp only [sliceFrom?_append, Option.bind_eq_bind, Option.bind_some]
  split
  next hb =>
    rw [start, hd] at hb
    cases hb
  next d' hb =>
    rw [start, hd] at hb
    cases hb
    simp only [start, same (show '>'.toNat < 128 by decide), same (show '/'.toNat < 128 by decide)]
    split
    next => rfl
    next =>
      split
      next hslash =>
        have after := byteAt?_eq_some_iff (stop ++ [c]) rest (show '>'.toNat < 128 by decide)
        rw [List.append_assoc, List.singleton_append, ← whole, encodedSize_append, hslash] at after
        have one : encodedSize ['/'] = 1 := rfl
        simp only [← after, one]
      next =>
        have tail := sliceFrom?_append stop (c :: rest)
        rw [← whole] at tail
        simp only [tail, Option.bind_some]
        rcases scanAttribute? (c :: rest) with _ | _ | ⟨attr, after⟩ <;> rfl

theorem append_takeWhile_isTagSpace (before : Text) (h : skipSpace text = rest) :
    before ++ text = before ++ text.takeWhile isTagSpace ++ rest := by
  rw [List.append_assoc, ← h, append_skipSpace]

end

theorem scanAttributes?_as (before text : Text) :
    ScannedAs (before ++ text) (scanAttributes? (before ++ text) (encodedSize before))
      (readAttributes? text) := by
  induction text using readAttributes?.induct generalizing before with
  | case1 text hs =>
    rw [scanAttributes?_nil hs, Option.eq_none_iff_forall_ne_some.mpr fun found h =>
      skipSpace_ne_nil_of_readAttributes? h hs]
    exact .missing
  | case2 text rest hs =>
    rw [scanAttributes?_cons hs rfl, readAttributes?_end hs, if_pos rfl]
    refine .of_eq (before ++ text.takeWhile isTagSpace ++ ['>']) ?_ ?_
    · simp [append_takeWhile_isTagSpace before hs]
    · exact (encodedSize_concat _ (by decide)).symm
  | case3 text rest hs =>
    rw [scanAttributes?_cons hs rfl, readAttributes?_selfClosing hs, if_neg (by decide), if_pos rfl,
      List.head?_cons, if_pos rfl]
    refine .of_eq (before ++ text.takeWhile isTagSpace ++ ['/'] ++ ['>']) ?_ ?_
    · simp [append_takeWhile_isTagSpace before hs]
    · rw [encodedSize_concat _ (by decide), encodedSize_concat _ (by decide)]
  | case4 text rest hr hs _ ih =>
    have bare : rest.head? ≠ some '>' := fun h => by
      obtain ⟨after, rfl⟩ := List.head?_eq_some_iff.mp h
      exact hr after rfl
    have inner := ih (before ++ text.takeWhile isTagSpace ++ ['/'])
    rw [List.append_assoc, List.singleton_append, ← append_takeWhile_isTagSpace before hs,
      encodedSize_concat _ (by decide)] at inner
    rw [scanAttributes?_cons hs rfl, readAttributes?_slash hs fun after h => hr after h,
      if_neg (by decide), if_pos rfl, if_neg bare]
    exact inner
  | case5 text c rest hend hpair hslash hs _ hn =>
    have scanned := scanAttribute?_as (c :: rest)
    rw [hn] at scanned
    rw [scanAttributes?_cons hs rfl, if_neg hend, if_neg hslash,
      readAttributes?_other hs hslash hend, hn]
    generalize scanAttribute? (c :: rest) = found at scanned
    cases scanned
    exact .missing
  | case6 text c rest hend _ hslash hs _ attr after ha _ ih =>
    have scanned := scanAttribute?_as (c :: rest)
    rw [ha] at scanned
    rw [scanAttributes?_cons hs rfl, if_neg hend, if_neg hslash,
      readAttributes?_attribute hs hslash hend ha]
    generalize scanAttribute? (c :: rest) = found at scanned
    cases scanned with
    | @found _ used _ hu =>
      have inner := ih (before ++ text.takeWhile isTagSpace ++ used)
      rw [List.append_assoc, ← hu, ← append_takeWhile_isTagSpace before hs,
        encodedSize_append] at inner
      simp only [Option.bind_some]
      exact inner.map fun found => (attr :: found.1, found.2)

end MarkupTemplate
