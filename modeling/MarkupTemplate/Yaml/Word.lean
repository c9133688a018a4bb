import MarkupTemplate.Yaml.Cursor

namespace MarkupTemplate

/-- What a reader finds, and where it ends; nothing if the text is malformed. -/
abbrev Found (α : Type) := Option (α × Cursor)

/-- Characters that end a plain scalar between brackets. -/
def isFlowMark (c : Char) : Bool :=
  c == ',' || c == '[' || c == ']' || c == '\x7b' || c == '\x7d'

/-- A plain scalar, with the column that its further lines must reach. The flag tells whether lines
ended after its last word. The text read so far is reversed. -/
def readPlain (inFlow : Bool) (indent : Nat) : Nat → Text → Gap → Cursor → Found (Text × Bool)
  | 0, _, _, _ => none
  | fuel + 1, done, gap, cursor =>
    let finished : Found (Text × Bool) := some ((done.reverse, gap.hasBreak), cursor)
    match cursor.rest with
    | [] => finished
    | c :: after =>
      if isYamlBlank c then
        if gap.hasBreak && cursor.column < indent && c == '\t' then none
        else readPlain inFlow indent fuel done (gap.addBlank c) (cursor.skip 1)
      else if isYamlBreak c then
        let (lineBreak, cursor) := cursor.skipBreak
        readPlain inFlow indent fuel done (gap.addBreak lineBreak) cursor
      else
        let inGap := gap.hasBreak || !gap.blanks.isEmpty
        if gap.hasBreak && !inFlow && cursor.column < indent then finished
        else if cursor.atBoundary then finished
        else if inGap && c == '#' then finished
        else if inFlow && c == ':' && after.head?.any (fun d => isFlowMark d || d == '?') then none
        else if (c == ':' && endsWord after) || (inFlow && isFlowMark c) then finished
        else readPlain inFlow indent fuel (c :: (gap.text.reverse ++ done)) {} (cursor.skip 1)

/-- The character that an escape stands for, and the number of hexadecimal digits that tell it. -/
def escape? : Char → Option (Sum Char Nat)
  | '0' => some (.inl '\x00')
  | 'a' => some (.inl '\x07')
  | 'b' => some (.inl '\x08')
  | 't' => some (.inl '\t')
  | '\t' => some (.inl '\t')
  | 'n' => some (.inl '\n')
  | 'v' => some (.inl '\x0b')
  | 'f' => some (.inl '\x0c')
  | 'r' => some (.inl '\r')
  | 'e' => some (.inl '\x1b')
  | ' ' => some (.inl ' ')
  | '"' => some (.inl '"')
  | '/' => some (.inl '/')
  | '\\' => some (.inl '\\')
  | 'N' => some (.inl '\u0085')
  | '_' => some (.inl '\u00a0')
  | 'L' => some (.inl '\u2028')
  | 'P' => some (.inl '\u2029')
  | 'x' => some (.inr 2)
  | 'u' => some (.inr 4)
  | 'U' => some (.inr 8)
  | _ => none

/-- The character of a code point. -/
def charOfCode? (code : Nat) : Option Char :=
  if code.isValidChar then some (Char.ofNat code) else none

/-- A quoted scalar after its opening quote. -/
def readQuoted (single : Bool) : Nat → Text → Gap → Cursor → Found Text
  | 0, _, _, _ => none
  | fuel + 1, done, gap, cursor =>
    let joined := gap.text.reverse ++ done
    match cursor.rest with
    | [] => none
    | c :: after =>
      if isYamlBlank c then readQuoted single fuel done (gap.addBlank c) (cursor.skip 1)
      else if isYamlBreak c then
        let (lineBreak, cursor) := cursor.skipBreak
        readQuoted single fuel done (gap.addBreak lineBreak) cursor
      else if cursor.atBoundary then none
      else if single then
        if c == '\'' then
          if after.head? = some '\'' then readQuoted single fuel (c :: joined) {} (cursor.skip 2)
          else some (joined.reverse, cursor.skip 1)
        else readQuoted single fuel (c :: joined) {} (cursor.skip 1)
      else if c == '"' then some (joined.reverse, cursor.skip 1)
      else if c == '\\' then
        match after with
        | [] => none
        | d :: digits =>
          if isYamlBreak d then
            readQuoted single fuel joined { firstBreak := some [] } (cursor.skip 1).skipBreak.2
          else match escape? d with
            | none => none
            | some (.inl plain) => readQuoted single fuel (plain :: joined) {} (cursor.skip 2)
            | some (.inr width) =>
              if digits.length < width then none
              else match (baseValue? 16 (digits.take width)).bind charOfCode? with
                | none => none
                | some plain =>
                  readQuoted single fuel (plain :: joined) {} (cursor.skip (2 + width))
      else readQuoted single fuel (c :: joined) {} (cursor.skip 1)

/-- What a block scalar does with the breaks at its end. -/
inductive Chomping where
  | strip
  | clip
  | keep
deriving DecidableEq, Repr

/-- The marks after the sign of a block scalar: what becomes of its end, and its indent. -/
def blockMarks? : Text → Option (Chomping × Option Nat)
  | [] => some (.clip, none)
  | ['+'] => some (.keep, none)
  | ['-'] => some (.strip, none)
  | [a] => indent? a |>.map (.clip, some ·)
  | ['+', a] => indent? a |>.map (.keep, some ·)
  | ['-', a] => indent? a |>.map (.strip, some ·)
  | [a, '+'] => indent? a |>.map (.keep, some ·)
  | [a, '-'] => indent? a |>.map (.strip, some ·)
  | _ => none
where
  indent? (c : Char) : Option Nat := (digit? c).filter (0 < ·)

/-- Empty lines before a line of a block scalar, its indent known or not, and the greatest column
that they reach. -/
def readBlockBreaks (indent : Option Nat) : Nat → Text → Nat → Cursor → Found (Text × Nat)
  | 0, _, _, _ => none
  | fuel + 1, breaks, widest, cursor =>
    let room := match indent with
      | some n => n - cursor.column
      | none => cursor.rest.length
    let spaces := ((cursor.rest.take room).takeWhile (· == ' ')).length
    let cursor := cursor.skip spaces
    let widest := max widest cursor.column
    let below := match indent with
      | some n => cursor.column < n
      | none => true
    match cursor.next? with
    | none => some ((breaks, widest), cursor)
    | some c =>
      if below && c == '\t' then none
      else if isYamlBreak c then
        let (lineBreak, cursor) := cursor.skipBreak
        readBlockBreaks indent fuel (breaks ++ lineBreak) widest cursor
      else some ((breaks, widest), cursor)

/-- The lines of a block scalar. `lead` is the break before the line, and `breaks` are those of the
empty lines before it. -/
def readBlockLines (folded : Bool) (chomping : Chomping) (indent : Nat) :
    Nat → Text → Text → Text → Bool → Cursor → Found Text
  | 0, _, _, _, _, _ => none
  | fuel + 1, done, lead, breaks, afterBlank, cursor =>
    if cursor.column = indent ∧ cursor.rest ≠ [] then
      let blank := cursor.next?.any isYamlBlank
      let joined :=
        if folded && lead == ['\n'] && !afterBlank && !blank then
          if breaks.isEmpty then [' '] else []
        else lead
      let line := cursor.rest.takeWhile (!isYamlBreak ·)
      let (lineBreak, cursor) := (cursor.skip line.length).skipBreak
      match readBlockBreaks (some indent) fuel [] 0 cursor with
      | none => none
      | some ((breaks', _), cursor) =>
        readBlockLines folded chomping indent fuel (done ++ joined ++ breaks ++ line) lineBreak
          breaks' blank cursor
    else
      let tail := match chomping with
        | .strip => []
        | .clip => lead
        | .keep => lead ++ breaks
      some (done ++ tail, cursor)

/-- A block scalar after its sign, within a block of the given indent. -/
def readBlock (folded : Bool) (parentIndent : Int) (cursor : Cursor) : Option (Text × Cursor) := do
  let fuel := cursor.rest.length + 2
  let marks := cursor.rest.takeWhile fun c => c == '+' || c == '-' || (digit? c).isSome
  let (chomping, given) ← blockMarks? marks
  let cursor := (cursor.skip marks.length).skipWhile isYamlBlank
  let cursor := if cursor.next? = some '#' then cursor.skipWhile (!isYamlBreak ·) else cursor
  if !cursor.atLineEnd then none
  else
    let cursor := cursor.skipBreak.2
    let known := given.map fun n => if 0 ≤ parentIndent then parentIndent.toNat + n else n
    let ((breaks, widest), cursor) ← readBlockBreaks known fuel [] 0 cursor
    let indent := known.getD (max widest (max (parentIndent + 1).toNat 1))
    readBlockLines folded chomping indent fuel [] [] breaks false cursor

/-- The name of an anchor or alias. -/
def readAnchor (cursor : Cursor) : Found Text :=
  let name := cursor.rest.takeWhile isYamlWordChar
  let after := cursor.skip name.length
  let ends := after.endsWordAt 0 || after.next?.any fun c => "?:,]\x7d%@\x60".toList.contains c
  if name.isEmpty || !ends then none else some (name, after)

/-- The bytes of the name of a tag at its characters. -/
def readTagName (wide : Bool) (cursor : Cursor) : Found TagBytes :=
  let name := cursor.rest.takeWhile (isTagChar wide)
  (tagBytes? 0 name).map (·, cursor.skip name.length)

/-- The handle at the start of a tag: an exclamation mark, a word and perhaps another mark. -/
def spanHandle (cursor : Cursor) : Text :=
  let word := (cursor.rest.drop 1).takeWhile isYamlWordChar
  match cursor.rest.drop (1 + word.length) with
  | '!' :: _ => '!' :: word ++ ['!']
  | _ => ['!']

/-- A tag at its exclamation mark, without a look at what follows. -/
def readTagWord (cursor : Cursor) : Option (TagWord × Cursor) := do
  if (cursor.rest.drop 1).head? = some '<' then
    let (name, after) ← readTagName true (cursor.skip 2)
    if name.isEmpty ∨ after.next? ≠ some '>' then none
    else some (⟨[], bytesToZero name⟩, after.skip 1)
  else
    let handle := spanHandle cursor
    let (name, after) ← readTagName false (cursor.skip handle.length)
    let suffix := bytesToZero name
    if name.isEmpty ∧ handle ≠ ['!'] then none
    else if suffix.isEmpty ∧ handle = ['!'] then some (⟨[], encodedBytes ['!']⟩, after)
    else some (⟨handle, suffix⟩, after)

/-- A tag at its exclamation mark. A blank or the end of a line follows it, or a comma between
brackets. -/
def readTag (inFlow : Bool) (cursor : Cursor) : Option (TagWord × Cursor) := do
  let (word, after) ← readTagWord cursor
  if after.endsWordAt 0 ∨ (inFlow ∧ after.next? = some ',') then some (word, after) else none

end MarkupTemplate
