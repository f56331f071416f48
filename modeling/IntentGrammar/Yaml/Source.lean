/-!
# The source of a YAML document

A document is read off a list of cells, characters that know where they stand.  Lines are counted
by the plain line end alone, though three more characters break a line of text.

A byte order mark takes up no column, and leads nowhere at the start of a text.  The end of the
text is marked by the character zero, which may not occur in it.
-/

namespace IntentGrammar.Yaml

/-- Why a text cannot be read. -/
inductive Fault where
  /-- The text breaks the rules of the language, or a map has two equal keys. -/
  | malformed
  /-- A key holds something that cannot be part of a key. -/
  | unusableKey
  /-- Something is written like a number, a moment or a character, but there is none like that. -/
  | outOfRange
  /-- A number has a sign, but no digits. -/
  | noDigits
  /-- Two comments claim one place. -/
  | crowded
deriving DecidableEq, Repr

/-- A character and where it stands: how many characters are in front of it, its line, and its
column. -/
structure Cell where
  char : Char
  index : Nat
  line : Nat
  column : Nat
deriving DecidableEq, Repr

/-- The character that marks the end of a text. -/
def endMark : Char := '\x00'

/-- The cells of a text from some place on, with the mark of its end. -/
def cellsFrom (index line column : Nat) : List Char → List Cell
  | [] => [⟨endMark, index, line, column⟩]
  | c :: cs =>
    ⟨c, index, line, column⟩ ::
      (if c = '\n' then cellsFrom (index + 1) (line + 1) 0 cs
       else if c = '\ufeff' then cellsFrom (index + 1) line column cs
       else cellsFrom (index + 1) line (column + 1) cs)

/-- Line ends of one form. -/
def unifyLines : List Char → List Char
  | '\r' :: '\n' :: cs => '\n' :: unifyLines cs
  | '\r' :: cs => '\n' :: unifyLines cs
  | c :: cs => c :: unifyLines cs
  | [] => []

/-- Characters that may occur in a text. -/
def isAllowed (c : Char) : Bool :=
  let n := c.toNat
  n == 9 || n == 10 || (32 ≤ n && n ≤ 0x7E) || n == 0x85 || (0xA0 ≤ n && n ≤ 0xD7FF) ||
    (0xE000 ≤ n && n ≤ 0xFFFD) || 0x10000 ≤ n

/-- The cells of a text, unless it holds a character that may not occur. -/
def cells? (text : String) : Option (List Cell) :=
  let cs := unifyLines text.toList
  let cells := cellsFrom 0 0 0 cs
  if cs.all isAllowed then some (if cs.head? = some '\ufeff' then cells.drop 1 else cells)
  else none

/-! ### Spaces and breaks -/

/-- Spaces and tabs. -/
def isMargin (c : Char) : Bool := c == ' ' || c == '\t'

/-- The characters that break a line. -/
def isBreak (c : Char) : Bool := c == '\n' || c == '\x85' || c == '\u2028' || c == '\u2029'

/-- What a break stands for in a text: the separators of lines and of paragraphs are kept. -/
def breakText (c : Char) : Char := if c = '\x85' then '\n' else c

/-- An indicator counts as such only in front of a space, a tab, a break or the end of the text. -/
def isGap (c : Char) : Bool := isMargin c || isBreak c || c == endMark

/-- A gap follows. -/
def gapNext : List Cell → Bool
  | [] => true
  | c :: _ => isGap c.char

/-- Three dashes or dots mark the start or the end of a document. -/
def isMarker : List Cell → Bool
  | a :: b :: c :: rest =>
    ((a.char == '-' && b.char == '-' && c.char == '-') ||
      (a.char == '.' && b.char == '.' && c.char == '.')) && gapNext rest
  | _ => false

/-- Read on behind a line break inside a scalar: the further breaks, and what stands behind them
and the margins between them.  There are none if a document is marked to start or end. -/
def breaks? (isMargin : Char → Bool) : List Cell → Option (List Char) × List Cell
  | [] => (some [], [])
  | c :: rest =>
    if isMargin c.char then breaks? isMargin rest
    else if isBreak c.char then
      if isMarker rest then (none, rest)
      else
        let (more, rest) := breaks? isMargin rest
        (more.map (breakText c.char :: ·), rest)
    else (some [], c :: rest)

/-- Read on behind a line break `first`: the text that the break and those that follow stand for.
A single break is a space; of several, the first one is left out. -/
def fold? (isMargin : Char → Bool) (first : Char) (cs : List Cell) :
    Option (List Char) × List Cell :=
  if isMarker cs then (none, cs)
  else
    let (more, rest) := breaks? isMargin cs
    (more.map fun more =>
      if breakText first ≠ '\n' then first :: more
      else if more.isEmpty then [' '] else more,
      rest)

end IntentGrammar.Yaml
