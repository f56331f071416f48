import IntentGrammar.Yaml.Source

/-!
# Plain scalars

A plain scalar is a run of chunks.  A chunk ends at a gap, at a colon in front of one, and inside
brackets also at a bracket or comma.  The scalar goes on behind spaces and line breaks, unless a
comment follows, or, outside of brackets, a line that is not indented.  So further lines may begin
with any character.
-/

namespace IntentGrammar.Yaml

/-- Characters that no plain scalar starts with. -/
def isIndicator (c : Char) : Bool :=
  isGap c || "-?:,[]\x7b\x7d#&*!|>'\"%@\u0060".toList.contains c

/-- A plain scalar starts with this character, in front of `rest`. -/
def startsPlain (inFlow : Bool) (c : Char) (rest : List Cell) : Bool :=
  if !isIndicator c then true
  else if c = '-' then !gapNext rest
  else if c = ':' ∧ inFlow then !rest.head?.any (isMargin ·.char)
  else (c == '?' || c == ':') && !inFlow && !gapNext rest

/-- A chunk ends in front of this character. -/
def endsChunk (inFlow : Bool) (c : Char) (rest : List Cell) : Bool :=
  if c = ':' then gapNext rest
  else isGap c || (inFlow && ",[]\x7b\x7d".toList.contains c)

/-- Read a chunk: its text, and what is left. -/
def readChunk (inFlow : Bool) : List Cell → List Char × List Cell
  | [] => ([], [])
  | c :: rest =>
    if endsChunk inFlow c.char rest then ([], c :: rest)
    else
      let (text, left) := readChunk inFlow rest
      (c.char :: text, left)

/-- What lies between two chunks. -/
structure Pause where
  /-- The text that it stands for; there is none if the scalar does not go on. -/
  text : List Char
  /-- It contains a line break. -/
  broken : Bool
  rest : List Cell

/-- Read the spaces and line breaks behind a chunk. -/
def readPause (cs : List Cell) : Pause :=
  match cs.dropWhile (·.char == ' ') with
  | [] => ⟨[], false, []⟩
  | c :: rest =>
    if isBreak c.char then
      let (text, rest) := fold? (· == ' ') c.char rest
      ⟨text.getD [], true, rest⟩
    else ⟨(cs.takeWhile (·.char == ' ')).map (·.char), false, c :: rest⟩

/-- A plain scalar as it was read. -/
structure PlainRun where
  text : List Char
  /-- The line of its last chunk. -/
  lastLine : Nat
  /-- The pause behind it. -/
  after : Pause

/-- The scalar may go on here: there is no comment, and outside of brackets the place is to the
right of the block that the scalar is in. -/
def goesOn (inFlow : Bool) (indent : Option Nat) : List Cell → Bool
  | [] => false
  | c :: _ => c.char != '#' && (inFlow || indent.all (· < c.column))

/-- Read a plain scalar, the last chunk of which was on the line `line` and had `before` behind it.
`fuel` bounds the number of its chunks. -/
def readPlain (inFlow : Bool) (indent : Option Nat) : Nat → Nat → Pause → PlainRun
  | 0, line, before => ⟨[], line, before⟩
  | fuel + 1, line, before =>
    match readChunk inFlow before.rest with
    | ([], _) => ⟨[], line, before⟩
    | (chunk, rest) =>
      let line := (rest.head?.map Cell.line).getD line
      let after := readPause rest
      let run :=
        if !after.text.isEmpty && goesOn inFlow indent after.rest then
          readPlain inFlow indent fuel line after
        else ⟨[], line, after⟩
      { run with text := before.text ++ chunk ++ run.text }

end IntentGrammar.Yaml
