import IntentGrammar.Yaml.Lexeme
import IntentGrammar.Yaml.Plain
import IntentGrammar.Yaml.Quoted

/-!
# Scanning a YAML text

A `Scan` is a text of which some lexemes have been read.  `Scan.fetch` reads the next one, and
queues it up for whoever takes the lexemes away.

A key is known as such only when its colon is reached.  So the place in front of anything that may
be a key is kept as a `Candidate`, and the key is marked there afterwards.

What is covered: block and flow lists and maps, plain and quoted scalars, comments, and the markers
around the only document.  Anything else is refused as malformed.
-/

namespace IntentGrammar.Yaml

/-! ### Gaps between lexemes -/

/-- What is being skipped between two lexemes. -/
inductive Skipping where
  | margin
  | comment
  /-- The line ends behind a comment. -/
  | behindComment
  /-- Empty lines, with the margin of the next one. -/
  | emptyLines
deriving DecidableEq

/-- A gap between two lexemes, up to the end of its first comment or empty lines. -/
structure Gap where
  /-- It contains a line end or a comment. -/
  broken : Bool
  /-- The line on which the comment or the empty lines begin. -/
  comment : Option Nat
  rest : List Cell

/-- The gap with a line end in front of it, which belongs to a comment or to empty lines if `line`
says where these begin. -/
def Gap.behind (line : Option Nat) (g : Gap) : Gap := ⟨true, line <|> g.comment, g.rest⟩

/-- Skip a gap.  Tabs are part of it inside brackets only, and on empty lines. -/
def readGap (inFlow : Bool) : Skipping → List Cell → Gap
  | _, [] => ⟨false, none, []⟩
  | .comment, c :: rest =>
    if c.char = endMark then ⟨false, none, c :: rest⟩
    else readGap inFlow (if isBreak c.char then .behindComment else .comment) rest
  | .behindComment, c :: rest =>
    if isBreak c.char then readGap inFlow .behindComment rest else ⟨false, none, c :: rest⟩
  | .emptyLines, c :: rest =>
    if isBreak c.char || isMargin c.char then readGap inFlow .emptyLines rest
    else ⟨false, none, c :: rest⟩
  | .margin, c :: rest =>
    if c.char = ' ' ∨ (c.char = '\t' ∧ inFlow) then readGap inFlow .margin rest
    else if c.char = '#' then (readGap inFlow .comment rest).behind (some c.line)
    else if isBreak c.char then
      let next := rest.head?.filter (·.char == '\n')
      (readGap inFlow (if next.isSome then .emptyLines else .margin) rest).behind
        (next.map Cell.line)
    else ⟨false, none, c :: rest⟩

/-! ### The state of a scan -/

/-- The brackets of a flow collection. -/
inductive Flow where
  | list
  | map
deriving DecidableEq

/-- A place where a key may have started. -/
structure Candidate where
  /-- How many lexemes there are in front of it. -/
  place : Nat
  start : Cell
  /-- Only a key can stand here: it is where the entries of the block start. -/
  required : Bool

/-- The most characters from the start of a key to its colon. -/
def longestKey : Nat := 1024

/-- A candidate may still be a key if the scan is at `c`: keys stand on one line, and are short. -/
def Candidate.isFresh (k : Candidate) (c : Cell) : Bool :=
  k.start.line == c.line && c.index - k.start.index ≤ longestKey

/-- The state of a scan. -/
structure Scan where
  rest : List Cell
  /-- The lexemes that were read, but not taken. -/
  queue : List Lexeme
  /-- How many lexemes were taken. -/
  taken : Nat
  /-- The columns of the open blocks, innermost first. -/
  columns : List Nat
  candidate : Option Candidate
  /-- The open brackets, innermost first, each with the candidate around it. -/
  flows : List (Flow × Option Candidate)
  /-- A key may start here. -/
  keyAllowed : Bool
  /-- The end of the text was read. -/
  ended : Bool

namespace Scan

/-- The start of a text. -/
def start (cells : List Cell) : Scan := ⟨cells, [], 0, [], none, [], true, false⟩

/-- The cell that the scan is at. -/
def here (s : Scan) : Cell := s.rest.head?.getD ⟨endMark, 0, 0, 0⟩

/-- The scan is inside brackets. -/
def inFlow (s : Scan) : Bool := !s.flows.isEmpty

/-- Queue up a lexeme. -/
def push (s : Scan) (l : Lexeme) : Scan := { s with queue := s.queue ++ [l] }

/-- Queue up a lexeme that stands where the scan is. -/
def emit (s : Scan) (sign : Sign) : Scan := s.push (.bare sign s.here.line s.here.line)

/-- Move on by some characters. -/
def advance (s : Scan) (n : Nat) : Scan := { s with rest := s.rest.drop n }

/-- All candidates. -/
def candidates (s : Scan) : List Candidate := s.candidate.toList ++ s.flows.filterMap (·.2)

/-- Give up the candidate of the innermost brackets or block, unless only a key can stand there. -/
def dropCandidate (s : Scan) : Except Fault Scan :=
  if s.candidate.any (·.required) then .error .malformed else .ok { s with candidate := none }

/-- Give up the candidates that can be keys no more. -/
def dropStale (s : Scan) : Except Fault Scan :=
  let isFresh (k : Candidate) : Bool := k.isFresh s.here
  if s.candidates.any fun k => k.required && !isFresh k then .error .malformed
  else
    .ok { s with
      candidate := s.candidate.filter isFresh
      flows := s.flows.map fun (f, k) => (f, k.filter isFresh) }

/-- End the blocks to the right of a column; inside brackets columns do not count. -/
def unwind (s : Scan) (column : Option Nat) : Scan :=
  if s.inFlow then s
  else
    let isRight (n : Nat) : Bool := column.all (· < n)
    { (s.columns.takeWhile isRight).foldl (fun s _ => s.emit .blockEnd) s with
      columns := s.columns.dropWhile isRight }

/-- A column to the right of the open blocks opens a further one. -/
def opensBlock (s : Scan) (column : Nat) : Bool := s.columns.head?.all (· < column)

/-- Open a block in a column, unless it is open. -/
def openBlock (s : Scan) (sign : Sign) (column : Nat) : Scan :=
  if s.opensBlock column then { s.emit sign with columns := column :: s.columns } else s

/-- Where a key is allowed, one may start here. -/
def addCandidate (s : Scan) : Except Fault Scan :=
  if s.keyAllowed then do
    let required := !s.inFlow && s.columns.head? == some s.here.column
    let s ← s.dropCandidate
    return { s with candidate := some ⟨s.taken + s.queue.length, s.here, required⟩ }
  else .ok s

/-- Mark a candidate as the key that it turned out to be.  Outside of brackets a block may start
with it. -/
def markKey (s : Scan) (k : Candidate) : Scan :=
  let column := k.start.column
  let (before, behind) := s.queue.splitAt (k.place - s.taken)
  let mark (sign : Sign) : Lexeme := .bare sign k.start.line k.start.line
  if !s.inFlow && s.opensBlock column then
    { s with
      queue := before ++ mark .mapStart :: mark .key :: behind
      columns := column :: s.columns }
  else { s with queue := before ++ mark .key :: behind }

/-! ### Reading a lexeme -/

/-- Read the end of the text. -/
def readEnd (s : Scan) : Except Fault Scan := do
  let s ← (s.unwind none).dropCandidate
  return { s.emit .textEnd with
    candidate := none, flows := s.flows.map fun (f, _) => (f, none), keyAllowed := false,
    ended := true }

/-- Read a marker of the document. -/
def readMarker (s : Scan) : Except Fault Scan := do
  let s ← (s.unwind none).dropCandidate
  return { (s.emit (if s.here.char = '-' then .documentStart else .documentEnd)).advance 3 with
    keyAllowed := false }

/-- Read an opening bracket, which may be the start of a key. -/
def readOpening (s : Scan) (f : Flow) (sign : Sign) : Except Fault Scan := do
  let s ← s.addCandidate
  return { (s.emit sign).advance 1 with
    candidate := none, flows := (f, s.candidate) :: s.flows, keyAllowed := true }

/-- Read a closing bracket, of whichever kind. -/
def readClosing (s : Scan) (sign : Sign) : Except Fault Scan := do
  let s ← s.dropCandidate
  return { (s.emit sign).advance 1 with
    candidate := s.flows.head?.bind (·.2), flows := s.flows.drop 1, keyAllowed := false }

/-- Read a comma. -/
def readComma (s : Scan) : Except Fault Scan := do
  let s ← s.dropCandidate
  return { (s.emit .comma).advance 1 with keyAllowed := true }

/-- Read the dash of a block list, which stands where a key could. -/
def readDash (s : Scan) : Except Fault Scan :=
  if s.inFlow || s.keyAllowed then do
    let s ← (if s.inFlow then s else s.openBlock .listStart s.here.column).dropCandidate
    return { (s.emit .dash).advance 1 with keyAllowed := true }
  else .error .malformed

/-- Read the mark in front of a key. -/
def readKey (s : Scan) : Except Fault Scan :=
  if s.inFlow || s.keyAllowed then do
    let s ← (if s.inFlow then s else s.openBlock .mapStart s.here.column).dropCandidate
    return { (s.emit .key).advance 1 with keyAllowed := !s.inFlow }
  else .error .malformed

/-- Read a colon.  If there is a candidate, it was a key; else the key is missing, or marked. -/
def readColon (s : Scan) : Except Fault Scan := do
  let s ←
    match s.candidate with
    | some k => .ok { s.markKey k with candidate := none, keyAllowed := false }
    | none =>
      if s.inFlow then .ok { s with keyAllowed := false }
      else if s.keyAllowed then .ok (s.openBlock .mapStart s.here.column)
      else .error .malformed
  return (s.emit .colon).advance 1

/-- A colon here stands behind a key.  In a flow map the gap behind it may be missing, unless it
follows another colon. -/
def isColon (s : Scan) : Bool :=
  let last := s.queue.getLast?.map (·.sign)
  gapNext (s.rest.drop 1) || (s.flows.head?.any (·.1 == .map) && last != some .colon)

/-- Read a quoted scalar. -/
def readQuotedScalar (s : Scan) : Except Fault Scan := do
  let s ← s.addCandidate
  let (text, rest) ← readQuoted s.here.char s.rest.length (s.rest.drop 1)
  let next := { s with rest, keyAllowed := false }
  return next.push (.bare (.quoted text) s.here.line next.here.line)

/-- Read a plain scalar.  Empty lines behind it count as a comment. -/
def readPlainScalar (s : Scan) : Except Fault Scan := do
  let s ← s.addCandidate
  let run := readPlain s.inFlow s.columns.head? s.rest.length s.here.line ⟨[], false, s.rest⟩
  let spaced := run.after.text.head? == some '\n'
  return { s with rest := run.after.rest, keyAllowed := run.after.broken }.push
    ⟨.plain run.text, s.here.line, run.lastLine, false, spaced⟩

/-- Read the lexeme that starts here. -/
def read (s : Scan) : Except Fault Scan :=
  let c := s.here.char
  let rest := s.rest.drop 1
  if c = endMark then s.readEnd
  else if s.here.column = 0 ∧ isMarker s.rest then s.readMarker
  else if c = '[' then s.readOpening .list .openList
  else if c = '\x7b' then s.readOpening .map .openMap
  else if c = ']' then s.readClosing .closeList
  else if c = '\x7d' then s.readClosing .closeMap
  else if c = ',' then s.readComma
  else if c = '-' ∧ gapNext rest then s.readDash
  else if c = '?' ∧ (s.inFlow ∨ gapNext rest) then s.readKey
  else if c = ':' ∧ s.isColon then s.readColon
  else if c = '\'' ∨ c = '"' then s.readQuotedScalar
  else if startsPlain s.inFlow c rest then s.readPlainScalar
  else .error .malformed

/-- Read on: a comment, or else a lexeme with the blocks that start or end in front of it. -/
def fetch (s : Scan) : Except Fault Scan := do
  let gap := readGap s.inFlow .margin s.rest
  let s := { s with rest := gap.rest, keyAllowed := s.keyAllowed || (gap.broken && !s.inFlow) }
  match gap.comment with
  | some line => return s.push (.bare .comment line line)
  | none =>
    let s ← s.dropStale
    (s.unwind (some s.here.column)).read

end Scan

end IntentGrammar.Yaml
