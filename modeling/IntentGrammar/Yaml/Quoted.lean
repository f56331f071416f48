import IntentGrammar.Yaml.Scalar
import IntentGrammar.Yaml.Source

/-!
# Quoted scalars

A quoted scalar goes on over line breaks, which are folded together with the margins around them.
Between single quotes a quote is written twice; between double quotes there are escapes.
-/

namespace IntentGrammar.Yaml

/-- The characters of single-letter escapes. -/
def escapes : List (Char × Char) :=
  [('0', '\x00'), ('a', '\x07'), ('b', '\x08'), ('t', '\t'), ('\t', '\t'), ('n', '\n'),
   ('v', '\x0b'), ('f', '\x0c'), ('r', '\r'), ('e', '\x1b'), (' ', ' '), ('"', '"'), ('/', '/'),
   ('\\', '\\'), ('N', '\u0085'), ('_', '\u00a0'), ('L', '\u2028'), ('P', '\u2029')]

/-- How many hexadecimal digits follow the letter of a numeric escape. -/
def escapeWidth? (c : Char) : Option Nat :=
  if c = 'x' then some 2 else if c = 'u' then some 4 else if c = 'U' then some 8 else none

/-- The number that hexadecimal digits spell. -/
def hexNumber? (cs : List Char) : Option Nat :=
  cs.foldlM (fun n c => (digit? c).map (16 * n + ·)) 0

/-- The character with a number. -/
def character (n : Nat) : Except Fault Char :=
  if n.isValidChar then .ok (Char.ofNat n)
  else if 0x10FFFF < n then .error .outOfRange
  else .error .malformed

/-- Read an escape behind its backslash: its text, and what is left.  An escaped line break stands
for nothing, but further breaks are kept. -/
def readEscape : List Cell → Except Fault (List Char × List Cell)
  | [] => .error .malformed
  | c :: rest =>
    match escapes.lookup c.char, escapeWidth? c.char with
    | some e, _ => .ok ([e], rest)
    | none, some width =>
      match hexNumber? ((rest.take width).map (·.char)) with
      | some n =>
        if (rest.take width).length = width then
          (character n).map fun e => ([e], rest.drop width)
        else .error .malformed
      | none => .error .malformed
    | none, none =>
      if isBreak c.char && !isMarker rest then
        match breaks? isMargin rest with
        | (some more, rest) => .ok (more, rest)
        | (none, _) => .error .malformed
      else .error .malformed

/-- Read spaces, tabs and line breaks inside a quoted scalar: the text that they stand for, and
what is left.  Margins around a break are left out. -/
def readMargin (cs : List Cell) : Except Fault (List Char × List Cell) :=
  match cs.dropWhile (isMargin ·.char) with
  | [] => .error .malformed
  | c :: rest =>
    if isBreak c.char then
      match fold? isMargin c.char rest with
      | (some text, rest) => .ok (text, rest)
      | (none, _) => .error .malformed
    else .ok ((cs.takeWhile (isMargin ·.char)).map (·.char), c :: rest)

/-- Read a quoted scalar behind its opening quote: its text, and what is left.  `fuel` bounds the
number of its pieces. -/
def readQuoted (quote : Char) : Nat → List Cell → Except Fault (List Char × List Cell)
  | 0, _ | _, [] => .error .malformed
  | fuel + 1, c :: rest =>
    if c.char = quote then
      if quote = '\'' ∧ rest.head?.map (·.char) = some quote then do
        let (text, rest) ← readQuoted quote fuel (rest.drop 1)
        return (quote :: text, rest)
      else .ok ([], rest)
    else if c.char = endMark then .error .malformed
    else do
      let (piece, rest) ←
        if c.char = '\\' ∧ quote = '"' then readEscape rest
        else if isMargin c.char || isBreak c.char then readMargin (c :: rest)
        else .ok ([c.char], rest)
      let (text, rest) ← readQuoted quote fuel rest
      return (piece ++ text, rest)

end IntentGrammar.Yaml
