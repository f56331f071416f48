/-!
# Lexemes of a YAML text

A text is cut into lexemes: indicators, brackets, plain or quoted scalars, and comments.  Where
blocks start and end is told by columns, and lexemes of their own say so.

Lexemes also know which comments go with them.
-/

namespace IntentGrammar.Yaml

/-- What a lexeme is. -/
inductive Sign where
  | documentStart
  | documentEnd
  | textEnd
  | listStart
  | mapStart
  | blockEnd
  /-- The dash of a block list. -/
  | dash
  | key
  /-- The colon between a key and its value. -/
  | colon
  | comma
  | openList
  | closeList
  | openMap
  | closeMap
  | plain (text : List Char)
  | quoted (text : List Char)
  /-- A comment or empty lines. -/
  | comment
deriving DecidableEq, Repr

namespace Sign

/-- The lexeme is a scalar. -/
def isScalar : Sign → Bool
  | .plain _ | .quoted _ => true
  | _ => false

/-- A comment behind the lexeme, on the same line, goes with it. -/
def holdsComment : Sign → Bool
  | .colon | .closeList | .closeMap => true
  | s => s.isScalar

end Sign

/-- A sign with the lines that it stands on, and the comments that go with it. -/
structure Lexeme where
  sign : Sign
  firstLine : Nat
  lastLine : Nat
  /-- There are comments in front of it. -/
  before : Bool
  /-- There is a comment behind it. -/
  behind : Bool
deriving DecidableEq, Repr

namespace Lexeme

/-- A lexeme without comments. -/
def bare (sign : Sign) (firstLine lastLine : Nat) : Lexeme :=
  ⟨sign, firstLine, lastLine, false, false⟩

/-- The comment `c` right behind the lexeme goes with it: comments on the same line do, and behind
a scalar any comment does. -/
def holds (l c : Lexeme) : Bool :=
  c.sign == .comment && (l.sign.isScalar || (l.sign.holdsComment && l.lastLine == c.firstLine))

/-- Hand the comments of one lexeme over to another.  There is one place for those in front of it,
and one for that behind it; `none` if one of them is taken. -/
def handOver? (l target : Lexeme) : Option Lexeme :=
  if (l.before && target.before) || (l.behind && target.behind) then none
  else some { target with
    before := l.before || target.before
    behind := l.behind || target.behind }

end Lexeme

end IntentGrammar.Yaml
