import IntentGrammar.Template.Bracket

/-!
# Lines of a source

A source holds one template per line.  A line break inside brackets does not end a line, blank
lines are dropped, and a line outside all brackets that starts with `#` is a comment: whatever it
contains, brackets included, counts for nothing.

`cut` splits the source into pieces, `lines` trims them and drops the empty ones.
-/

namespace IntentGrammar.Template

/-- Where a scan of a source stands. -/
inductive Scan where
  /-- At the first character of a line, outside all brackets. -/
  | fresh
  /-- In a comment. -/
  | comment
  /-- Behind the first character of a line, with the brackets that are open. -/
  | within (opened : List Opening)

namespace Scan

/-- The open brackets. -/
def opened : Scan → List Opening
  | .within opened => opened
  | .fresh | .comment => []

/-- The next glyph belongs to a comment: one has begun, or spaces and tabs lead up to a `#`. -/
def isComment (gs : List Glyph) : Scan → Bool
  | .comment => true
  | .fresh => ((gs.dropWhile fun g => g.char == ' ' || g.char == '\t').head?.map (·.char)) == some '#'
  | .within _ => false

end Scan

/-- Split a source at the line breaks outside brackets.  Comments leave empty pieces. -/
def cut (at' : Scan) : List Glyph → Except Fault (List (List Char))
  | [] =>
    match at'.opened with
    | [] => .ok [[]]
    | o :: _ => .error ⟨o.pos, .neverClosed o.bracket.opener⟩
  | g :: gs =>
    if g.char = '\n' ∧ at'.opened = [] then (cut .fresh gs).map ([] :: ·)
    else if at'.isComment (g :: gs) then cut .comment gs
    else
      match Opening.step at'.opened g with
      | .error f => .error f
      | .ok opened => (cut (.within opened) gs).map (List.modifyHead (g.char :: ·))

/-- The template in a piece of a source, unless the piece is blank or is commented out. -/
def template? (piece : List Char) : Option String :=
  match Text.trim Text.isBlank piece with
  | [] => none
  | c :: cs => if c = '#' then none else some (String.ofList (c :: cs))

/-- The templates of a source, in order. -/
def lines (source : String) : Except Fault (List String) :=
  (cut .fresh (Glyph.number 0 source.toList)).map (·.filterMap template?)

end IntentGrammar.Template
