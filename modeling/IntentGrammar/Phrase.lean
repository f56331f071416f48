import IntentGrammar.Pattern
import IntentGrammar.Table

/-!
# Phrases

A `Phrase` is a compiled template: the pattern that a whole utterance has to fit, the intent it
stands for, and the tags that are reported with every match.  A tag that was given once is a
text, a tag that was given again collects its texts in a list.
-/

namespace IntentGrammar

/-- The value of a tag. -/
inductive Tag where
  | one (text : String)
  | many (texts : List String)
deriving DecidableEq, Repr

namespace Tag

/-- The texts of a tag, in order. -/
def texts : Tag → List String
  | .one t => [t]
  | .many ts => ts

/-- A tag that has been given once more. -/
def again (t : Tag) (text : String) : Tag := .many (t.texts ++ [text])

/-- The tag as data. -/
def value : Tag → Value
  | .one t => .string t
  | .many ts => .list (ts.map .string)

/-- Give a tag a text, for the first time or again. -/
def give (table : Table Tag) (name text : String) : Table Tag :=
  table.put name
    (match table.get? name with
      | none => .one text
      | some t => t.again text)

/-- The tags of a list of assignments, in the order in which their names first came. -/
def collect (assignments : List (String × String)) : Table Tag :=
  assignments.foldl (fun table e => give table e.1 e.2) []

end Tag

/-- A template made ready for matching. -/
structure Phrase where
  body : Pattern
  intent : Option String
  tags : Table Tag
  /-- The template as written. -/
  source : String

namespace Phrase

variable (P : Phrase)

/-- The names of the slots, in order and each once. -/
def slotNames : List String := P.body.slotNames

/-- The template as written, or the body in the form of a template if there is none. -/
def render : String := if P.source = "" then P.body.render else P.source

end Phrase

end IntentGrammar
