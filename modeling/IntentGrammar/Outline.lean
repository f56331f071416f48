import IntentGrammar.Phrase

/-!
# Outlines

An `Outline` is a labelled tree that is drawn with one line per node, branches hanging from
their parent.  `Phrase.describe` draws a phrase this way: its body, then its tags.
-/

namespace IntentGrammar

/-- A labelled tree. -/
inductive Outline where
  | node (label : String) (branches : List Outline)

namespace Outline

/-- Hang lines from their parent: the first from a joint, the others below it. -/
def hang (joint below : String) : List String → List String
  | [] => []
  | l :: ls => (joint ++ l) :: ls.map (below ++ ·)

mutual

/-- The lines of the drawing. -/
def lines : Outline → List String
  | .node label branches => label :: branchLines branches

/-- The lines of the branches below a node. -/
def branchLines : List Outline → List String
  | [] => []
  | [b] => hang "└── " "    " b.lines
  | b :: c :: rest => hang "├── " "│   " b.lines ++ branchLines (c :: rest)

end

/-- The drawing as a text, every line ended. -/
def draw (o : Outline) : String := String.join (o.lines.map (· ++ "\n"))

end Outline

namespace Pattern

/-- What is said of an optional node. -/
def optionalNote (optional : Bool) : String := if optional then " (optional)" else ""

mutual

/-- The outline of a pattern. -/
def outline : Pattern → Outline
  | .word _ literal optional =>
    .node ("Word " ++ Text.quote literal ++ optionalNote optional) []
  | .wildcard _ optional => .node ("Wildcard" ++ optionalNote optional) []
  | .choice _ options optional =>
    .node ("Alternatives" ++ optionalNote optional) (outlines options)
  | .series _ parts => .node "Sequence" (outlines parts)
  | .slot _ name inner kind => .node ("Slot " ++ slotLabel name kind) [inner.outline]
  | .foreign v => .node v.text []

/-- The outlines of several patterns. -/
def outlines : List Pattern → List Outline
  | [] => []
  | p :: ps => p.outline :: outlines ps

end

end Pattern

namespace Phrase

variable (P : Phrase)

/-- The outline of a phrase: its body, then a branch for its tags if it has any. -/
def outline : Outline :=
  let label := match P.intent with
    | none | some "" => "FullPhrase"
    | some intent => "FullPhrase intent=" ++ intent
  let tag (e : String × Tag) : Outline := .node (e.1 ++ " = " ++ e.2.value.notated) []
  .node label
    (P.body.outline :: if P.tags.isEmpty then [] else [.node "parameters" (P.tags.map tag)])

/-- The drawing of a phrase, refused where a foreign value stands in its body. -/
def describe : Except NotPattern String :=
  match P.body.firstForeign? with
  | some v => .error ⟨v⟩
  | none => .ok P.outline.draw

end Phrase

end IntentGrammar
