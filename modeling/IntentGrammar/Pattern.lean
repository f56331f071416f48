import IntentGrammar.Value
import IntentGrammar.Text.Folding

/-!
# Patterns

A `Pattern` says which runs of tokens are accepted: a word, any run of tokens, one of several
options, a series of parts, or a named slot around another pattern.  A foreign value stands where
a caller put something that is no pattern; it is only refused once it is reached.

Every node carries a label.  Two nodes of one tree with the same label are the same node, which
several slots of one entity type share; a search remembers its results by label.

## Main definitions

* `Pattern.nodes` : the node and everything below it, depth first.
* `Pattern.minWidth` : the fewest tokens that the pattern takes.
* `Pattern.render` : the pattern as it is written in a template.
-/

namespace IntentGrammar

/-- What a run of tokens may look like. -/
inductive Pattern where
  /-- One token that means the same as `literal`. -/
  | word (label : Nat) (literal : String) (optional : Bool)
  /-- One or more tokens of any kind. -/
  | wildcard (label : Nat) (optional : Bool)
  /-- Exactly one of the options; an earlier one is preferred. -/
  | choice (label : Nat) (options : List Pattern) (optional : Bool)
  /-- All parts one after the other. -/
  | series (label : Nat) (parts : List Pattern)
  /-- What `inner` takes, recorded under `name`; `kind` names the entity type of a typed slot. -/
  | slot (label : Nat) (name : String) (inner : Pattern) (kind : Option String)
  /-- Something that is no pattern. -/
  | foreign (value : Value)

instance : Inhabited Pattern := ⟨.series 0 []⟩

namespace Pattern

/-- The pattern may be left out, by a flag of its own or of the pattern in a slot. -/
def isOptional : Pattern → Bool
  | .word _ _ optional | .wildcard _ optional | .choice _ _ optional => optional
  | .slot _ _ inner _ => inner.isOptional
  | .series _ _ | .foreign _ => false

/-- What a word of a template is compared by. -/
def key (literal : String) : String := Text.foldCase literal

mutual

/-- The node and everything below it, depth first. -/
def nodes : Pattern → List Pattern
  | .choice l options optional => .choice l options optional :: nodesOfAll options
  | .series l parts => .series l parts :: nodesOfAll parts
  | .slot l name inner kind => .slot l name inner kind :: inner.nodes
  | p => [p]

/-- The nodes of several patterns, one pattern after the other. -/
def nodesOfAll : List Pattern → List Pattern
  | [] => []
  | p :: ps => p.nodes ++ nodesOfAll ps

end

/-- The value in place of a pattern, for a foreign node. -/
def foreign? : Pattern → Option Value
  | .foreign v => some v
  | _ => none

/-- The first foreign value at or below a node, depth first. -/
def firstForeign? (p : Pattern) : Option Value := p.nodes.findSome? foreign?

/-- The name that a slot records under. -/
def slotName? : Pattern → Option String
  | .slot _ name _ _ => some name
  | _ => none

/-- The names of the slots, in order and each once. -/
def slotNames (p : Pattern) : List String := (p.nodes.filterMap slotName?).eraseDups

mutual

/-- The fewest tokens that a pattern takes. -/
def minWidth : Pattern → Nat
  | .word _ _ optional | .wildcard _ optional => if optional then 0 else 1
  | .choice _ options optional => if optional then 0 else leastWidth options
  | .series _ parts => totalWidth parts
  | .slot _ _ inner _ => inner.minWidth
  | .foreign _ => 0

/-- The fewest tokens that a series of patterns takes. -/
def totalWidth : List Pattern → Nat
  | [] => 0
  | p :: ps => p.minWidth + totalWidth ps

/-- The fewest tokens that any of the patterns takes. -/
def leastWidth : List Pattern → Nat
  | [] => 0
  | [p] => p.minWidth
  | p :: q :: ps => min p.minWidth (leastWidth (q :: ps))

end

/-- The mark of an optional part. -/
def questionMark (optional : Bool) : String := if optional then "?" else ""

/-- The name of a slot as it is written: with its entity type, if it has one. -/
def slotLabel (name : String) (kind : Option String) : String :=
  match kind with
  | none | some "" => name
  | some k => name ++ ":" ++ k

mutual

/-- The pattern as it is written in a template. -/
def render : Pattern → String
  | .word _ literal optional => literal ++ questionMark optional
  | .wildcard _ optional => "*" ++ questionMark optional
  | .choice _ options optional =>
    "(" ++ " | ".intercalate (renderAll options) ++ (if optional then " |" else "") ++ ")"
  | .series _ parts => " ".intercalate (renderAll parts)
  | .slot _ name inner kind => "[" ++ slotLabel name kind ++ "]" ++ questionMark inner.isOptional
  | .foreign v => v.text

/-- The written forms of several patterns. -/
def renderAll : List Pattern → List String
  | [] => []
  | p :: ps => p.render :: renderAll ps

end

theorem nodesOfAll_eq (ps : List Pattern) : nodesOfAll ps = ps.flatMap nodes := by
  induction ps with
  | nil => rfl
  | cons p ps ih => simp [nodesOfAll, ih]

theorem renderAll_eq (ps : List Pattern) : renderAll ps = ps.map render := by
  induction ps with
  | nil => rfl
  | cons p ps ih => simp [renderAll, ih]

end Pattern

/-- A value that stands where a pattern should. -/
structure NotPattern where
  given : Value

/-- The complaint about a value that stands where a pattern should. -/
def NotPattern.message (e : NotPattern) : String :=
  "Unknown matcher node: " ++ e.given.notated

end IntentGrammar
