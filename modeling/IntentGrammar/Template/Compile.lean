import IntentGrammar.Template.Attached
import IntentGrammar.Template.Item
import IntentGrammar.Template.Lines
import IntentGrammar.Entities
import IntentGrammar.Phrase

/-!
# Compiling templates

A template is compiled in two steps: it is read into items, and the items that match something
are built into patterns; the tag blocks are collected into the tags of the phrase.

Every node built here gets a label that is not in use, so only the patterns of entity types are
shared between slots.
-/

namespace IntentGrammar.Template

namespace Atom

/-- The pattern of an atom, labelled from `next` on. -/
def build (next : Nat) : Atom → Pattern × Nat
  | .word literal optional => (.word next literal optional, next + 1)
  | .wildcard optional => (.wildcard next optional, next + 1)
  | .variants short long optional =>
    (.choice next [.word (next + 1) short false, .word (next + 2) long false] optional, next + 3)

/-- The patterns of several atoms. -/
def buildAll (next : Nat) : List Atom → List Pattern × Nat
  | [] => ([], next)
  | a :: as =>
    let (p, next) := a.build next
    let (ps, next) := buildAll next as
    (p :: ps, next)

/-- The pattern of an option: its only atom, or its atoms in a row. -/
def buildOption (next : Nat) : List Atom → Pattern × Nat
  | [a] => a.build next
  | as =>
    let (ps, free) := buildAll (next + 1) as
    (.series next ps, free)

/-- The patterns of several options. -/
def buildOptions (next : Nat) : List (List Atom) → List Pattern × Nat
  | [] => ([], next)
  | o :: os =>
    let (p, next) := buildOption next o
    let (ps, next) := buildOptions next os
    (p :: ps, next)

end Atom

namespace Item

/-- The pattern of a slot, labelled from `next` on. -/
def buildSlot (next : Nat) (name : String) (optional : Bool) :
    Option (String × Pattern) → Pattern × Nat
  | none => (.slot next name (.wildcard (next + 1) optional) none, next + 2)
  | some (kind, p) =>
    if optional then (.slot next name (p.optionally (next + 1)) (some kind), next + 2)
    else (.slot next name p (some kind), next + 1)

/-- The patterns of several items; tag blocks have none. -/
def buildAll (next : Nat) : List Item → List Pattern × Nat
  | [] => ([], next)
  | .tags _ :: items => buildAll next items
  | .atom a :: items =>
    let (p, next) := a.build next
    let (ps, next) := buildAll next items
    (p :: ps, next)
  | .group options optional :: items =>
    let (options, free) := Atom.buildOptions (next + 1) options
    let (ps, free) := buildAll free items
    (.choice next options optional :: ps, free)
  | .slot name optional entity :: items =>
    let (p, next) := buildSlot next name optional entity
    let (ps, next) := buildAll next items
    (p :: ps, next)

/-- The assignments of an item. -/
def assignments : Item → List (String × String)
  | .tags es => es
  | _ => []

end Item

/-- The items of a template, in order. -/
def items (entities : Entities) (template : String) : Except Fault (List Item) :=
  Item.readAll entities.table (Glyph.number 0 (braceAttached template.toList))

/-- The phrase made of some items. -/
def assemble (entities : Entities) (intent : Option String) (source : String)
    (items : List Item) : Phrase where
  body := .series entities.next (Item.buildAll (entities.next + 1) items).1
  intent := intent
  tags := Tag.collect (items.flatMap Item.assignments)
  source := source

/-- Compile one template. -/
def compile (entities : Entities) (intent : Option String) (template : String) :
    Except Fault Phrase :=
  (items entities template).map (assemble entities intent template)

/-- Compile every template of a source. -/
def compileAll (entities : Entities) (intent : Option String) (source : String) :
    Except Fault (List Phrase) := do
  (← lines source).mapM (compile entities intent)

end IntentGrammar.Template
