import IntentGrammar.Pattern

/-!
# Labels of patterns

Labels tell the nodes of a pattern apart.  `number` gives every node a label of its own, `plain`
forgets the labels, and `IsLabelled` says what a search relies on: nodes of one label are equal.
-/

namespace IntentGrammar.Pattern

/-- The label of a node; a foreign value has none. -/
def label? : Pattern → Option Nat
  | .word l _ _ | .wildcard l _ | .choice l _ _ | .series l _ | .slot l _ _ _ => some l
  | .foreign _ => none

/-- Two nodes of the pattern with the same label are the same node. -/
def IsLabelled (p : Pattern) : Prop :=
  ∀ q ∈ p.nodes, ∀ r ∈ p.nodes, q.label?.isSome → q.label? = r.label? → q = r

mutual

/-- Label the nodes from `next` on, depth first; the second part is the next free label. -/
def number (next : Nat) : Pattern → Pattern × Nat
  | .word _ literal optional => (.word next literal optional, next + 1)
  | .wildcard _ optional => (.wildcard next optional, next + 1)
  | .choice _ options optional =>
    let (options, free) := numberAll (next + 1) options
    (.choice next options optional, free)
  | .series _ parts =>
    let (parts, free) := numberAll (next + 1) parts
    (.series next parts, free)
  | .slot _ name inner kind =>
    let (inner, free) := number (next + 1) inner
    (.slot next name inner kind, free)
  | .foreign v => (.foreign v, next)

/-- Label the nodes of several patterns. -/
def numberAll (next : Nat) : List Pattern → List Pattern × Nat
  | [] => ([], next)
  | p :: ps =>
    let (p, free) := number next p
    let (ps, free) := numberAll free ps
    (p :: ps, free)

end

mutual

/-- The pattern with all labels forgotten. -/
def plain : Pattern → Pattern
  | .word _ literal optional => .word 0 literal optional
  | .wildcard _ optional => .wildcard 0 optional
  | .choice _ options optional => .choice 0 (plainAll options) optional
  | .series _ parts => .series 0 (plainAll parts)
  | .slot _ name inner kind => .slot 0 name inner.plain kind
  | .foreign v => .foreign v

/-- Several patterns with all labels forgotten. -/
def plainAll : List Pattern → List Pattern
  | [] => []
  | p :: ps => p.plain :: plainAll ps

end

theorem plainAll_eq (ps : List Pattern) : plainAll ps = ps.map plain := by
  induction ps with
  | nil => rfl
  | cons p ps ih => simp [plainAll, ih]

/-- The pattern made optional, under a label of its own.  What can carry a flag gets it set;
anything else becomes the only option of an optional choice. -/
def optionally (label : Nat) : Pattern → Pattern
  | .word _ literal _ => .word label literal true
  | .wildcard _ _ => .wildcard label true
  | .choice _ options _ => .choice label options true
  | p => .choice label [p] true

end IntentGrammar.Pattern
