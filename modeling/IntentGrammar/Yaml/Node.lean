import IntentGrammar.Yaml.Reading

/-!
# Nodes of a YAML document

The lexemes of a document are read into a tree of nodes.  Wherever a key, a value or an item is
missing, an empty plain scalar stands in for it.

Comments leave no trace in the tree.  But in a block they are handed on from indicators to what
comes next, and a document is refused where two of them meet.
-/

namespace IntentGrammar.Yaml

/-- A node: a scalar, a list, or a map as it is written. -/
inductive Node where
  | plain (text : List Char)
  | quoted (text : List Char)
  | list (items : List Node)
  | map (entries : List (Node × Node))

namespace Node

open Reading

/-- The node that stands in for a missing one. -/
def empty : Node := .plain []

/-- In front of this lexeme of a block a key or value is missing. -/
def missingPart : Sign → Bool
  | .key | .colon | .blockEnd => true
  | _ => false

/-- In front of this lexeme of a block an item is missing. -/
def missingItem : Sign → Bool
  | .dash => true
  | s => missingPart s

/-- In front of this lexeme a value inside brackets is missing. -/
def missingFlowValue : Sign → Bool
  | .comma | .closeList | .closeMap => true
  | _ => false

/-- In front of this lexeme a key inside brackets is missing. -/
def missingFlowKey : Sign → Bool
  | .colon => true
  | s => missingFlowValue s

/-- Take the comma between two items or entries inside brackets. -/
def readComma : Reading Unit := do
  match ← peek with
  | .comma => let _ ← take
  | _ => throw .malformed

mutual

/-- Read a node.  The number bounds the steps of a reader, here and below. -/
def read : Nat → Reading Node
  | 0 => throw .malformed
  | fuel + 1 => do
    match ← peek with
    | .plain text => let _ ← take; return .plain text
    | .quoted text => let _ ← take; return .quoted text
    | .openList => let _ ← take; return .list (← flowItems fuel true)
    | .openMap => let _ ← take; return .map (← flowEntries fuel true)
    | .listStart =>
      let _ ← take
      let items ← blockItems fuel
      match ← peek with
      | .blockEnd => let _ ← take; return .list items
      | _ => throw .malformed
    | .mapStart => let _ ← take; return .map (← blockEntries fuel)
    | _ => throw .malformed

/-- Read a node, unless it is missing in front of the next lexeme. -/
def readUnless (missing : Sign → Bool) : Nat → Reading Node
  | 0 => throw .malformed
  | fuel + 1 => do
    if missing (← peek) then return .empty else read fuel

/-- Read the items of a block list as far as there are dashes. -/
def blockItems : Nat → Reading (List Node)
  | 0 => throw .malformed
  | fuel + 1 => do
    match ← peek with
    | .dash =>
      skip
      let item ← readUnless missingItem fuel
      return item :: (← blockItems fuel)
    | _ => return []

/-- Read a key or value of a block map, unless it is missing.  A list may stand in the column of
the keys, and is no block of its own then.  A comment behind the colon goes with such a list, and
so do the comments behind it. -/
def readPart : Nat → Reading Node
  | 0 => throw .malformed
  | fuel + 1 => do
    match ← peek with
    | .dash =>
      modifyFront fun l => { l with behind := false }
      let items ← blockItems fuel
      let _ ← peek
      modifyFront fun l => { l with before := false }
      return .list items
    | _ => readUnless missingPart fuel

/-- Read the value of an entry of a block map.  A comment behind the colon goes with the value, even
if that is missing; it stays with the colon where the next entry has its key marked. -/
def blockValue : Nat → Reading Node
  | 0 => throw .malformed
  | fuel + 1 => do
    match ← peek with
    | .colon =>
      let colon ← take
      let next ← peek
      if next ≠ .key then handOver colon
      if missingPart next then
        if next ≠ .key ∨ !(colon.before || colon.behind) then
          modifyFront fun l => { l with behind := false }
        return .empty
      else readPart fuel
    | _ => return .empty

/-- Read the entries of a block map, to its end. -/
def blockEntries : Nat → Reading (List (Node × Node))
  | 0 => throw .malformed
  | fuel + 1 => do
    match ← peek with
    | .blockEnd => skip; return []
    | .key =>
      skip
      let k ← readPart fuel
      let v ← blockValue fuel
      return (k, v) :: (← blockEntries fuel)
    | .colon =>
      let v ← blockValue fuel
      return (.empty, v) :: (← blockEntries fuel)
    | _ => throw .malformed

/-- Read the value of an entry inside brackets. -/
def flowValue : Nat → Reading Node
  | 0 => throw .malformed
  | fuel + 1 => do
    match ← peek with
    | .colon => let _ ← take; readUnless missingFlowValue fuel
    | _ => return .empty

/-- Read an entry inside brackets whose key is marked. -/
def flowEntry : Nat → Reading (Node × Node)
  | 0 => throw .malformed
  | fuel + 1 => do
    let _ ← take
    let k ← readUnless missingFlowKey fuel
    return (k, ← flowValue fuel)

/-- Read the items of a list inside brackets, to its end.  A key makes a map of one entry. -/
def flowItems : Nat → Bool → Reading (List Node)
  | 0, _ => throw .malformed
  | fuel + 1, isFirst => do
    match ← peek with
    | .closeList => let _ ← take; return []
    | _ =>
      unless isFirst do readComma
      match ← peek with
      | .closeList => let _ ← take; return []
      | .key =>
        let entry ← flowEntry fuel
        return .map [entry] :: (← flowItems fuel false)
      | _ =>
        let item ← read fuel
        return item :: (← flowItems fuel false)

/-- Read the entries of a map inside brackets, to its end.  A key that is not marked as one has no
value. -/
def flowEntries : Nat → Bool → Reading (List (Node × Node))
  | 0, _ => throw .malformed
  | fuel + 1, isFirst => do
    match ← peek with
    | .closeMap => let _ ← take; return []
    | _ =>
      unless isFirst do readComma
      match ← peek with
      | .closeMap => let _ ← take; return []
      | .key =>
        let entry ← flowEntry fuel
        return entry :: (← flowEntries fuel false)
      | .colon =>
        let v ← flowValue fuel
        return (.empty, v) :: (← flowEntries fuel false)
      | _ =>
        let k ← read fuel
        return (k, .empty) :: (← flowEntries fuel false)

end

/-- Read the content of a document behind its marker, which may be missing. -/
def readContent (fuel : Nat) : Reading Node := do
  match ← peek with
  | .documentStart | .documentEnd | .textEnd => return .empty
  | _ => read fuel

/-- Read the only document of a text, if there is one.  A marker may stand in front of it, and
another one behind it. -/
def readDocument (fuel : Nat) : Reading (Option Node) := do
  let node ←
    match ← peek with
    | .textEnd => pure none
    | .documentStart => let _ ← take; some <$> readContent fuel
    | _ => some <$> read fuel
  if (← peek) = .documentEnd then
    let _ ← take
  match ← peek with
  | .textEnd => return node
  | _ => throw .malformed

/-- The only document of a text, if there is one.  Of each character at most a lexeme comes, with
a key and a block that start with it and a block that ends, and each takes a few steps. -/
def ofText (text : String) : Except Fault (Option Node) :=
  match cells? text with
  | none => .error .malformed
  | some cells => (readDocument (32 * cells.length)).run' (.start cells)

end Node

end IntentGrammar.Yaml
