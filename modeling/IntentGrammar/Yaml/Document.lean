import IntentGrammar.Yaml.Node

/-!
# YAML documents

`Yaml.read` reads the value of a document off its nodes.  No map has two equal keys.  The key `<<`
merges other maps into a map; they count for the keys that it does not have itself, the first ones
before the later ones.
-/

namespace IntentGrammar.Yaml

/-- The node merges maps into the map that it is a key of. -/
def Node.isMerge : Node → Bool
  | .plain text => text == ['<', '<']
  | _ => false

/-- The node is a map. -/
def Node.isMap : Node → Bool
  | .map _ => true
  | _ => false

/-- The entries of a map. -/
abbrev Entries := List (Value × Value)

/-- Add an entry to a map.  The key has to be one that can be a key, and a new one. -/
def Entries.add (entries : Entries) (k v : Value) : Except Fault Entries :=
  match k.asKey? with
  | none => .error .unusableKey
  | some k =>
    if entries.any (·.1.sameKey k) then .error .malformed else .ok (entries ++ [(k, v)])

/-- Add the entries of further maps for the keys that are not there yet. -/
def Entries.merge (entries : Entries) (others : List Entries) : Entries :=
  others.flatten.foldl
    (fun entries (k, v) =>
      if entries.any (·.1.sameKey k) then entries else entries ++ [(k, v)])
    entries

/-- The entries of a value, if it is a map. -/
def entriesOf : Value → Entries
  | .map entries => entries
  | _ => []

mutual

/-- The value of a node. -/
def Node.value : Node → Except Fault Value
  | .plain text => resolve text
  | .quoted text => .ok (.string (String.ofList text))
  | .list items => do return .list (← itemValues items)
  | .map entries => do
    let merged ← mergedMaps [] entries
    let own ← ownEntries [] entries
    return .map (own.merge merged)

/-- The values of the items of a list. -/
def itemValues : List Node → Except Fault (List Value)
  | [] => .ok []
  | n :: ns => do
    let v ← n.value
    return v :: (← itemValues ns)

/-- The maps of a list of nodes that is merged; nothing else can be. -/
def mapValues : List Node → Except Fault (List Entries)
  | [] => .ok []
  | n :: ns =>
    if n.isMap then do
      let v ← n.value
      return entriesOf v :: (← mapValues ns)
    else .error .malformed

/-- The maps that are merged into a map.  Two keys that merge are two equal keys, unless the first
one merges nothing. -/
def mergedMaps (found : List Entries) : List (Node × Node) → Except Fault (List Entries)
  | [] => .ok found
  | (k, v) :: rest =>
    if k.isMerge then
      if !found.isEmpty then .error .malformed
      else
        match v with
        | .map entries => do
          let v ← (Node.map entries).value
          mergedMaps [entriesOf v] rest
        | .list items => do mergedMaps (← mapValues items) rest
        | _ => .error .malformed
    else mergedMaps found rest

/-- The entries that a map has itself.  The key `=` is a text. -/
def ownEntries (entries : Entries) : List (Node × Node) → Except Fault Entries
  | [] => .ok entries
  | (k, v) :: rest =>
    if k.isMerge then ownEntries entries rest
    else do
      let key ← k.value
      let v ← v.value
      let key := match key with
        | .mark _ s => .string s
        | key => key
      ownEntries (← entries.add key v) rest

end

/-- The value of the only document of a text; without one it is nothing. -/
def read (text : String) : Except Fault Value := do
  match ← Node.ofText text with
  | none => return .null
  | some node => node.value

end IntentGrammar.Yaml
