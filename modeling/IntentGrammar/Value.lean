import IntentGrammar.Decimal.Shortest
import IntentGrammar.Moment
import IntentGrammar.Text.Quoted

/-!
# Data values

A `Value` is a piece of data whose shape is not known in advance: what a configuration file or a
caller hands over before it has been checked.  The checks live with the types that are built from
values (`Lexicon`, `Settings`); here are the views they share: the notation of a value in a
message, its plain text, the elements one may iterate over, and the whole number it stands for.
-/

namespace IntentGrammar

/-- Data of a shape not known in advance. -/
inductive Value where
  | null
  | bool (b : Bool)
  | int (n : Int)
  | float (x : Float)
  | string (s : String)
  | moment (m : Moment)
  /-- A sign of a kind of its own: no text, and equal to no other value. -/
  | mark (kind s : String)
  | list (items : List Value)
  /-- Keys with their values, in order; no two keys are equal. -/
  | map (entries : List (Value × Value))
  /-- A list or a map that serves as a key. -/
  | frozen (v : Value)

instance : Inhabited Value := ⟨.null⟩

namespace Value

/-- Floats are written positionally from `0.0001` up to sixteen digits before the point, and with
an exponent of two digits or more elsewhere. -/
def floatLayout : Decimal.Layout := ⟨-3, 16, 2⟩

mutual

/-- The notation of a value in a message. -/
def notated : Value → String
  | .null => "None"
  | .bool b => if b then "True" else "False"
  | .int n => toString n
  | .float x => floatLayout.render x
  | .string s => Text.quote s
  | .moment m => m.notated
  | .mark kind s =>
    "TaggedScalar(value=" ++ Text.quote s ++ ", style=None, tag=Tag('" ++ kind ++ "'))"
  | .list items => "[" ++ ", ".intercalate (notatedItems items) ++ "]"
  | .map entries => "\x7b" ++ ", ".intercalate (notatedEntries entries) ++ "\x7d"
  | .frozen (.list [v]) => "(" ++ v.notated ++ ",)"
  | .frozen (.list items) => "(" ++ ", ".intercalate (notatedItems items) ++ ")"
  | .frozen (.map []) => "ordereddict()"
  | .frozen (.map entries) => "ordereddict([" ++ ", ".intercalate (notatedPairs entries) ++ "])"
  | .frozen v => v.notated

/-- The notations of the items of a list. -/
def notatedItems : List Value → List String
  | [] => []
  | v :: vs => v.notated :: notatedItems vs

/-- The notations of the entries of a map. -/
def notatedEntries : List (Value × Value) → List String
  | [] => []
  | (k, v) :: rest => (k.notated ++ ": " ++ v.notated) :: notatedEntries rest

/-- The notations of the entries of a map that serves as a key. -/
def notatedPairs : List (Value × Value) → List String
  | [] => []
  | (k, v) :: rest => ("(" ++ k.notated ++ ", " ++ v.notated ++ ")") :: notatedPairs rest

end

/-- The plain text of a value: a text, moment or mark as it is written, anything else in its
notation. -/
def text : Value → String
  | .string s => s
  | .mark _ s => s
  | .moment m => m.text
  | v => v.notated

/-- The value counts as empty or absent. -/
def isVacant : Value → Bool
  | .null => true
  | .bool b => !b
  | .int n => n == 0
  | .float x => x == 0.0
  | .string s => s == ""
  | .moment _ | .mark _ _ => false
  | .list items => items.isEmpty
  | .map entries => entries.isEmpty
  | .frozen v => v.isVacant

/-- The elements that the value is made of: the items of a list, the keys of a map, the characters
of a text.  Other values have none to give. -/
def elements? : Value → Option (List Value)
  | .list items => some items
  | .map entries => some (entries.map (·.1))
  | .string s => some (s.toList.map fun c => .string (String.singleton c))
  | .frozen v => v.elements?
  | _ => none

/-- The whole number that a number or truth value is equal to. -/
def whole? : Value → Option Int
  | .bool b => some (if b then 1 else 0)
  | .int n => some n
  | .float x => Decimal.whole? x
  | _ => none

mutual

/-- Equality of two values as keys of a map: texts by their characters, numbers and truth values
by the number they stand for, lists and maps by what they hold.  A mark is like no other. -/
def sameKey : Value → Value → Bool
  | .null, .null => true
  | .string s, .string t => s == t
  | .float x, .float y => x == y
  | .moment m, .moment n => m.same n
  | .list vs, .list ws => sameKeys vs ws
  | .map es, .map fs => es.length == fs.length && sameEntries es fs
  | .frozen v, .frozen w => v.sameKey w
  | v, w =>
    match v.whole?, w.whole? with
    | some m, some n => m == n
    | _, _ => false

/-- Equality of two lists, item by item. -/
def sameKeys : List Value → List Value → Bool
  | [], [] => true
  | v :: vs, w :: ws => v.sameKey w && sameKeys vs ws
  | _, _ => false

/-- Each entry of one map is found in another. -/
def sameEntries : List (Value × Value) → List (Value × Value) → Bool
  | [], _ => true
  | (k, v) :: rest, fs => (fs.any fun f => k.sameKey f.1 && v.sameKey f.2) && sameEntries rest fs

end

/-- Lists and maps cannot be keys of a map, unless they are frozen. -/
def canBeKey : Value → Bool
  | .list _ | .map _ => false
  | _ => true

/-- A value in the form in which it serves as a key: a list or map is frozen, if all that is in it
could be a key. -/
def asKey? : Value → Option Value
  | .list items => if items.all canBeKey then some (.frozen (.list items)) else none
  | .map entries =>
    if entries.all fun (_, v) => v.canBeKey then some (.frozen (.map entries)) else none
  | v => some v

/-- The value stored under a text key. -/
def field? (name : String) (entries : List (Value × Value)) : Option Value :=
  (entries.find? fun (k, _) => k.sameKey (.string name)).map (·.2)

end Value

/-- What was given in place of a text. -/
structure NotText where
  given : Value

/-- The complaint about something that is not a text. -/
def NotText.message (e : NotText) : String :=
  "Bad input: " ++ e.given.notated

/-- The text that a value is, where nothing else will do. -/
def Value.asText : Value → Except NotText String
  | .string s => .ok s
  | v => .error ⟨v⟩

end IntentGrammar
