import IntentGrammar.Pattern.Label
import IntentGrammar.Table
import IntentGrammar.Token

/-!
# Entity types

An entity type is a named pattern that typed slots refer to, usually the choice between its
surface forms.  All slots of one type share the pattern of the type, labels included.
-/

namespace IntentGrammar

/-- The entity types that templates may refer to. -/
structure Entities where
  table : Table Pattern
  /-- No label from here on is in use. -/
  next : Nat

namespace Entities

/-- Why a declaration of entity types is refused. -/
inductive Fault where
  /-- The surface forms of a type are given as a single text. -/
  | singleText (name : String)
  /-- The surface forms of a type are given as something that has no elements. -/
  | noElements
  | notText (e : NotText)
  /-- A surface form without a single token. -/
  | blankForm (form : String)

/-- No entity types. -/
def none : Entities := ⟨[], 0⟩

/-- The pattern of a surface form: its words in a row. -/
def ofForm (next : Nat) (form : String) : Except Fault (Pattern × Nat) :=
  match (Token.tokenize form).map (Pattern.word 0 ·.typed false) with
  | [] => .error (.blankForm form)
  | [w] => .ok (w.number next)
  | ws => .ok ((Pattern.series 0 ws).number next)

/-- The patterns of several surface forms. -/
def ofForms (next : Nat) : List Value → Except Fault (List Pattern × Nat)
  | [] => .ok ([], next)
  | v :: vs =>
    match v.asText with
    | .error e => .error (.notText e)
    | .ok form =>
      match ofForm next form with
      | .error f => .error f
      | .ok (p, next) => (ofForms next vs).map fun (ps, next) => (p :: ps, next)

/-- Declare a type by its surface forms. -/
def declare (E : Entities) (name : String) (forms : Value) : Except Fault Entities :=
  match forms, forms.elements? with
  | .string _, _ => .error (.singleText name)
  | _, Option.none => .error .noElements
  | _, some forms =>
    (ofForms (E.next + 1) forms).map fun (options, next) =>
      ⟨E.table.put name (.choice E.next options false), next⟩

/-- Declare several types, one after the other. -/
def declareAll (E : Entities) (types : List (String × Value)) : Except Fault Entities :=
  types.foldlM (fun E e => E.declare e.1 e.2) E

/-- Define a type by a pattern of its own. -/
def define (E : Entities) (name : String) (p : Pattern) : Entities :=
  let (p, next) := p.number E.next
  ⟨E.table.put name p, next⟩

/-- What is said about a declaration that is refused, if it says anything. -/
def Fault.message? : Fault → Option String
  | .singleText name =>
    some ("Entity " ++ Text.quote name ++ " must map to a list of strings, got a string")
  | .noElements => Option.none
  | .notText e => some e.message
  | .blankForm form => some ("Empty entity value: " ++ Text.quote form)

end Entities

end IntentGrammar
