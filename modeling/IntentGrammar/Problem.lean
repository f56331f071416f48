/-!
# Problems with given data

What is wrong with one field of a record that was given as data: the field, and the rule that its
value breaks.
-/

namespace IntentGrammar

/-- The rule that a value breaks. -/
inductive Rule where
  /-- A text is required. -/
  | stringType
  /-- A text or nothing is required. -/
  | pathType
  /-- The value is made of the right things, but not in the right way. -/
  | valueError
  /-- A whole number is required. -/
  | intType
  /-- A text has to spell a whole number. -/
  | intParsing
  /-- A text that spells a number must not be longer than that. -/
  | intParsingSize
  /-- A number with a fraction is not whole. -/
  | intFromFloat
  /-- A number has to be finite. -/
  | finiteNumber
  /-- A number has to be greater than zero. -/
  | greaterThan
  /-- The record is complete and cannot be changed. -/
  | frozenInstance
deriving DecidableEq, Repr

/-- The short name of a rule. -/
def Rule.code : Rule → String
  | .stringType => "string_type"
  | .pathType => "path_type"
  | .valueError => "value_error"
  | .intType => "int_type"
  | .intParsing => "int_parsing"
  | .intParsingSize => "int_parsing_size"
  | .intFromFloat => "int_from_float"
  | .finiteNumber => "finite_number"
  | .greaterThan => "greater_than"
  | .frozenInstance => "frozen_instance"

/-- A field and the rule that its value breaks. -/
structure Problem where
  field : String
  rule : Rule
deriving DecidableEq, Repr

/-- The problem of a field, if its value could not be read. -/
def Problem.of? {α : Type} (field : String) : Except Rule α → Option Problem
  | .ok _ => none
  | .error rule => some ⟨field, rule⟩

end IntentGrammar
