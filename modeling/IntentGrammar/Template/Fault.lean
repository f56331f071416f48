import IntentGrammar.Text.Quoted

/-!
# Faults of a template

Why a template, or a source of templates, cannot be read, and where.  `Cause` says what is wrong,
`Cause.kind` puts it into one of seven categories and `Fault.message` words it.
-/

namespace IntentGrammar.Template

/-- Categories of faults. -/
inductive FaultKind where
  /-- A closing bracket without an opening one, or with the wrong one. -/
  | unbalanced
  /-- An opening bracket that is never closed. -/
  | unterminated
  /-- A construct that is not allowed where it stands. -/
  | nested
  | emptySlot
  | noParameters
  | unexpectedText
  | unknownEntity
deriving DecidableEq, Repr

/-- The short name of a category. -/
def FaultKind.code : FaultKind → String
  | .unbalanced => "unbalanced"
  | .unterminated => "unterminated"
  | .nested => "nested"
  | .emptySlot => "empty_slot"
  | .noParameters => "no_parameters"
  | .unexpectedText => "unexpected_text"
  | .unknownEntity => "unknown_entity"

/-- What is wrong with a template. -/
inductive Cause where
  /-- A closing bracket with nothing to close. -/
  | unmatched (closer : Char)
  /-- A closing bracket of another kind than the innermost open one. -/
  | crossed (closer opener : Char)
  /-- A construct whose closing bracket is missing. -/
  | unclosed (closer : Char)
  /-- A bracket that is still open where the source ends. -/
  | neverClosed (opener : Char)
  /-- An opening bracket in the middle of a word. -/
  | insideWord (opener : Char)
  /-- An opening bracket in a construct that may not hold one. -/
  | insideConstruct (inner outer : Char)
  /-- A question mark with no word in front. -/
  | loneQuestionMark
  | unnamedSlot
  /-- A tag block without an assignment. -/
  | noAssignment (block : String)
  /-- Text in front of the first assignment of a tag block. -/
  | strayText (text : String)
  | unknownEntity (name : String)
deriving DecidableEq, Repr

/-- The category of a cause. -/
def Cause.kind : Cause → FaultKind
  | .unmatched _ | .crossed _ _ => .unbalanced
  | .unclosed _ | .neverClosed _ => .unterminated
  | .insideWord _ | .insideConstruct _ _ => .nested
  | .loneQuestionMark | .strayText _ => .unexpectedText
  | .unnamedSlot => .emptySlot
  | .noAssignment _ => .noParameters
  | .unknownEntity _ => .unknownEntity

/-- A character between double quotes. -/
def shown (c : Char) : String := "\"" ++ String.singleton c ++ "\""

/-- The wording of a cause. -/
def Cause.message : Cause → String
  | .unmatched closer => "Unbalanced " ++ shown closer
  | .crossed closer opener =>
    "Got " ++ shown closer ++ " when expecting to close " ++ shown opener
  | .unclosed closer => "Missing " ++ shown closer
  | .neverClosed opener => "Open " ++ shown opener ++ " is never closed"
  | .insideWord opener => "Unexpected " ++ shown opener ++ " inside a word"
  | .insideConstruct inner outer => shown inner ++ " is not allowed inside " ++ shown outer
  | .loneQuestionMark => shown '?' ++ " must follow a word"
  | .unnamedSlot => "Slot has no name"
  | .noAssignment block => "No variables in " ++ Text.quote block
  | .strayText text => "Unexpected text before variable assignment (" ++ Text.quote text ++ ")"
  | .unknownEntity name => "No entity type by the name " ++ Text.quote name

/-- What is wrong with a template, and where. -/
structure Fault where
  position : Nat
  cause : Cause
deriving DecidableEq, Repr

/-- The category of a fault. -/
def Fault.kind (f : Fault) : FaultKind := f.cause.kind

/-- The wording of a fault, with its position. -/
def Fault.message (f : Fault) : String :=
  f.cause.message ++ " (at position " ++ toString f.position ++ ")"

end IntentGrammar.Template
