import IntentGrammar.Text.Blank

/-!
# Attached parentheses

A parenthesis attached to a word is shorthand for braces: what follows a character other than a
blank, holds no blank and is closed is read as a fragment.  `braceAttached` replaces the
parentheses and keeps every character in its place.
-/

namespace IntentGrammar.Template

/-- The length of a run without blanks up to a closing parenthesis, if it is not empty. -/
def attachedLength? (cs : List Char) : Option Nat :=
  let run := cs.takeWhile fun c => !Text.isBlank c && c != ')'
  if run.isEmpty then none
  else if (cs.drop run.length).head? == some ')' then some run.length
  else none

/-- Replace attached parentheses by braces, given whether a character other than a blank stands in
front of the text, and how many characters are left up to and with the end of an attached
parenthesis. -/
def braceFrom (solid : Bool) : Nat → List Char → List Char
  | _, [] => []
  | 1, _ :: cs => '\x7d' :: braceFrom true 0 cs
  | left + 2, c :: cs => c :: braceFrom true (left + 1) cs
  | 0, c :: cs =>
    match if solid && c == '(' then attachedLength? cs else none with
    | some n => '\x7b' :: braceFrom true (n + 1) cs
    | none => c :: braceFrom (!Text.isBlank c) 0 cs

/-- Write attached parentheses as braces. -/
def braceAttached (cs : List Char) : List Char := braceFrom false 0 cs

theorem length_braceFrom (solid : Bool) (left : Nat) (cs : List Char) :
    (braceFrom solid left cs).length = cs.length := by
  fun_induction braceFrom solid left cs <;> simp_all

@[simp] theorem length_braceAttached (cs : List Char) :
    (braceAttached cs).length = cs.length := length_braceFrom false 0 cs

end IntentGrammar.Template
