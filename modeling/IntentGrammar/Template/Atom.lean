import IntentGrammar.Template.Bracket

/-!
# Word-level items

An `Atom` is what one word of a template stands for: a literal word, a wildcard, or a word with
fragments in braces that may be left out (`page` and `pages` for a word with the fragment `s`).
A question mark at the end makes it optional.

`strands` takes a word apart at its fragments and finds misplaced brackets on the way.
-/

namespace IntentGrammar.Template

/-- A stretch of a word: a character of its own, or a fragment in braces. -/
inductive Strand where
  | plain (c : Char)
  | fragment (cs : List Char)

namespace Strand

/-- The stretch where fragments are left out. -/
def short : Strand → List Char
  | .plain c => [c]
  | .fragment _ => []

/-- The stretch where fragments are kept. -/
def long : Strand → List Char
  | .plain c => [c]
  | .fragment cs => cs

def isFragment : Strand → Bool
  | .plain _ => false
  | .fragment _ => true

end Strand

/-- The stretch between two braces; an empty pair of braces stands for itself. -/
def braced : List Char → List Strand
  | [] => [.plain '\x7b', .plain '\x7d']
  | cs => [.fragment cs]

/-- Take a word apart.  `opened` is the place of an open brace with the characters since. -/
def strands (opened : Option (Nat × List Char)) : List Glyph → Except Fault (List Strand)
  | [] =>
    match opened with
    | none => .ok []
    | some (pos, _) => .error ⟨pos, .unclosed '\x7d'⟩
  | g :: gs =>
    match Bracket.ofOpener? g.char, Bracket.ofCloser? g.char, opened with
    | none, none, none => (strands none gs).map (.plain g.char :: ·)
    | none, none, some (pos, cs) => strands (some (pos, cs ++ [g.char])) gs
    | some .curly, _, none => strands (some (g.pos, [])) gs
    | none, some .curly, some (_, cs) => (strands none gs).map (braced cs ++ ·)
    | some _, _, _ => .error ⟨g.pos, .insideWord g.char⟩
    | none, some _, _ => .error ⟨g.pos, .unmatched g.char⟩

section

variable {g : Glyph} {opened : Option (Nat × List Char)} {b : Bracket} (gs : List Glyph)

theorem strands_plain (hopener : Bracket.ofOpener? g.char = none)
    (hcloser : Bracket.ofCloser? g.char = none) :
    strands none (g :: gs) = (strands none gs).map (.plain g.char :: ·) := by
  simp only [strands, hopener, hcloser]

theorem strands_braced (hopener : Bracket.ofOpener? g.char = none)
    (hcloser : Bracket.ofCloser? g.char = none) (pos : Nat) (cs : List Char) :
    strands (some (pos, cs)) (g :: gs) = strands (some (pos, cs ++ [g.char])) gs := by
  simp only [strands, hopener, hcloser]

theorem strands_open (hopener : Bracket.ofOpener? g.char = some .curly) :
    strands none (g :: gs) = strands (some (g.pos, [])) gs := by
  simp only [strands, hopener]

theorem strands_close (hopener : Bracket.ofOpener? g.char = none)
    (hcloser : Bracket.ofCloser? g.char = some .curly) (pos : Nat) (cs : List Char) :
    strands (some (pos, cs)) (g :: gs) = (strands none gs).map (braced cs ++ ·) := by
  simp only [strands, hopener, hcloser]

theorem strands_opener (hopener : Bracket.ofOpener? g.char = some b)
    (h : opened = none → b ≠ .curly) :
    strands opened (g :: gs) = .error ⟨g.pos, .insideWord g.char⟩ := by
  cases opened with
  | none =>
    have hne := h rfl
    cases b <;> simp_all [strands]
  | some o => simp [strands, hopener]

theorem strands_closer (hopener : Bracket.ofOpener? g.char = none)
    (hcloser : Bracket.ofCloser? g.char = some b) (h : opened.isSome → b ≠ .curly) :
    strands opened (g :: gs) = .error ⟨g.pos, .unmatched g.char⟩ := by
  cases opened with
  | none => simp only [strands, hopener, hcloser]
  | some o =>
    have hne := h rfl
    cases b <;> simp_all [strands]

end

/-- What one word of a template stands for. -/
inductive Atom where
  | word (literal : String) (optional : Bool)
  | wildcard (optional : Bool)
  /-- A word with and without its fragments. -/
  | variants (short long : String) (optional : Bool)
deriving DecidableEq, Repr

namespace Atom

/-- The atom of a word that has been taken apart.  A word made of fragments alone is optional. -/
def ofStrands (parts : List Strand) (optional : Bool) : Atom :=
  let short := parts.flatMap Strand.short
  let long := parts.flatMap Strand.long
  if parts.any Strand.isFragment then
    match short with
    | [] => .word (String.ofList long) true
    | _ => .variants (String.ofList short) (String.ofList long) optional
  else .word (String.ofList short) optional

/-- The atom of a word, given its first glyph and the others. -/
def read (g : Glyph) (gs : List Glyph) : Except Fault Atom :=
  let word := g :: gs
  let optional := (word.getLast?.map (·.char)) == some '?'
  let stem := if optional then word.dropLast else word
  match Glyph.chars stem with
  | [] => .error ⟨g.pos, .loneQuestionMark⟩
  | ['*'] => .ok (.wildcard optional)
  | _ => (strands none stem).map (ofStrands · optional)

/-- The atoms of several words; an empty one stands for none. -/
def readAll : List (List Glyph) → Except Fault (List Atom)
  | [] => .ok []
  | [] :: words => readAll words
  | (g :: gs) :: words =>
    match read g gs with
    | .error f => .error f
    | .ok a => (readAll words).map (a :: ·)

/-- The atoms of a run of words between blanks. -/
def readRun (gs : List Glyph) : Except Fault (List Atom) :=
  readAll (gs.splitOnP Glyph.isBlank)

end Atom

end IntentGrammar.Template
