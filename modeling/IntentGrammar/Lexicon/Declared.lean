import IntentGrammar.Lexicon
import IntentGrammar.Problem
import IntentGrammar.Value
import IntentGrammar.Text.Blank

/-!
# Declared lexicons

A lexicon is declared by data: its language, its stopwords and its aliases, listed by canonical
word.  All parts may be missing.  Whatever has elements will do for a listing: the characters of
a text and the keys of a map count as elements, and what is no text is taken by its notation.

A part without elements breaks the declaration off; other problems are gathered and reported
together.
-/

namespace IntentGrammar

namespace Lexicon

/-- Why a declaration is refused. -/
inductive Fault where
  /-- Something has no elements, or cannot serve as a key. -/
  | unusable
  | invalid (problems : List Problem)
  /-- No lexicon is known for a language. -/
  | unknownLanguage (language : String)
  /-- The name of a language is too long for the name of a file. -/
  | longName

/-- What is said about a declaration that is refused, if it says anything. -/
def Fault.message? : Fault → Option String
  | .unknownLanguage language =>
    some ("No linguistic resource for language " ++ Text.quote language)
  | _ => none

/-- A stopword as it is listed: trimmed, case-folded, and dropped if blank. -/
def readStopword? (v : Value) : Option String :=
  match Text.trim Text.isBlank v.text.toList with
  | [] => none
  | cs => some (Text.foldCase (String.ofList cs))

/-- The stopwords of a declaration. -/
def readStopwords : Value → Except Fault (List String)
  | .null => .ok []
  | v =>
    match v.elements? with
    | none => .error .unusable
    | some vs => .ok (vs.filterMap readStopword?).eraseDups

/-- Store a value under a key of a map, in the place of the old one if there is one. -/
def putEntry (k v : Value) : List (Value × Value) → List (Value × Value)
  | [] => [(k, v)]
  | (k', v') :: rest => if k'.sameKey k then (k', v) :: rest else (k', v') :: putEntry k v rest

/-- A map given as a list of pairs.  Anything with two elements is a pair; other lengths break a
rule, and lists and maps cannot be keys. -/
def ofPairs (entries : List (Value × Value)) :
    List Value → Except Fault (Except Rule (List (Value × Value)))
  | [] => .ok (.ok entries)
  | p :: ps =>
    match p.elements? with
    | none => .error .unusable
    | some [k, v] => if k.canBeKey then ofPairs (putEntry k v entries) ps else .error .unusable
    | some _ => .ok (.error .valueError)

/-- The entries of an alias listing. -/
def readEntries : Value → Except Fault (Except Rule (List (Value × Value)))
  | .null => .ok (.ok [])
  | .map entries => .ok (.ok entries)
  | v =>
    match v.elements? with
    | none => .error .unusable
    | some ps => ofPairs [] ps

/-- The variants listed for one canonical word; a text is a single variant. -/
def readVariants : Value → Except Fault (List String)
  | .string s => .ok [s]
  | v =>
    match v.elements? with
    | none => .error .unusable
    | some vs => .ok (vs.map Value.text)

/-- The aliases of a declaration. -/
def readAliases (v : Value) : Except Fault (Except Rule (Table String)) := do
  match ← readEntries v with
  | .error rule => return .error rule
  | .ok entries =>
    let listing ← entries.mapM fun (k, v) => (readVariants v).map fun vs => (k.text, vs)
    return .ok (flatten listing)

/-- The language of a declaration. -/
def readLanguage : Value → Except Rule String
  | .string s => .ok s
  | _ => .error .stringType

/-- The lexicon that is declared by its three parts. -/
def declare (language stopwords aliases : Value) : Except Fault Lexicon := do
  let language := readLanguage language
  let stopwords ← readStopwords stopwords
  let aliases ← readAliases aliases
  match language, aliases with
  | .ok language, .ok aliases => return ⟨language, stopwords, aliases⟩
  | _, _ =>
    .error (.invalid
      ((Problem.of? "language" language).toList ++ (Problem.of? "aliases" aliases).toList))

/-- The lexicon declared by the fields of a record, for a language unless they name one. -/
def ofRecord (language : String) (fields : List (Value × Value)) : Except Fault Lexicon :=
  declare ((Value.field? "language" fields).getD (.string language))
    ((Value.field? "stopwords" fields).getD .null) ((Value.field? "aliases" fields).getD .null)

end Lexicon

end IntentGrammar
