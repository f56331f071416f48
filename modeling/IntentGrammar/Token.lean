import IntentGrammar.Text.Blank
import IntentGrammar.Text.Folding

/-!
# Tokens of an utterance

An utterance is cut at blanks, and the punctuation around each word is removed; a word of
punctuation alone is dropped.  A `Token` keeps the word as typed beside its case folding: the
folded form is compared, the typed form is shown.
-/

namespace IntentGrammar

/-- One word of an utterance. -/
structure Token where
  /-- The word as typed, without the punctuation around it. -/
  typed : String
  /-- The word as it is compared. -/
  folded : String
deriving DecidableEq, Repr

namespace Token

/-- Punctuation that does not belong to a word it touches. -/
def isEdge (c : Char) : Bool :=
  ".,!?;:\"'\u0060()[]\x7b\x7d“”‘’".toList.contains c

/-- The token of a typed word. -/
def ofTyped (typed : String) : Token := ⟨typed, Text.foldCase typed⟩

/-- The token of a run of characters between blanks, unless it is punctuation alone. -/
def ofRun? (run : List Char) : Option Token :=
  match Text.trim isEdge run with
  | [] => none
  | cs => some (ofTyped (String.ofList cs))

/-- The tokens of an utterance, in order. -/
def tokenize (utterance : String) : List Token :=
  (Text.words Text.isBlank utterance.toList).filterMap ofRun?

theorem eq_ofTyped_of_mem_tokenize {text : String} {t : Token} (h : t ∈ tokenize text) :
    t = ofTyped t.typed := by
  obtain ⟨run, -, hrun⟩ := List.mem_filterMap.1 h
  unfold ofRun? at hrun
  split at hrun
  · cases hrun
  · cases hrun
    rfl

/-- The text of some tokens, as typed. -/
def render (tokens : List Token) : String :=
  " ".intercalate (tokens.map (·.typed))

end Token

end IntentGrammar
