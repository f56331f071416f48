import IntentGrammar.Table
import IntentGrammar.Text.Folding

/-!
# Lexicons

A `Lexicon` holds what is known about the words of one language: the stopwords, which an
utterance may contain anywhere without meaning, and the aliases, which read one word as another.
All words in it are case-folded.

A word is looked up once: the canonical form of a word is what the alias table says, also when
that form is itself listed as an alias of a third word.
-/

namespace IntentGrammar

/-- The stopwords and aliases of one language. -/
structure Lexicon where
  language : String
  stopwords : List String
  /-- Variant to canonical word. -/
  aliases : Table String

namespace Lexicon

/-- The lexicon that knows no words. -/
def empty : Lexicon := ⟨"none", [], []⟩

/-- The word may be skipped anywhere. -/
def isStopword (L : Lexicon) (word : String) : Bool := L.stopwords.contains word

/-- The word that `word` is read as. -/
def canonical (L : Lexicon) (word : String) : String := (L.aliases.get? word).getD word

/-- The two words are the same, or are read as the same word. -/
def equivalent (L : Lexicon) (word other : String) : Bool :=
  word == other || L.canonical word == L.canonical other

/-- Turn a listing of variants by canonical word into an alias table.  A variant that is listed
more than once belongs to the canonical word that lists it last. -/
def flatten (listing : List (String × List String)) : Table String :=
  listing.foldl
    (fun t e => e.2.foldl (fun t v => t.put (Text.foldCase v) (Text.foldCase e.1)) t) []

/-- The lexicon of English commands. -/
def english : Lexicon where
  language := "english"
  stopwords := ["a", "an", "the", "please", "uh", "um", "er", "hmm", "just", "kindly"]
  aliases := flatten [
    ("light", ["lite"]), ("lights", ["lites"]), ("okay", ["ok", "k", "okey"]),
    ("tab", ["tap", "tad"]), ("tabs", ["taps"]), ("youtube", ["you-tube", "utube"]),
    ("spotify", ["spotty-fy"]), ("go", ["goto"]), ("to", ["too"]), ("open", ["opened"]),
    ("search", ["surch", "searched"]), ("bookmark", ["book-mark"]), ("read", ["reed"])]

variable {L : Lexicon}

theorem equivalent_iff {word other : String} :
    L.equivalent word other = true ↔ L.canonical word = L.canonical other := by
  simp only [equivalent, Bool.or_eq_true, beq_iff_eq]
  exact ⟨fun h => h.elim (congrArg _) id, .inr⟩

end Lexicon

end IntentGrammar
