import IntentGrammar.Recognition
import IntentGrammar.Settings
import IntentGrammar.Template.Compile

/-!
# Grammars

A `Grammar` is a list of phrases that are tried together.  Of the phrases that recognise an
utterance the most specific one counts: the one that skipped the fewest stopwords, then the one
that gave the fewest tokens to wildcards, then the one that was added first.
-/

namespace IntentGrammar

/-- Phrases tried together. -/
structure Grammar where
  phrases : List Phrase
  lexicon : Lexicon
  settings : Settings

namespace Recognition

/-- `r` is at least as specific as `s`. -/
def isWithin (r s : Recognition) : Bool := !s.outcome.cheaper r.outcome

end Recognition

namespace Grammar

variable (G : Grammar)

/-- Add a phrase behind the others. -/
def add (P : Phrase) : Grammar := { G with phrases := G.phrases ++ [P] }

/-- Try every phrase on an utterance, each with a budget of its own.  The first phrase that
exceeds its budget breaks the attempts off. -/
def attempts (utterance : String) : Except AttemptFault (List Recognition) :=
  let tokens := Token.tokenize utterance
  let attempt (P : Phrase) : Except AttemptFault (Option Recognition) :=
    (P.recognise G.lexicon tokens (some utterance) ⟨G.settings.maxSteps, 0⟩).1
  (G.phrases.mapM attempt).map (·.filterMap id)

/-- The phrases that recognise an utterance, the most specific first. -/
def ranked (utterance : String) : Except AttemptFault (List Recognition) :=
  (G.attempts utterance).map (·.mergeSort Recognition.isWithin)

/-- The phrase that recognises an utterance best. -/
def best (utterance : String) : Except AttemptFault (Option Recognition) :=
  (G.ranked utterance).map (·.head?)

end Grammar

end IntentGrammar
