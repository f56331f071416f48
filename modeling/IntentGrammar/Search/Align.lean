import IntentGrammar.Search.Progress
import IntentGrammar.Lexicon
import IntentGrammar.Token

/-!
# Aligning a pattern with an utterance

The search works out, for a node and a start position, every end position that the node can reach
and the cheapest way of reaching it.  A series takes its parts one after the other and carries a
frontier of positions along; between two parts it may skip stopwords, and the body of a phrase may
also skip them before its first part and after its last.  Positions from which the parts that are
left cannot be placed any more are dropped.

A choice is no place for costs: each end belongs to the earliest option that reaches it.

## Main definitions

* `Utterance` : the tokens to be aligned and the lexicon they are read with.
* `Utterance.ends` : the ends of a node at a start position.
* `Utterance.bodyEnds` : the ends of the body of a phrase at a start position.
-/

namespace IntentGrammar

/-- The tokens of an utterance and the lexicon they are read with. -/
structure Utterance where
  tokens : List Token
  lexicon : Lexicon

namespace Utterance

open Search

variable (U : Utterance)

/-- The number of tokens. -/
def size : Nat := U.tokens.length

/-- The token at a position means the same as a word with the given key. -/
def reads (pos : Nat) (key : String) : Bool :=
  U.tokens[pos]?.any fun t => U.lexicon.equivalent t.folded key

/-- The token at a position is a stopword. -/
def isStop (pos : Nat) : Bool :=
  U.tokens[pos]?.any fun t => U.lexicon.isStopword t.folded

/-- The number of stopwords in a row from a position on. -/
def stopRun (pos : Nat) : Nat :=
  ((U.tokens.drop pos).takeWhile fun t => U.lexicon.isStopword t.folded).length

/-! ### Rules for the nodes -/

/-- A word takes one token that it reads, or nothing if it is optional. -/
def wordEnds (literal : String) (optional : Bool) (start : Nat) : Ends :=
  (if optional then [(start, Outcome.free)] else []) ++
    (if U.reads start (Pattern.key literal) then [(start + 1, Outcome.free)] else [])

/-- A wildcard takes one token or more, or nothing if it is optional. -/
def wildcardEnds (optional : Bool) (start : Nat) : Ends :=
  (if optional then [(start, Outcome.free)] else []) ++
    (List.range (U.size - start)).map fun n => (start + (n + 1), Outcome.taking (n + 1))

/-- Offer a position again behind each stopword of the run that follows it. -/
def skipFrom (pos : Nat) (o : Outcome) (es : Ends) : Ends :=
  (List.range (U.stopRun pos + 1)).foldl
    (fun es n => es.offer (pos + n) (o.andThen (.skipping n))) es

/-- Extend every position of a frontier over the stopwords that follow it. -/
def skipStops (frontier : Ends) : Ends :=
  frontier.foldl (fun es e => U.skipFrom e.1 e.2 es) []

/-- Offer the ends of a part behind the outcome that led to its start.  Ends too late to place
`rest` further tokens are dropped. -/
def extend (rest : Nat) (o : Outcome) (found : Ends) (es : Ends) : Ends :=
  found.foldl
    (fun es e => if U.size < e.1 + rest then es else es.offer e.1 (o.andThen e.2)) es

variable (limit : Option Nat)

/-- Skip stopwords, at the cost of a step for every position of the result. -/
def skipping (frontier : Ends) : Search Ends := do
  let es := U.skipStops frontier
  tick limit es.length
  return es

/-- Place one part behind every position of a frontier.  `need` counts the tokens that this part
and the ones behind it take at least, `rest` the tokens that the ones behind it take. -/
def advance (part : Nat → Search Ends) (need rest : Nat) : Ends → Ends → Search Ends
  | [], es => return es
  | (pos, o) :: frontier, es =>
    if U.size < pos + need then advance part need rest frontier es
    else do
      let es := U.extend rest o (← part pos) es
      tick limit (es.length + 1)
      advance part need rest frontier es

/-- A series is refused if a foreign value stands anywhere in it; the last part is looked at
first. -/
def refuseForeign (parts : List Pattern) : Search Unit :=
  match parts.reverse.findSome? Pattern.firstForeign? with
  | some v => throw (.foreign ⟨v⟩)
  | none => return ()

/-! ### The search -/

mutual

/-- The ends of a node at a start position. -/
def ends : Pattern → Nat → Search Ends
  | .word l literal optional, start =>
    remembering limit (l, start) (return U.wordEnds literal optional start)
  | .wildcard l optional, start =>
    remembering limit (l, start) do
      let es := U.wildcardEnds optional start
      tick limit es.length
      return es
  | .choice l options optional, start =>
    remembering limit (l, start) do
      let es ← optionEnds options start []
      return if optional then es.settle start .free else es
  | .series l parts, start =>
    remembering limit (l, start) do
      refuseForeign parts
      partEnds false true parts [(start, .free)]
  | .slot l name inner _, start =>
    remembering limit (l, start) do
      return (← ends inner start).record name start
  | .foreign v, _ => do
    tick limit 1
    throw (.foreign ⟨v⟩)

/-- The ends of several options at a start position, added to those of the earlier ones. -/
def optionEnds : List Pattern → Nat → Ends → Search Ends
  | [], _, es => return es
  | p :: ps, start, es => do
    let found ← ends p start
    optionEnds ps start (found.foldl (fun es e => es.settle e.1 e.2) es)

/-- The ends of the parts of a series from a frontier.  Stopwords are skipped in front of every
part but the first of an inner series, and also at the end of the body. -/
def partEnds (outermost first : Bool) : List Pattern → Ends → Search Ends
  | [], frontier => if outermost then U.skipping limit frontier else return frontier
  | p :: ps, frontier => do
    let frontier ← if outermost || !first then U.skipping limit frontier else pure frontier
    let following ← U.advance limit (fun pos => ends p pos) (Pattern.totalWidth (p :: ps))
      (Pattern.totalWidth ps) frontier []
    if following.isEmpty then return [] else partEnds outermost false ps following

end

/-- The ends of the body of a phrase at a start position. -/
def bodyEnds : Pattern → Nat → Search Ends
  | .series l parts, start =>
    remembering limit (l, start) do
      refuseForeign parts
      U.partEnds limit true true parts [(start, .free)]
  | p, start => U.ends limit p start

end Utterance

end IntentGrammar
