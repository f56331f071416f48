import IntentGrammar.Search.Align
import IntentGrammar.Phrase

/-!
# Recognising a phrase

A phrase recognises an utterance if its body can be aligned with all of the tokens.  The
`Recognition` reports what the slots captured and what the alignment cost.

Every attempt draws on a `Budget` of steps.  An attempt that needs more is given up and reported
as such, never as an utterance that does not fit; steps stay spent, so that attempts can share a
budget.

`Phrase.get?_captures` says which span a slot is read from.
-/

namespace IntentGrammar

/-- Steps allowed and steps spent so far. -/
structure Budget where
  limit : Nat
  spent : Nat
deriving DecidableEq, Repr

namespace Budget

/-- What is said about a limit that is not positive. -/
def notPositiveMessage : String := "max_steps must be positive"

/-- A fresh budget, if the limit is positive. -/
def ofLimit? (limit : Int) : Option Budget :=
  if 0 < limit then some ⟨limit.toNat, 0⟩ else none

end Budget

/-- An utterance recognised by a phrase. -/
structure Recognition where
  /-- The text that was recognised. -/
  utterance : String
  /-- What each slot captured, as typed. -/
  slots : Table String
  phrase : Phrase
  /-- The alignment: its cost, and the spans the slots were read from. -/
  outcome : Outcome

namespace Recognition

/-- Skipped stopwords and wild tokens: the lower, the more specific. -/
def score (r : Recognition) : Nat × Nat := (r.outcome.skipped, r.outcome.wild)

end Recognition

/-- Why an attempt was given up. -/
inductive AttemptFault where
  /-- The budget was exceeded, with the steps spent, the limit, and the template. -/
  | exhausted (spent limit : Nat) (source : String)
  | foreign (e : NotPattern)

/-- The wording of a fault. -/
def AttemptFault.message : AttemptFault → String
  | .exhausted _ limit source =>
    "Search budget of " ++ toString limit ++ " steps exceeded" ++
      (if source = "" then "" else " while matching " ++ Text.quote source)
  | .foreign e => e.message

namespace Phrase

variable (P : Phrase)

/-- What the slots captured: the tokens of each span as typed, the last span of a name counting. -/
def captures (tokens : List Token) (spans : List Span) : Table String :=
  spans.foldl (fun t s => t.put s.name (Token.render ((tokens.take s.stop).drop s.start))) []

/-- Align the body with all tokens: the outcome if there is one, and the steps taken. -/
def align (U : Utterance) (limit : Option Nat) (spent : Nat) :
    Except Search.Stop (Option Outcome) × Nat :=
  match (U.bodyEnds limit P.body 0).run ⟨spent, ∅⟩ with
  | .ok ends s => (.ok (ends.get? U.size), s.steps)
  | .error e s => (.error e, s.steps)

/-- Try to recognise an utterance, and say what is left of the budget.  The text is reported with
the recognition; without one, the tokens are rendered. -/
def recognise (lexicon : Lexicon) (tokens : List Token) (text : Option String) (budget : Budget) :
    Except AttemptFault (Option Recognition) × Budget :=
  let (result, spent) := P.align ⟨tokens, lexicon⟩ (some budget.limit) budget.spent
  let budget := { budget with spent := spent }
  match result with
  | .error .exhausted => (.error (.exhausted spent budget.limit P.source), budget)
  | .error (.foreign e) => (.error (.foreign e), budget)
  | .ok none => (.ok none, budget)
  | .ok (some o) =>
    let recognition : Recognition :=
      ⟨text.getD (Token.render tokens), captures tokens o.spans, P, o⟩
    (.ok (some recognition), budget)

end Phrase

/-! ### What slots capture -/

/-- The tokens of a span, as typed. -/
def Span.text (tokens : List Token) (x : Span) : String :=
  Token.render ((tokens.take x.stop).drop x.start)

/-- The last span that was recorded under a name. -/
def lastSpan? (name : String) (spans : List Span) : Option Span :=
  spans.reverse.find? (·.name == name)

namespace Phrase

variable (tokens : List Token) (spans : List Span)

/-- A name stands for the last span that was recorded under it. -/
theorem get?_captures (name : String) :
    (captures tokens spans).get? name = (lastSpan? name spans).map (Span.text tokens) := by
  suffices h : ∀ t : Table String,
      Table.get? (spans.foldl (fun t s => t.put s.name (Span.text tokens s)) t) name =
        ((lastSpan? name spans).map (Span.text tokens)).or (t.get? name) from
    (h []).trans Option.or_none
  induction spans with
  | nil => simp [lastSpan?]
  | cons x spans ih =>
    intro t
    rw [List.foldl_cons, ih, Table.get?_put, lastSpan?, lastSpan?, List.reverse_cons,
      List.find?_append]
    by_cases hx : x.name = name <;> cases spans.reverse.find? (·.name == name) <;> simp [hx]

/-- Which names there are, and in which order, depends on the names of the spans alone. -/
theorem names_captures :
    (captures tokens spans).names =
      (spans.map (·.name)).foldl (fun ns n => if n ∈ ns then ns else ns ++ [n]) [] := by
  suffices h : ∀ t : Table String,
      Table.names (spans.foldl (fun t s => t.put s.name (Span.text tokens s)) t) =
        (spans.map (·.name)).foldl (fun ns n => if n ∈ ns then ns else ns ++ [n]) t.names from h []
  induction spans with
  | nil => intro t; rfl
  | cons x spans ih =>
    intro t
    rw [List.foldl_cons, ih, Table.names_put, List.map_cons, List.foldl_cons]

end Phrase

end IntentGrammar
