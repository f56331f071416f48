import IntentGrammar.Proofs.Casing
import IntentGrammar.Proofs.Recognition

/-!
# What a search sees of a token

Of a token, a search sees no more than its canonical form and whether it is a stopword: the
`Lexicon.view` of the token.  All rules of a search ask one of three questions, how many tokens
there are, whether a token is read as a word, and how many stopwords follow a position.  So two
utterances that give the same answers (`Utterance.Alike`) are searched in the same way, up to the
steps that are counted and the results that are remembered (`Utterance.ends_congr`).

The texts of the tokens come in only when a slot is read, long after the search.

* `Phrase.recognise_of_view_eq` : **utterances of equal views are recognised in the same way.**
-/

namespace IntentGrammar

/-- What a lexicon tells of a token: what it is read as, and whether it may be skipped. -/
def Lexicon.view (L : Lexicon) (t : Token) : String × Bool :=
  (L.canonical t.folded, L.isStopword t.folded)

namespace Utterance

open Search

/-- The two utterances answer the questions of a search in the same way. -/
structure Alike (U V : Utterance) : Prop where
  size_eq : U.size = V.size
  reads_eq : U.reads = V.reads
  stopRun_eq : U.stopRun = V.stopRun

section

variable {lexicon : Lexicon}

theorem reads_eq_view (tokens : List Token) (pos : Nat) (key : String) :
    reads ⟨tokens, lexicon⟩ pos key =
      (tokens.map lexicon.view)[pos]?.any fun v => v.1 == lexicon.canonical key := by
  have hview : ∀ t : Token, lexicon.equivalent t.folded key =
      ((lexicon.view t).1 == lexicon.canonical key) := by
    intro t
    rw [Bool.eq_iff_iff, Lexicon.equivalent_iff, beq_iff_eq]
    rfl
  simp only [reads, hview, List.getElem?_map, Option.any_map]

theorem stopRun_eq_view (tokens : List Token) (pos : Nat) :
    stopRun ⟨tokens, lexicon⟩ pos =
      (((tokens.map lexicon.view).drop pos).takeWhile (·.2)).length := by
  rw [← List.map_drop, List.takeWhile_map, List.length_map]
  rfl

/-- Utterances whose tokens have the same views are alike. -/
theorem alike_of_view_eq {tokens tokens' : List Token}
    (h : tokens.map lexicon.view = tokens'.map lexicon.view) :
    Alike ⟨tokens, lexicon⟩ ⟨tokens', lexicon⟩ where
  size_eq := by
    have hlength := congrArg List.length h
    rwa [List.length_map, List.length_map] at hlength
  reads_eq := by
    funext pos key
    rw [reads_eq_view, reads_eq_view, h]
  stopRun_eq := by
    funext pos
    rw [stopRun_eq_view, stopRun_eq_view, h]

end

/-! ### The rules -/

variable {U V : Utterance} {limit : Option Nat}

theorem skipStops_congr (h : U.Alike V) : U.skipStops = V.skipStops := by
  have hfrom : U.skipFrom = V.skipFrom := by
    funext pos o es
    simp only [skipFrom, h.stopRun_eq]
  funext frontier
  simp only [skipStops, hfrom]

theorem skipping_congr (h : U.Alike V) : U.skipping limit = V.skipping limit := by
  funext frontier
  simp only [skipping, skipStops_congr h]

theorem advance_congr (h : U.Alike V) (part : Nat → Search Ends) (need rest : Nat)
    (frontier es : Ends) :
    U.advance limit part need rest frontier es = V.advance limit part need rest frontier es := by
  have hextend : U.extend rest = V.extend rest := by
    funext o found es
    simp only [extend, h.size_eq]
  induction frontier generalizing es with
  | nil => rfl
  | cons e frontier ih => simp only [advance, hextend, h.size_eq, ih]

theorem partEnds_congr_of (h : U.Alike V) {parts : List Pattern}
    (hparts : ∀ p ∈ parts, U.ends limit p = V.ends limit p) (outermost first : Bool)
    (frontier : Ends) :
    U.partEnds limit outermost first parts frontier =
      V.partEnds limit outermost first parts frontier := by
  induction parts generalizing first frontier with
  | nil => rw [partEnds, partEnds, skipping_congr h]
  | cons p ps ih =>
    have hadvance : ∀ need rest : Nat,
        U.advance limit (V.ends limit p) need rest =
          V.advance limit (V.ends limit p) need rest := by
      intro need rest
      funext frontier es
      exact advance_congr h _ need rest frontier es
    rw [partEnds_cons, partEnds_cons, skipping_congr h, hparts p List.mem_cons_self, hadvance]
    simp only [ih fun q hq => hparts q (List.mem_cons_of_mem _ hq)]

theorem optionEnds_congr_of {options : List Pattern}
    (hoptions : ∀ p ∈ options, U.ends limit p = V.ends limit p) (start : Nat) (es : Ends) :
    U.optionEnds limit options start es = V.optionEnds limit options start es := by
  induction options generalizing es with
  | nil => rw [optionEnds, optionEnds]
  | cons p ps ih =>
    rw [optionEnds, optionEnds, hoptions p List.mem_cons_self]
    simp only [ih fun q hq => hoptions q (List.mem_cons_of_mem _ hq)]

/-- **Utterances that are alike are searched in the same way**, whatever pattern is searched for,
step by step. -/
theorem ends_congr (h : U.Alike V) (p : Pattern) : U.ends limit p = V.ends limit p := by
  induction p using Pattern.node_induction with
  | word l literal optional =>
    funext start
    rw [ends, ends]
    simp only [wordEnds, h.reads_eq]
  | wildcard l optional =>
    funext start
    rw [ends, ends]
    simp only [wildcardEnds, h.size_eq]
  | choice l options optional ih =>
    funext start
    rw [ends, ends, optionEnds_congr_of ih]
  | series l parts ih =>
    funext start
    rw [ends, ends, partEnds_congr_of h ih]
  | slot l name inner kind ih =>
    funext start
    rw [ends, ends, ih]
  | foreign v =>
    funext start
    rw [ends, ends]

theorem bodyEnds_congr (h : U.Alike V) (p : Pattern) (start : Nat) :
    U.bodyEnds limit p start = V.bodyEnds limit p start := by
  cases p with
  | series l parts => rw [bodyEnds, bodyEnds, partEnds_congr_of h fun p _ => ends_congr h p]
  | _ => exact congrFun (ends_congr h _) start

end Utterance

/-! ### Attempts -/

/-- The two recognitions report one alignment, each with the texts of its own tokens. -/
structure Recognition.Parallel (tokens tokens' : List Token) (r r' : Recognition) : Prop where
  phrase_eq : r.phrase = r'.phrase
  score_eq : r.score = r'.score
  spans_eq : r.outcome.spans = r'.outcome.spans
  names_eq : r.slots.names = r'.slots.names
  slot_eq : ∀ name, r.slots.get? name =
    (lastSpan? name r.outcome.spans).map (Span.text tokens)
  slot_eq' : ∀ name, r'.slots.get? name =
    (lastSpan? name r.outcome.spans).map (Span.text tokens')

namespace Phrase

open Token Utterance

/-- Both attempts are given up for the same reason, both recognise nothing, or both recognise the
same in parallel. -/
inductive SameVerdict (tokens tokens' : List Token) :
    Except AttemptFault (Option Recognition) → Except AttemptFault (Option Recognition) → Prop
  | fault (f : AttemptFault) : SameVerdict tokens tokens' (.error f) (.error f)
  | nothing : SameVerdict tokens tokens' (.ok none) (.ok none)
  | found {r r' : Recognition} : r.Parallel tokens tokens' r' →
      SameVerdict tokens tokens' (.ok (some r)) (.ok (some r'))

/-- Attempts on the two token lists come to the same verdict and leave the same of any budget. -/
def SameAttempts (P : Phrase) (lexicon : Lexicon) (tokens tokens' : List Token) : Prop :=
  ∀ text text' budget,
    SameVerdict tokens tokens' (P.recognise lexicon tokens text budget).1
      (P.recognise lexicon tokens' text' budget).1 ∧
    (P.recognise lexicon tokens text budget).2 = (P.recognise lexicon tokens' text' budget).2

variable {P : Phrase} {lexicon : Lexicon} {tokens tokens' : List Token}

theorem parallel_report (text text' : Option String) (o : Outcome) :
    (P.report tokens text o).Parallel tokens tokens' (P.report tokens' text' o) where
  phrase_eq := rfl
  score_eq := rfl
  spans_eq := rfl
  names_eq := (names_captures tokens o.spans).trans (names_captures tokens' o.spans).symm
  slot_eq := get?_captures tokens o.spans
  slot_eq' := get?_captures tokens' o.spans

theorem sameAttempts_of_view_eq (h : tokens.map lexicon.view = tokens'.map lexicon.view) :
    P.SameAttempts lexicon tokens tokens' := by
  intro text text' budget
  have halike := alike_of_view_eq h
  have halign : P.align ⟨tokens, lexicon⟩ (some budget.limit) budget.spent =
      P.align ⟨tokens', lexicon⟩ (some budget.limit) budget.spent := by
    rw [align, align, bodyEnds_congr halike, halike.size_eq]
  rw [recognise, recognise, halign]
  obtain ⟨result, spent⟩ := P.align ⟨tokens', lexicon⟩ (some budget.limit) budget.spent
  cases result with
  | error stop => cases stop <;> exact ⟨.fault _, rfl⟩
  | ok found =>
    cases found with
    | none => exact ⟨.nothing, rfl⟩
    | some o => exact ⟨.found (parallel_report text text' o), rfl⟩

/-- **Utterances of equal views are recognised in the same way.**  All attempts on them come to the
same verdict and take the same steps.  So it does not matter in which case a text is typed, nor
whether a token is replaced by another one that is read as the same word and is as much a
stopword. -/
theorem recognise_of_view_eq (P : Phrase) (lexicon : Lexicon) :
    (∀ tokens tokens', tokens.map lexicon.view = tokens'.map lexicon.view →
      P.SameAttempts lexicon tokens tokens') ∧
    (∀ utterance utterance', Text.foldCase utterance = Text.foldCase utterance' →
      P.SameAttempts lexicon (tokenize utterance) (tokenize utterance')) ∧
    ∀ (before after : List Token) (t t' : Token),
      lexicon.canonical t.folded = lexicon.canonical t'.folded →
      lexicon.isStopword t.folded = lexicon.isStopword t'.folded →
      P.SameAttempts lexicon (before ++ t :: after) (before ++ t' :: after) := by
  refine ⟨fun tokens tokens' => sameAttempts_of_view_eq, ?_, ?_⟩
  · intro utterance utterance' hfold
    refine sameAttempts_of_view_eq ?_
    have hwords : (tokenize utterance).map (·.folded) = (tokenize utterance').map (·.folded) := by
      rw [folded_tokenize, folded_tokenize, hfold]
    have hviews := congrArg (List.map fun w => (lexicon.canonical w, lexicon.isStopword w)) hwords
    rwa [List.map_map, List.map_map] at hviews
  · intro before after t t' hcanonical hstop
    refine sameAttempts_of_view_eq ?_
    rw [List.map_append, List.map_append, List.map_cons, List.map_cons, Lexicon.view,
      Lexicon.view, hcanonical, hstop]

/-- Typed in capitals and with an alias, the color is still found, and shown as typed. -/
theorem setting_parallel :
    setting.SameAttempts .english (tokenize "set red light") (tokenize "Set RED, light") ∧
    setting.SameAttempts .english ([ofTyped "set"] ++ ofTyped "light" :: [])
      ([ofTyped "set"] ++ ofTyped "lite" :: []) ∧
    ∃ r r', (setting.recognise .english (tokenize "set red light") none ⟨100, 0⟩).1 =
        .ok (some r) ∧
      (setting.recognise .english (tokenize "SET Red lite!") none ⟨100, 0⟩).1 = .ok (some r') ∧
      r.score = r'.score ∧ r.slots.get? "color" = some "red" ∧
      r'.slots.get? "color" = some "Red" := by
  refine ⟨?_, (recognise_of_view_eq setting .english).2.2 _ _ _ _ (by decide +kernel)
    (by decide +kernel), ?_⟩
  · have hsame := (recognise_of_view_eq setting .english).2.1 "set red light" "Set RED light"
      (by decide +kernel)
    rwa [show tokenize "Set RED, light" = tokenize "Set RED light" by decide +kernel]
  obtain ⟨r, hr, houtcome⟩ : ∃ r : Recognition,
      (setting.recognise .english (tokenize "set red light") none ⟨100, 0⟩).1 = .ok (some r) ∧
        r.outcome = ⟨0, 1, [⟨"color", 1, 2⟩]⟩ := exists_recognition (by decide +kernel)
  have hsame := ((recognise_of_view_eq setting .english).1 (tokenize "set red light")
    (tokenize "SET Red lite!") (by decide +kernel) none none ⟨100, 0⟩).1
  rw [hr] at hsame
  generalize (setting.recognise .english (tokenize "SET Red lite!") none ⟨100, 0⟩).1 = result
    at hsame ⊢
  cases hsame with
  | found h =>
    refine ⟨r, _, hr, rfl, h.score_eq, ?_, ?_⟩
    · rw [h.slot_eq, houtcome]
      decide +kernel
    · rw [h.slot_eq', houtcome]
      decide +kernel

end Phrase

end IntentGrammar
