import IntentGrammar.Proofs.Memory
import Mathlib.Order.Bounds.Defs

/-!
# What an attempt reports

An attempt to recognise an utterance is correct: what it reports is decided by the alignments of the
body with the tokens, and by nothing else.

* `Phrase.recognise_eq` : an attempt within its budget reports what the plain search finds.
* `Phrase.recognises_iff_covers` : an utterance is recognised if and only if the body covers it.
* `Phrase.recognition_cheapest` : the alignment that is reported is by first options and costs no
  more than any other such alignment.
-/

namespace IntentGrammar

/-- What a phrase is like that was built from patterns: the body is a series of the given parts, no
foreign value stands in it, and its labels tell its nodes apart, as they do once it is numbered
(`Pattern.isLabelled_number`). -/
structure Phrase.WellFormed (P : Phrase) (parts : List Pattern) : Prop where
  body_eq : ∃ l, P.body = .series l parts
  isLabelled : P.body.IsLabelled
  firstForeign?_eq : P.body.firstForeign? = none

namespace Phrase

variable {P : Phrase} {parts : List Pattern} {U : Utterance} {text : Option String}
  {budget : Budget}

/-- The parts of a small phrase: `set [color:color]? *`. -/
def settingParts : List Pattern :=
  [.word 1 "set" false,
    .slot 2 "color" (.choice 3 [.word 4 "red" false, .word 5 "blue" false] true) (some "color"),
    .wildcard 6 false]

/-- The phrase with these parts. -/
def setting : Phrase where
  body := .series 0 settingParts
  intent := some "set"
  tags := []
  source := "set [color:color]? *"

/-- An utterance for it, with a stopword in front. -/
def settingUtterance : Utterance := ⟨Token.tokenize "please set red now", .english⟩

theorem wellFormed_setting : setting.WellFormed settingParts where
  body_eq := ⟨0, rfl⟩
  isLabelled := Pattern.isLabelled_of_nodup (by decide)
  firstForeign?_eq := by decide

theorem exists_recognition {result : Except AttemptFault (Option Recognition)} {o : Outcome}
    (h : result.toOption.join.map (·.outcome) = some o) :
    ∃ r, result = .ok (some r) ∧ r.outcome = o := by
  match result with
  | .ok (some r) => exact ⟨r, rfl, Option.some.inj h⟩
  | .ok none | .error _ => cases h

theorem recognise_setting : ∃ r : Recognition,
    (setting.recognise settingUtterance.lexicon settingUtterance.tokens none ⟨100, 0⟩).1 =
      .ok (some r) ∧ r.outcome = ⟨1, 1, [⟨"color", 2, 3⟩]⟩ :=
  exists_recognition (by decide +kernel)

/-- An attempt within its budget reports what the plain search finds for the whole utterance, and
spends the steps of the spots that the body rests on. -/
theorem recognise_eq (h : P.WellFormed parts)
    (hbudget : ¬ Exceeds (P.recognise U.lexicon U.tokens text budget)) :
    P.recognise U.lexicon U.tokens text budget =
      (.ok (((U.plainBodyEnds P.body 0).get? U.size).map (P.report U.tokens text)),
        { budget with
          spent := budget.spent + ∑ v ∈ U.bodyVisits P.body 0, U.spotSteps P.body v }) := by
  obtain ⟨l, hbody⟩ := h.body_eq
  exact recognise_of_not_exceeds hbody
    (align_none h.isLabelled h.firstForeign?_eq hbody budget.spent) hbudget

/-- A recognition reports the entry that the plain search has for the end of the utterance, which is
an alignment of the body. -/
theorem covers_of_recognise (h : P.WellFormed parts) {r : Recognition}
    (hr : (P.recognise U.lexicon U.tokens text budget).1 = .ok (some r)) :
    (U.plainBodyEnds P.body 0).get? U.size = some r.outcome ∧
      r.slots = captures U.tokens r.outcome.spans ∧ U.Covers U.firstOption parts r.outcome := by
  obtain ⟨l, hbody⟩ := h.body_eq
  have heq := hr.symm.trans (congrArg Prod.fst (recognise_eq h (not_exceeds_of_ok hr)))
  obtain ⟨o, ho, rfl⟩ := Option.map_eq_some_iff.1 (Except.ok.inj heq).symm
  refine ⟨ho, rfl, ?_⟩
  rw [hbody] at ho
  exact (Utterance.lists_plainBodyEnds l parts 0).sound (Ends.mem_of_get? ho)

/-- **An utterance is recognised if and only if the body covers it.**  An attempt that keeps within
its budget reports a recognition exactly if some alignment of the body takes or skips all tokens. -/
theorem recognises_iff_covers (h : P.WellFormed parts)
    (hbudget : ¬ Exceeds (P.recognise U.lexicon U.tokens text budget)) :
    ∃ result, (P.recognise U.lexicon U.tokens text budget).1 = .ok result ∧
      (result.isSome ↔ ∃ o, U.Covers anyOption parts o) := by
  obtain ⟨l, hbody⟩ := h.body_eq
  refine ⟨_, congrArg Prod.fst (recognise_eq h hbudget), ?_⟩
  rw [Option.isSome_map, hbody]
  exact Utterance.isSome_get?_plainBodyEnds l parts

theorem covers_setting : ∃ o, settingUtterance.Covers anyOption settingParts o := by
  obtain ⟨r, hr, -⟩ := recognise_setting
  obtain ⟨result, hresult, hiff⟩ :=
    recognises_iff_covers wellFormed_setting (not_exceeds_of_ok hr)
  cases hresult.symm.trans hr
  exact hiff.1 rfl

/-- **The alignment that is reported costs no more than any other.**  It is an alignment by first
options, its cost and its spans are those reported, and no full alignment by first options is
cheaper; without choices its cost is the least of all full alignments. -/
theorem recognition_cheapest (h : P.WellFormed parts) {r : Recognition}
    (hr : (P.recognise U.lexicon U.tokens text budget).1 = .ok (some r)) :
    (∃ o, U.Covers U.firstOption parts o ∧ r.score = (o.skipped, o.wild) ∧
      r.outcome.spans = o.spans ∧ r.slots = captures U.tokens o.spans) ∧
    (∀ o, U.Covers U.firstOption parts o → ¬ toLex (o.skipped, o.wild) < toLex r.score) ∧
    ((∀ l options optional, Pattern.choice l options optional ∉ P.body.nodes) →
      IsLeast {c | ∃ o, U.Covers anyOption parts o ∧ c = toLex (o.skipped, o.wild)}
        (toLex r.score)) := by
  obtain ⟨l, hbody⟩ := h.body_eq
  -- the recognition is the report of the entry for the end of the utterance
  have heq := hr.symm.trans (congrArg Prod.fst (recognise_eq h (not_exceeds_of_ok hr)))
  obtain ⟨o, ho, rfl⟩ := Option.map_eq_some_iff.1 (Except.ok.inj heq).symm
  rw [hbody] at ho
  have hlists := Utterance.lists_plainBodyEnds (U := U) l parts 0
  have hasc := Utterance.ascending_plainBodyEnds (U := U) l parts 0
  have hmem := Ends.mem_of_get? ho
  have hcovers : U.Covers U.firstOption parts o := hlists.sound hmem
  have hleast : ∀ o', U.Covers U.firstOption parts o' → o.cost ≤ o'.cost := fun o' ho' =>
    hlists.cost_le hasc hmem ho'
  refine ⟨⟨o, hcovers, rfl, rfl, rfl⟩, fun o' ho' => not_lt.2 (hleast o' ho'), fun hno => ?_⟩
  have hrule : ∀ p ∈ parts, Utterance.ImpliesOn anyOption U.firstOption p := by
    intro p hp l' options optional hc
    refine absurd ?_ (hno l' options optional)
    rw [hbody]
    exact Pattern.mem_nodes_of_child (by exact hp) hc
  refine ⟨⟨o, hcovers.any, rfl⟩, ?_⟩
  rintro _ ⟨o', ho', rfl⟩
  exact hleast o' (ho'.mono hrule)

/-- One stopword and one wild token is the least that the phrase can do with. -/
theorem setting_cheapest :
    IsLeast {c | ∃ o, settingUtterance.Covers settingUtterance.firstOption settingParts o ∧
      c = toLex (o.skipped, o.wild)} (toLex (1, 1)) := by
  obtain ⟨r, hr, houtcome⟩ := recognise_setting
  obtain ⟨⟨o, ho, hscore, -, -⟩, hleast, -⟩ := recognition_cheapest wellFormed_setting hr
  have hone : r.score = (1, 1) := by rw [Recognition.score, houtcome]
  refine ⟨⟨o, ho, by rw [← hscore, hone]⟩, ?_⟩
  rintro _ ⟨o', ho', rfl⟩
  rw [← hone]
  exact not_lt.1 (hleast o' ho')

end Phrase

end IntentGrammar
