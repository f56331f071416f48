import IntentGrammar.Proofs.Recognition
import Mathlib.Algebra.GroupWithZero.Nat

/-!
# Budgets

How an attempt and its budget go together.  `Phrase.steps` counts the steps of the search for an
utterance without a limit.  A budget that has these steps left lets the attempt report what the
search without a limit finds, and pays for them; any other budget is exceeded, and this is reported
as such.

`Attempt.runAll` makes several attempts in turn, which draw on one budget.

* `Phrase.budget_exact` : **a budget decides whether an attempt is given up, and nothing else.**
-/

namespace IntentGrammar

namespace Phrase

variable (P : Phrase) (U : Utterance)

/-- The steps of the search without a limit. -/
def steps : Nat := (P.align U none 0).2

/-- The alignment found by the search without a limit. -/
def found : Option Outcome := (P.align U none 0).1.toOption.join

variable {P U} {parts : List Pattern}

/-- The steps spent before do not change what the search finds, nor the steps it takes. -/
theorem align_none_eq (h : P.WellFormed parts) (spent : Nat) :
    P.align U none spent = (.ok (P.found U), spent + P.steps U) := by
  obtain ⟨l, hbody⟩ := h.body_eq
  have halign := align_none (U := U) h.isLabelled h.firstForeign?_eq hbody
  rw [found, steps, halign 0, halign spent, Nat.zero_add]
  rfl

/-- The search without a limit finds what the plain search finds for the whole utterance. -/
theorem found_eq (h : P.WellFormed parts) :
    P.found U = (U.plainBodyEnds P.body 0).get? U.size := by
  obtain ⟨l, hbody⟩ := h.body_eq
  rw [found, align_none h.isLabelled h.firstForeign?_eq hbody 0]
  rfl

/-- A budget that has the steps left pays for them. -/
theorem recognise_of_steps_le (h : P.WellFormed parts) (budget : Budget)
    (hle : budget.spent + P.steps U ≤ budget.limit) (text : Option String) :
    P.recognise U.lexicon U.tokens text budget =
      (.ok ((P.found U).map (P.report U.tokens text)),
        { budget with spent := budget.spent + P.steps U }) :=
  recognise_of_le (align_none_eq h budget.spent) hle text

/-- A budget that does not have the steps left is exceeded on the way. -/
theorem recognise_of_lt_steps (h : P.WellFormed parts) (budget : Budget)
    (hspent : budget.spent ≤ budget.limit) (hlt : budget.limit < budget.spent + P.steps U)
    (text : Option String) :
    ∃ n, P.recognise U.lexicon U.tokens text budget =
        (.error (.exhausted n budget.limit P.source), { budget with spent := n }) ∧
      budget.limit < n ∧ n ≤ budget.spent + P.steps U := by
  rcases align_some (P := P) (U := U) hspent with ⟨hle, -⟩ | ⟨n, hn, hlimit, hle⟩
  · rw [align_none_eq h] at hle
    exact absurd hlt (Nat.not_lt.2 hle)
  · rw [align_none_eq h] at hle
    refine ⟨n, ?_, hlimit, hle⟩
    simp only [recognise, hn]

end Phrase

/-! ### Attempts that share a budget -/

/-- A phrase, the utterance that it is tried on, and the text that is reported. -/
structure Attempt where
  phrase : Phrase
  utterance : Utterance
  text : Option String

namespace Attempt

variable (a : Attempt)

/-- The phrase was built from patterns. -/
def WellFormed : Prop := ∃ parts, a.phrase.WellFormed parts

/-- Make the attempt. -/
def run (budget : Budget) : Except AttemptFault (Option Recognition) × Budget :=
  a.phrase.recognise a.utterance.lexicon a.utterance.tokens a.text budget

/-- Make several attempts in turn, each with what the earlier ones have left of the budget. -/
def runAll : List Attempt → Budget → List (Except AttemptFault (Option Recognition)) × Budget
  | [], budget => ([], budget)
  | a :: attempts, budget =>
    let (result, budget) := a.run budget
    let (results, budget) := runAll attempts budget
    (result :: results, budget)

/-- The steps of the attempt without a limit. -/
def steps : Nat := a.phrase.steps a.utterance

/-- What is reported without a limit. -/
def verdict : Option Recognition :=
  (a.phrase.found a.utterance).map (a.phrase.report a.utterance.tokens a.text)

theorem run_of_steps_le {a : Attempt} (h : a.WellFormed) (budget : Budget)
    (hle : budget.spent + a.steps ≤ budget.limit) :
    a.run budget = (.ok a.verdict, { budget with spent := budget.spent + a.steps }) := by
  obtain ⟨parts, h⟩ := h
  exact Phrase.recognise_of_steps_le h budget hle a.text

/-- The steps of attempts that share a budget add up. -/
theorem runAll_of_steps_le {attempts : List Attempt} (h : ∀ a ∈ attempts, a.WellFormed)
    (budget : Budget) (hle : budget.spent + (attempts.map steps).sum ≤ budget.limit) :
    runAll attempts budget = (attempts.map fun a => .ok a.verdict,
      { budget with spent := budget.spent + (attempts.map steps).sum }) := by
  induction attempts generalizing budget with
  | nil => rfl
  | cons a attempts ih =>
    have hsum : budget.spent + ((a :: attempts).map steps).sum =
        budget.spent + a.steps + (attempts.map steps).sum := by
      rw [List.map_cons, List.sum_cons, Nat.add_assoc]
    rw [hsum] at hle ⊢
    have hfirst : budget.spent + a.steps ≤ budget.limit :=
      Nat.le_trans (Nat.le_add_right _ _) hle
    -- the other attempts have what the first one leaves of the budget
    have hrest := ih (fun b hb => h b (List.mem_cons_of_mem _ hb))
      { budget with spent := budget.spent + a.steps } hle
    rw [runAll, run_of_steps_le (h a List.mem_cons_self) budget hfirst]
    dsimp only
    rw [hrest]
    rfl

end Attempt

namespace Phrase

variable {P : Phrase} {U : Utterance} {parts : List Pattern}

/-- **A budget decides whether an attempt is given up, and nothing else.**  The search for an
utterance takes a number of steps that depends neither on the limit nor on the steps spent before.
An attempt whose budget has them left reports what the search without a limit finds, and spends
exactly these steps; otherwise it is given up, with the steps spent and the template.  Attempts that
share a budget spend the sum of their steps. -/
theorem budget_exact (h : P.WellFormed parts) :
    ∃ found steps, (∀ spent, P.align U none spent = (.ok found, spent + steps)) ∧
      (∀ text budget, budget.spent ≤ budget.limit →
        (budget.spent + steps ≤ budget.limit →
          P.recognise U.lexicon U.tokens text budget =
            (.ok (found.map (P.report U.tokens text)),
              { budget with spent := budget.spent + steps })) ∧
        (budget.limit < budget.spent + steps →
          ∃ n, P.recognise U.lexicon U.tokens text budget =
              (.error (.exhausted n budget.limit P.source), { budget with spent := n }) ∧
            budget.limit < n ∧ n ≤ budget.spent + steps)) ∧
      ∀ text later budget, (∀ a ∈ later, Attempt.WellFormed a) →
        budget.spent + (steps + (later.map Attempt.steps).sum) ≤ budget.limit →
        Attempt.runAll (⟨P, U, text⟩ :: later) budget =
          (.ok (found.map (P.report U.tokens text)) :: later.map fun a => .ok a.verdict,
            { budget with spent := budget.spent + (steps + (later.map Attempt.steps).sum) }) := by
  refine ⟨P.found U, P.steps U, align_none_eq h, fun text budget hspent => ⟨?_, ?_⟩, ?_⟩
  · exact fun hle => recognise_of_steps_le h budget hle text
  · exact fun hlt => recognise_of_lt_steps h budget hspent hlt text
  · intro text later budget hlater hle
    have hall : ∀ a ∈ (⟨P, U, text⟩ : Attempt) :: later, a.WellFormed := by
      intro a ha
      rcases List.mem_cons.1 ha with rfl | ha
      · exact ⟨parts, h⟩
      · exact hlater a ha
    exact Attempt.runAll_of_steps_le hall budget hle

/-- The small phrase takes 31 steps on its utterance: with one step less it is given up, and two
attempts in turn take twice as many. -/
theorem setting_budget :
    (∃ n, setting.recognise settingUtterance.lexicon settingUtterance.tokens none ⟨30, 0⟩ =
      (.error (.exhausted n 30 setting.source), ⟨30, n⟩) ∧ 30 < n ∧ n ≤ 31) ∧
    (Attempt.runAll [⟨setting, settingUtterance, none⟩, ⟨setting, settingUtterance, none⟩]
      ⟨62, 0⟩).2 = ⟨62, 62⟩ := by
  obtain ⟨found, steps, halign, hsingle, hshared⟩ :=
    budget_exact (U := settingUtterance) wellFormed_setting
  have hsteps : steps = 31 := by
    have heval : (setting.align settingUtterance none 0).2 = 31 := by decide +kernel
    rw [halign, Nat.zero_add] at heval
    exact heval
  have hattempt : Attempt.steps ⟨setting, settingUtterance, none⟩ = 31 := by
    rw [Attempt.steps, Phrase.steps, halign, Nat.zero_add, hsteps]
  subst hsteps
  refine ⟨(hsingle none ⟨30, 0⟩ (by decide)).2 (by decide), ?_⟩
  have hwell : Attempt.WellFormed ⟨setting, settingUtterance, none⟩ :=
    ⟨settingParts, wellFormed_setting⟩
  have hrun := hshared none [⟨setting, settingUtterance, none⟩] ⟨62, 0⟩
    (fun a ha => List.mem_singleton.1 ha ▸ hwell) (by simp [hattempt])
  rw [hrun]
  simp [hattempt]

end Phrase

end IntentGrammar
