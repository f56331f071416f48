import IntentGrammar.Proofs.Sharing

/-!
# What a search reports

A search of a phrase asks for the ends of nodes at positions, in some order, and answers from what
it remembers where it can.  `Phrase.Reports` says that one such search reports an end of a node,
whatever it was asked for before and whether or not it has a limit.

* `Phrase.reports_iff` : **what is reported are the ends that the plain search finds**, so every
  end that is reported belongs to an alignment (`Phrase.Reports.takes`).
-/

namespace IntentGrammar

namespace Search

variable {α β : Type} {limit : Nat}

theorem follows_mapM {f g : α → Search β} {xs : List α}
    (h : ∀ x ∈ xs, Follows limit (f x) (g x)) : Follows limit (xs.mapM f) (xs.mapM g) := by
  induction xs with
  | nil => exact follows_pure []
  | cons x xs ih =>
    rw [List.mapM_cons, List.mapM_cons]
    exact follows_bind (h x List.mem_cons_self) fun y =>
      follows_bind (ih fun z hz => h z (List.mem_cons_of_mem _ hz)) fun ys => follows_pure _

/-- What a search within a limit finds, the search without one finds. -/
theorem Follows.run_eq {x y : Search α} (h : Follows limit x y) {s t : Progress}
    (hs : s.steps ≤ limit) {a : α} (hx : x s = .ok a t) : y s = .ok a t := by
  obtain ⟨-, heq⟩ | ⟨t', ht', -⟩ := (h s).2 hs
  · exact heq.symm.trans hx
  · cases ht'.symm.trans hx

end Search

namespace Utterance

open Search

variable {U : Utterance} {limit : Nat}

theorem follows_nodeEnds (body p : Pattern) (start : Nat) :
    Follows limit (U.nodeEnds body (some limit) p start) (U.nodeEnds body none p start) := by
  unfold nodeEnds
  split
  · exact follows_bodyEnds p start
  · exact follows_ends p start

end Utterance

namespace Phrase

open Search

/-- Some search of the phrase, from a fresh start within its limit, was asked for the ends of some
nodes at some positions, one after the other, and reported the end `stop` with the outcome `o` for
the node `q` at `start`. -/
def Reports (P : Phrase) (U : Utterance) (q : Pattern) (start stop : Nat) (o : Outcome) : Prop :=
  ∃ (limit : Option Nat) (spent : Nat) (calls : List (Pattern × Nat)) (found : List Ends)
    (s : Progress) (es : Ends), (∀ n ∈ limit, spent ≤ n) ∧
    (∀ c ∈ calls, c.1 ∈ P.body.nodes ∧ c.2 ≤ U.size) ∧
    (calls.mapM fun c => U.nodeEnds P.body limit c.1 c.2).run ⟨spent, ∅⟩ = .ok found s ∧
    ((q, start), es) ∈ calls.zip found ∧ (stop, o) ∈ es

variable {P : Phrase} {parts : List Pattern} {U : Utterance} {q : Pattern} {start stop : Nat}
  {o : Outcome}

theorem Reports.start_le (ho : P.Reports U q start stop o) : start ≤ U.size := by
  obtain ⟨limit, spent, calls, found, s, es, -, hcalls, -, hes, -⟩ := ho
  exact (hcalls _ (List.of_mem_zip hes).1).2

/-- A search with or without a limit that answers all calls answers them as the plain search. -/
theorem answers_eq (h : P.WellFormed parts) {limit : Option Nat} {spent : Nat}
    (hlimit : ∀ n ∈ limit, spent ≤ n) {calls : List (Pattern × Nat)}
    (hcalls : ∀ c ∈ calls, c.1 ∈ P.body.nodes ∧ c.2 ≤ U.size) {found : List Ends} {s : Progress}
    (hrun : (calls.mapM fun c => U.nodeEnds P.body limit c.1 c.2).run ⟨spent, ∅⟩ = .ok found s) :
    found = calls.map fun c => U.plainNodeEnds P.body c.1 c.2 := by
  have hfree : (calls.mapM fun c => U.nodeEnds P.body none c.1 c.2).run ⟨spent, ∅⟩ =
      .ok found s := by
    cases limit with
    | none => exact hrun
    | some n =>
      exact (follows_mapM fun c _ => Utterance.follows_nodeEnds P.body c.1 c.2).run_eq
        (hlimit n rfl) hrun
  obtain ⟨t, ht⟩ := run_nodeEnds h hcalls spent
  cases hfree.symm.trans ht
  rfl

/-- **What is reported are the ends that the plain search finds.** -/
theorem reports_iff (h : P.WellFormed parts) (hq : q ∈ P.body.nodes) (hstart : start ≤ U.size) :
    P.Reports U q start stop o ↔ (stop, o) ∈ U.plainNodeEnds P.body q start := by
  constructor
  · rintro ⟨limit, spent, calls, found, s, es, hlimit, hcalls, hrun, hes, ho⟩
    rw [answers_eq h hlimit hcalls hrun, ← List.map_prod_left_eq_zip] at hes
    obtain ⟨c, -, heq⟩ := List.mem_map.1 hes
    obtain ⟨rfl, rfl⟩ := Prod.mk.inj heq
    exact ho
  · intro ho
    have hcalls : ∀ c ∈ [(q, start)], c.1 ∈ P.body.nodes ∧ c.2 ≤ U.size :=
      List.forall_mem_singleton.2 ⟨hq, hstart⟩
    obtain ⟨s, hs⟩ := run_nodeEnds h hcalls 0
    exact ⟨none, 0, _, _, s, _, nofun, hcalls, hs, List.mem_singleton.2 rfl, ho⟩

theorem plainNodeEnds_eq (h : P.WellFormed parts) (hq : q ∈ P.body.nodes) (hne : q ≠ P.body) :
    U.plainNodeEnds P.body q start = U.plainEnds q start := by
  obtain ⟨l, hl⟩ :=
    Pattern.exists_label (Pattern.firstForeign?_of_mem_nodes h.firstForeign?_eq hq)
  rw [Utterance.plainNodeEnds, if_neg (mt (Utterance.isBody_iff h.isLabelled hq hl).1 hne)]

/-- An end that is reported for a node below the body belongs to an alignment by first options. -/
theorem Reports.takes (h : P.WellFormed parts) (hq : q ∈ P.body.nodes) (hne : q ≠ P.body)
    (ho : P.Reports U q start stop o) : U.Takes U.firstOption q start stop o := by
  rw [reports_iff h hq ho.start_le, plainNodeEnds_eq h hq hne] at ho
  exact (Utterance.lists_plainEnds q start).sound ho

/-- An end is reported for a node below the body just when the node takes the run up to it. -/
theorem exists_reports_iff (h : P.WellFormed parts) (hq : q ∈ P.body.nodes) (hne : q ≠ P.body)
    (hstart : start ≤ U.size) :
    (∃ o, P.Reports U q start stop o) ↔ ∃ o, U.Takes anyOption q start stop o := by
  constructor
  · rintro ⟨o, ho⟩
    exact ⟨o, (ho.takes h hq hne).any⟩
  · rintro ⟨o, ho⟩
    obtain ⟨o', ho'⟩ := ho.exists_first
    obtain ⟨o'', hmem, -⟩ := (Utterance.lists_plainEnds q start).best ho'
    exact ⟨o'', (reports_iff h hq hstart).2 (by rwa [plainNodeEnds_eq h hq hne])⟩

end Phrase

end IntentGrammar
