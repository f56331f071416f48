import IntentGrammar.Proofs.Pruning
import Mathlib.Data.Finset.Union
import Mathlib.Data.Finset.Basic

/-!
# Spots and steps of a search

A search works a spot out once and remembers it.  `Utterance.visits` is the set of the spots that
the ends of a pattern at a start position rest on, and `Utterance.nodeSteps` the steps that are
taken for a single spot, those for the spots below it not counted.  Neither refers to what a search
remembers; together they give the steps of a whole search.

`Utterance.nodeEnds`, `Utterance.plainNodeEnds` and `Utterance.nodeVisits` are the search, the plain
search and the visits of any node of a phrase: the body is the node that skips stopwords at its
edges.
-/

namespace IntentGrammar

namespace Utterance

open Ends Search

variable (U : Utterance)

mutual

/-- The spots that the ends of a pattern at a start position rest on. -/
def visits : Pattern → Nat → Finset Spot
  | .word l _ _, start | .wildcard l _, start => {(l, start)}
  | .choice l options _, start => insert (l, start) (optionVisits options start)
  | .series l parts, start => insert (l, start) (partVisits false parts [(start, .free)])
  | .slot l _ inner _, start => insert (l, start) (visits inner start)
  | .foreign _, _ => ∅

/-- The spots that the ends of several options rest on. -/
def optionVisits : List Pattern → Nat → Finset Spot
  | [], _ => ∅
  | p :: ps, start => visits p start ∪ optionVisits ps start

/-- The spots that the ends of the parts of a series from a frontier rest on. -/
def partVisits (lead : Bool) : List Pattern → Ends → Finset Spot
  | [], _ => ∅
  | p :: ps, frontier =>
    ((U.viable (Pattern.totalWidth (p :: ps)) (U.led lead frontier)).map
        Prod.fst).toFinset.biUnion (visits p) ∪
      partVisits true ps
        (U.viable (Pattern.totalWidth ps) (behind (U.plainEnds p) (U.led lead frontier)))

end

/-- The spots that the ends of the body of a phrase rest on. -/
def bodyVisits : Pattern → Nat → Finset Spot
  | .series l parts, start => insert (l, start) (U.partVisits true parts [(start, .free)])
  | p, start => U.visits p start

/-- The steps for placing a part behind a frontier, given the ends found so far. -/
def placingSteps (part : Nat → Ends) (rest : Nat) : Ends → Ends → Nat
  | [], _ => 0
  | (pos, o) :: frontier, es =>
    (U.extend rest o (part pos) es).length + 1 +
      placingSteps part rest frontier (U.extend rest o (part pos) es)

/-- The steps for leading a frontier over stopwords. -/
def ledSteps (lead : Bool) (frontier : Ends) : Nat :=
  if lead then (U.skipStops frontier).length else 0

/-- The steps for the parts of a series, those for the parts themselves not counted. -/
def partSteps (outermost lead : Bool) : List Pattern → Ends → Nat
  | [], frontier => U.ledSteps outermost frontier
  | p :: ps, frontier =>
    U.ledSteps lead frontier +
      (U.placingSteps (U.plainEnds p) (Pattern.totalWidth ps)
          (U.viable (Pattern.totalWidth (p :: ps)) (U.led lead frontier)) [] +
        partSteps outermost true ps
          (U.viable (Pattern.totalWidth ps) (behind (U.plainEnds p) (U.led lead frontier))))

/-- The steps for one spot of a node, those for the nodes below it not counted. -/
def nodeSteps (outermost : Bool) : Pattern → Nat → Nat
  | .wildcard _ optional, start => 1 + (U.wildcardEnds optional start).length
  | .series _ parts, start => 1 + U.partSteps outermost outermost parts [(start, .free)]
  | _, _ => 1

/-! ### Any node of a phrase -/

/-- The node of a phrase is the body itself. -/
def isBody (body p : Pattern) : Bool := p.label? == body.label?

/-- The ends of a node of a phrase. -/
def nodeEnds (body : Pattern) (limit : Option Nat) (p : Pattern) (start : Nat) : Search Ends :=
  if isBody body p then U.bodyEnds limit p start else U.ends limit p start

/-- The ends of a node of a phrase, by the plain search. -/
def plainNodeEnds (body p : Pattern) (start : Nat) : Ends :=
  if isBody body p then U.plainBodyEnds p start else U.plainEnds p start

/-- The spots that the ends of a node of a phrase rest on. -/
def nodeVisits (body p : Pattern) (start : Nat) : Finset Spot :=
  if isBody body p then U.bodyVisits p start else U.visits p start

/-- The steps for a spot of a phrase. -/
def spotSteps (body : Pattern) (v : Spot) : Nat :=
  match body.nodes.find? fun p => p.label? == some v.1 with
  | some p => U.nodeSteps (isBody body p) p v.2
  | none => 0

variable {U}

theorem spotSteps_eq {body p : Pattern} (h : body.IsLabelled) (hp : p ∈ body.nodes) {l : Nat}
    (hl : p.label? = some l) (start : Nat) :
    U.spotSteps body (l, start) = U.nodeSteps (isBody body p) p start := by
  have hsome : (body.nodes.find? fun p => p.label? == some l).isSome :=
    List.find?_isSome.2 ⟨p, hp, by simp [hl]⟩
  obtain ⟨q, hq⟩ := Option.isSome_iff_exists.1 hsome
  have hlq : q.label? = some l := by simpa using List.find?_some hq
  have hqp : q = p := h.eq_of_label? (List.mem_of_find?_eq_some hq) hp hlq hl
  simp only [spotSteps, hq, hqp]

theorem mem_nodes_child {body p c : Pattern} (hp : p ∈ body.nodes) (hc : c ∈ p.children) :
    c ∈ body.nodes :=
  Pattern.mem_nodes_trans hp (Pattern.mem_nodes_of_child hc (Pattern.mem_nodes_self c))

theorem isBody_self (body : Pattern) : isBody body body = true := beq_self_eq_true _

theorem isBody_iff {body p : Pattern} (h : body.IsLabelled) (hp : p ∈ body.nodes) {l : Nat}
    (hl : p.label? = some l) : isBody body p = true ↔ p = body := by
  rw [isBody, beq_iff_eq]
  constructor
  · intro hbody
    exact h.eq_of_label? hp (Pattern.mem_nodes_self body) hl (hbody.symm.trans hl)
  · rintro rfl
    rfl

/-- Below the body no node is the body. -/
theorem isBody_child {body p c : Pattern} (h : body.IsLabelled) (hpure : body.firstForeign? = none)
    (hp : p ∈ body.nodes) (hc : c ∈ p.children) : isBody body c = false := by
  have hcb := mem_nodes_child hp hc
  obtain ⟨l, hl⟩ := Pattern.exists_label (Pattern.firstForeign?_of_mem_nodes hpure hcb)
  rw [← Bool.not_eq_true, isBody_iff h hcb hl]
  rintro rfl
  exact Pattern.not_mem_nodes_child hc hp

/-! ### No frontier, no steps -/

theorem viable_nil (n : Nat) : U.viable n [] = [] := rfl

theorem led_nil (lead : Bool) : U.led lead [] = [] := by
  unfold led; split <;> rfl

theorem ledSteps_nil (lead : Bool) : U.ledSteps lead [] = 0 := by
  unfold ledSteps; split <;> rfl

theorem partVisits_nil (lead : Bool) (ps : List Pattern) : U.partVisits lead ps [] = ∅ := by
  induction ps generalizing lead with
  | nil => rw [partVisits]
  | cons p ps ih =>
    rw [partVisits, led_nil, viable_nil, behind_nil, viable_nil, ih]
    rfl

theorem partSteps_nil (outermost lead : Bool) (ps : List Pattern) :
    U.partSteps outermost lead ps [] = 0 := by
  induction ps generalizing lead with
  | nil => rw [partSteps, ledSteps_nil]
  | cons p ps ih =>
    rw [partSteps, led_nil, ledSteps_nil, viable_nil, behind_nil, viable_nil, ih]
    rfl

/-! ### Visited labels -/

theorem exists_of_mem_optionVisits {ps : List Pattern} {start : Nat} {v : Spot}
    (h : v ∈ U.optionVisits ps start) : ∃ p ∈ ps, v ∈ U.visits p start := by
  induction ps with
  | nil => rw [optionVisits] at h; exact absurd h (Finset.notMem_empty v)
  | cons p ps ih =>
    rw [optionVisits, Finset.mem_union] at h
    rcases h with h | h
    · exact ⟨p, List.mem_cons_self, h⟩
    · obtain ⟨q, hq, hv⟩ := ih h
      exact ⟨q, List.mem_cons_of_mem _ hq, hv⟩

theorem exists_of_mem_partVisits {lead : Bool} {ps : List Pattern} {frontier : Ends} {v : Spot}
    (h : v ∈ U.partVisits lead ps frontier) :
    ∃ p ∈ ps, ∃ pos ≤ U.size, v ∈ U.visits p pos := by
  induction ps generalizing lead frontier with
  | nil => rw [partVisits] at h; exact absurd h (Finset.notMem_empty v)
  | cons p ps ih =>
    rw [partVisits, Finset.mem_union, Finset.mem_biUnion] at h
    rcases h with ⟨pos, hpos, hv⟩ | h
    · obtain ⟨e, he, rfl⟩ := List.mem_map.1 (List.mem_toFinset.1 hpos)
      exact ⟨p, List.mem_cons_self, e.1, within_viable _ _ e he, hv⟩
    · obtain ⟨q, hq, hv⟩ := ih h
      exact ⟨q, List.mem_cons_of_mem _ hq, hv⟩

/-- A visited spot is the start of the pattern itself, or is visited from a node right below. -/
theorem mem_visits_cases {p : Pattern} {start : Nat} {v : Spot} (h : v ∈ U.visits p start) :
    (p.label? = some v.1 ∧ v.2 = start) ∨
      ∃ c ∈ p.children, ∃ pos, (start ≤ U.size → pos ≤ U.size) ∧ v ∈ U.visits c pos := by
  cases p with
  | word l literal optional =>
    rw [visits, Finset.mem_singleton] at h
    exact .inl (by rw [h]; exact ⟨rfl, rfl⟩)
  | wildcard l optional =>
    rw [visits, Finset.mem_singleton] at h
    exact .inl (by rw [h]; exact ⟨rfl, rfl⟩)
  | choice l options optional =>
    rw [visits, Finset.mem_insert] at h
    rcases h with rfl | h
    · exact .inl ⟨rfl, rfl⟩
    · obtain ⟨c, hc, hv⟩ := exists_of_mem_optionVisits h
      exact .inr ⟨c, hc, start, id, hv⟩
  | series l parts =>
    rw [visits, Finset.mem_insert] at h
    rcases h with rfl | h
    · exact .inl ⟨rfl, rfl⟩
    · obtain ⟨c, hc, pos, hpos, hv⟩ := exists_of_mem_partVisits h
      exact .inr ⟨c, hc, pos, fun _ => hpos, hv⟩
  | slot l name inner kind =>
    rw [visits, Finset.mem_insert] at h
    rcases h with rfl | h
    · exact .inl ⟨rfl, rfl⟩
    · exact .inr ⟨inner, List.mem_singleton.2 rfl, start, id, h⟩
  | foreign v => rw [visits] at h; exact absurd h (Finset.notMem_empty _)

/-- Every visited spot belongs to a node of the pattern. -/
theorem exists_label_of_mem_visits {p : Pattern} {start : Nat} {v : Spot}
    (h : v ∈ U.visits p start) : ∃ q ∈ p.nodes, q.label? = some v.1 := by
  induction p using Pattern.child_induction generalizing start with
  | step p ih =>
    rcases mem_visits_cases h with ⟨hl, -⟩ | ⟨c, hc, pos, -, hv⟩
    · exact ⟨p, Pattern.mem_nodes_self p, hl⟩
    · obtain ⟨q, hq, hl⟩ := ih c hc hv
      exact ⟨q, Pattern.mem_nodes_of_child hc hq, hl⟩

/-- Every visited spot lies among the tokens, or right behind them. -/
theorem le_size_of_mem_visits {p : Pattern} {start : Nat} (hstart : start ≤ U.size) {v : Spot}
    (h : v ∈ U.visits p start) : v.2 ≤ U.size := by
  induction p using Pattern.child_induction generalizing start with
  | step p ih =>
    rcases mem_visits_cases h with ⟨-, rfl⟩ | ⟨c, hc, pos, hpos, hv⟩
    · exact hstart
    · exact ih c hc (hpos hstart) hv

theorem le_size_of_mem_bodyVisits {l : Nat} {parts : List Pattern} {start : Nat}
    (hstart : start ≤ U.size) {v : Spot} (h : v ∈ U.bodyVisits (.series l parts) start) :
    v.2 ≤ U.size := by
  rw [bodyVisits, Finset.mem_insert] at h
  rcases h with rfl | h
  · exact hstart
  · obtain ⟨p, hp, pos, hpos, hv⟩ := exists_of_mem_partVisits h
    exact le_size_of_mem_visits hpos hv

theorem exists_label_of_mem_bodyVisits {l : Nat} {parts : List Pattern} {start : Nat} {v : Spot}
    (h : v ∈ U.bodyVisits (.series l parts) start) :
    ∃ q ∈ (Pattern.series l parts).nodes, q.label? = some v.1 := by
  rw [bodyVisits, Finset.mem_insert] at h
  rcases h with rfl | h
  · exact ⟨_, Pattern.mem_nodes_self _, rfl⟩
  · obtain ⟨p, hp, pos, -, hv⟩ := exists_of_mem_partVisits h
    obtain ⟨q, hq, hl⟩ := exists_label_of_mem_visits hv
    exact ⟨q, Pattern.mem_nodes_of_child (by exact hp) hq, hl⟩

/-- No spot of a node is visited from below the node. -/
theorem not_mem_visits_child {body p c : Pattern} (h : body.IsLabelled) (hp : p ∈ body.nodes)
    (hc : c ∈ p.children) {l : Nat} (hl : p.label? = some l) (start pos : Nat) :
    (l, start) ∉ U.visits c pos := by
  intro hv
  obtain ⟨q, hq, hlq⟩ := exists_label_of_mem_visits hv
  exact h.label?_ne hp hc hq hl hlq

theorem not_mem_partVisits {body p : Pattern} (h : body.IsLabelled) (hp : p ∈ body.nodes)
    {parts : List Pattern} (hchildren : p.children = parts) {l : Nat} (hl : p.label? = some l)
    {lead : Bool} {start : Nat} {frontier : Ends} :
    (l, start) ∉ U.partVisits lead parts frontier := by
  intro hv
  obtain ⟨q, hq, pos, -, hv⟩ := exists_of_mem_partVisits hv
  exact not_mem_visits_child h hp (hchildren ▸ hq) hl start pos hv

end Utterance

end IntentGrammar
