import IntentGrammar.Proofs.Recognition
import Mathlib.Algebra.Order.BigOperators.Group.Finset

/-!
# Shared nodes

Several slots of one entity type share the nodes of the entity, which the labels say.  Sharing is a
matter of speed alone.

`Pattern.relabel f` gives every node the label that `f` names for it.  If `q.relabel f = p`, then
`q` is a copy of `p`, in which some shared nodes were replaced by equal nodes with labels of their
own: `f` names the original of every node.  What a search finds does not depend on the labels
(`Utterance.plainEnds_relabel`), nor do the steps for a spot (`Utterance.spotSteps_relabel`); but
there may be more spots in a copy (`Utterance.bodyVisits_relabel`), and so it may take more steps.

* `Phrase.search_eq_plain` : **the search is the plain search, made faster by sharing.**
-/

namespace IntentGrammar

namespace Pattern

mutual

/-- The pattern with other labels. -/
def relabel (f : Nat → Nat) : Pattern → Pattern
  | .word l literal optional => .word (f l) literal optional
  | .wildcard l optional => .wildcard (f l) optional
  | .choice l options optional => .choice (f l) (relabelAll f options) optional
  | .series l parts => .series (f l) (relabelAll f parts)
  | .slot l name inner kind => .slot (f l) name (relabel f inner) kind
  | .foreign v => .foreign v

/-- Several patterns with other labels. -/
def relabelAll (f : Nat → Nat) : List Pattern → List Pattern
  | [] => []
  | p :: ps => relabel f p :: relabelAll f ps

end

variable (f : Nat → Nat)

theorem relabelAll_eq (ps : List Pattern) : relabelAll f ps = ps.map (relabel f) := by
  induction ps with
  | nil => rfl
  | cons p ps ih => rw [relabelAll, ih, List.map_cons]

theorem label?_relabel {p : Pattern} {l : Nat} (hl : p.label? = some l) :
    (p.relabel f).label? = some (f l) := by
  cases p <;> cases hl <;> rfl

theorem children_relabel (p : Pattern) : (p.relabel f).children = p.children.map (relabel f) := by
  cases p <;> simp [relabel, children, relabelAll_eq]

theorem nodes_relabel (p : Pattern) : (p.relabel f).nodes = p.nodes.map (relabel f) := by
  induction p using child_induction with
  | step p ih =>
    have hchildren : (p.children.map (relabel f)).flatMap nodes =
        (p.children.flatMap nodes).map (relabel f) := by
      rw [List.flatMap_map, List.map_flatMap]
      exact List.flatMap_congr ih
    rw [nodes_eq, nodes_eq p, children_relabel, hchildren, List.map_cons]

theorem mem_nodes_relabel {p q : Pattern} (h : q ∈ p.nodes) :
    q.relabel f ∈ (p.relabel f).nodes := by
  rw [nodes_relabel]
  exact List.mem_map_of_mem h

/-- No node below a pattern becomes equal to the pattern. -/
theorem relabel_ne_of_mem_nodes {p q : Pattern} (h : q ∈ p.nodes) (hne : q ≠ p) :
    q.relabel f ≠ p.relabel f := by
  intro heq
  rcases mem_nodes.1 h with rfl | ⟨c, hc, hq⟩
  · exact hne rfl
  · have hchild : c.relabel f ∈ (p.relabel f).children := by
      rw [children_relabel]
      exact List.mem_map_of_mem hc
    exact not_mem_nodes_child hchild (heq ▸ mem_nodes_relabel f hq)

theorem totalWidth_relabel_of {ps : List Pattern}
    (h : ∀ p ∈ ps, (p.relabel f).minWidth = p.minWidth) :
    totalWidth (ps.map (relabel f)) = totalWidth ps := by
  induction ps with
  | nil => rfl
  | cons p ps ih =>
    rw [List.map_cons, totalWidth, totalWidth, h p List.mem_cons_self,
      ih fun q hq => h q (List.mem_cons_of_mem _ hq)]

theorem leastWidth_relabel_of {ps : List Pattern}
    (h : ∀ p ∈ ps, (p.relabel f).minWidth = p.minWidth) :
    leastWidth (ps.map (relabel f)) = leastWidth ps := by
  induction ps with
  | nil => rfl
  | cons p ps ih =>
    have hp := h p List.mem_cons_self
    have hps := ih fun q hq => h q (List.mem_cons_of_mem _ hq)
    cases ps with
    | nil => exact hp
    | cons q ps =>
      rw [List.map_cons] at hps
      rw [List.map_cons, List.map_cons, leastWidth, leastWidth, hp, hps]

theorem minWidth_relabel (p : Pattern) : (p.relabel f).minWidth = p.minWidth := by
  induction p using node_induction with
  | word l literal optional => rfl
  | wildcard l optional => rfl
  | choice l options optional ih =>
    rw [relabel, relabelAll_eq, minWidth, minWidth, leastWidth_relabel_of f ih]
  | series l parts ih =>
    rw [relabel, relabelAll_eq, minWidth, minWidth, totalWidth_relabel_of f ih]
  | slot l name inner kind ih => rw [relabel, minWidth, minWidth, ih]
  | foreign v => rfl

theorem totalWidth_relabel (ps : List Pattern) :
    totalWidth (ps.map (relabel f)) = totalWidth ps :=
  totalWidth_relabel_of f fun p _ => minWidth_relabel f p

end Pattern

namespace Utterance

open Ends Search

variable {U : Utterance} (f : Nat → Nat)

/-! ### What does not depend on labels -/

theorem plainOptionEnds_relabel_of {ps : List Pattern}
    (h : ∀ p ∈ ps, U.plainEnds (p.relabel f) = U.plainEnds p) (start : Nat) (es : Ends) :
    U.plainOptionEnds (ps.map (Pattern.relabel f)) start es = U.plainOptionEnds ps start es := by
  induction ps generalizing es with
  | nil => rfl
  | cons p ps ih =>
    rw [List.map_cons, plainOptionEnds, plainOptionEnds, h p List.mem_cons_self,
      ih fun q hq => h q (List.mem_cons_of_mem _ hq)]

theorem plainPartEnds_relabel_of {ps : List Pattern}
    (h : ∀ p ∈ ps, U.plainEnds (p.relabel f) = U.plainEnds p) (lead : Bool) (frontier : Ends) :
    U.plainPartEnds lead (ps.map (Pattern.relabel f)) frontier =
      U.plainPartEnds lead ps frontier := by
  induction ps generalizing lead frontier with
  | nil => rfl
  | cons p ps ih =>
    rw [List.map_cons, plainPartEnds, plainPartEnds, h p List.mem_cons_self,
      ih fun q hq => h q (List.mem_cons_of_mem _ hq)]

/-- The ends of a pattern do not depend on the labels. -/
theorem plainEnds_relabel (p : Pattern) : U.plainEnds (p.relabel f) = U.plainEnds p := by
  induction p using Pattern.node_induction with
  | word l literal optional => funext start; rw [Pattern.relabel, plainEnds, plainEnds]
  | wildcard l optional => funext start; rw [Pattern.relabel, plainEnds, plainEnds]
  | choice l options optional ih =>
    funext start
    rw [Pattern.relabel, Pattern.relabelAll_eq, plainEnds, plainEnds,
      plainOptionEnds_relabel_of f ih]
  | series l parts ih =>
    funext start
    rw [Pattern.relabel, Pattern.relabelAll_eq, plainEnds, plainEnds,
      plainPartEnds_relabel_of f ih]
  | slot l name inner kind ih =>
    funext start
    rw [Pattern.relabel, plainEnds, plainEnds, ih]
  | foreign v => rfl

theorem plainBodyEnds_relabel (l : Nat) (parts : List Pattern) (start : Nat) :
    U.plainBodyEnds ((Pattern.series l parts).relabel f) start =
      U.plainBodyEnds (.series l parts) start := by
  rw [Pattern.relabel, Pattern.relabelAll_eq, plainBodyEnds, plainBodyEnds,
    plainPartEnds_relabel_of f fun p _ => plainEnds_relabel f p]

theorem partSteps_relabel (outermost lead : Bool) (ps : List Pattern) (frontier : Ends) :
    U.partSteps outermost lead (ps.map (Pattern.relabel f)) frontier =
      U.partSteps outermost lead ps frontier := by
  induction ps generalizing lead frontier with
  | nil => rfl
  | cons p ps ih =>
    have hwidth := Pattern.totalWidth_relabel f (p :: ps)
    rw [List.map_cons] at hwidth
    rw [List.map_cons, partSteps, partSteps, plainEnds_relabel, Pattern.totalWidth_relabel, hwidth,
      ih]

theorem nodeSteps_relabel (outermost : Bool) (p : Pattern) (start : Nat) :
    U.nodeSteps outermost (p.relabel f) start = U.nodeSteps outermost p start := by
  cases p with
  | series l parts =>
    rw [Pattern.relabel, Pattern.relabelAll_eq, nodeSteps, nodeSteps, partSteps_relabel]
  | _ => rfl

/-! ### Spots -/

/-- The spot of the original of a node. -/
def original (v : Spot) : Spot := (f v.1, v.2)

theorem optionVisits_relabel_of {ps : List Pattern} {start : Nat}
    (h : ∀ p ∈ ps, U.visits (p.relabel f) start = (U.visits p start).image (original f)) :
    U.optionVisits (ps.map (Pattern.relabel f)) start =
      (U.optionVisits ps start).image (original f) := by
  induction ps with
  | nil => rw [List.map_nil, optionVisits, Finset.image_empty]
  | cons p ps ih =>
    rw [List.map_cons, optionVisits, optionVisits, Finset.image_union, h p List.mem_cons_self,
      ih fun q hq => h q (List.mem_cons_of_mem _ hq)]

theorem partVisits_relabel_of {ps : List Pattern}
    (h : ∀ p ∈ ps, ∀ start, U.visits (p.relabel f) start = (U.visits p start).image (original f))
    (lead : Bool) (frontier : Ends) :
    U.partVisits lead (ps.map (Pattern.relabel f)) frontier =
      (U.partVisits lead ps frontier).image (original f) := by
  induction ps generalizing lead frontier with
  | nil => rw [List.map_nil, partVisits, Finset.image_empty]
  | cons p ps ih =>
    have hwidth := Pattern.totalWidth_relabel f (p :: ps)
    rw [List.map_cons] at hwidth
    have hp : U.visits (p.relabel f) = fun start => (U.visits p start).image (original f) := by
      funext start
      exact h p List.mem_cons_self start
    rw [List.map_cons, partVisits, partVisits, Finset.image_union, Finset.biUnion_image,
      plainEnds_relabel, Pattern.totalWidth_relabel, hwidth, hp,
      ih fun q hq => h q (List.mem_cons_of_mem _ hq)]

/-- The spots visited in a copy are the copies of the spots visited in the original. -/
theorem visits_relabel (p : Pattern) (start : Nat) :
    U.visits (p.relabel f) start = (U.visits p start).image (original f) := by
  induction p using Pattern.node_induction generalizing start with
  | word l literal optional =>
    rw [Pattern.relabel, visits, visits, Finset.image_singleton]
    rfl
  | wildcard l optional =>
    rw [Pattern.relabel, visits, visits, Finset.image_singleton]
    rfl
  | choice l options optional ih =>
    rw [Pattern.relabel, Pattern.relabelAll_eq, visits, visits, Finset.image_insert,
      optionVisits_relabel_of f fun p hp => ih p hp start]
    rfl
  | series l parts ih =>
    rw [Pattern.relabel, Pattern.relabelAll_eq, visits, visits, Finset.image_insert,
      partVisits_relabel_of f ih]
    rfl
  | slot l name inner kind ih =>
    rw [Pattern.relabel, visits, visits, Finset.image_insert, ih]
    rfl
  | foreign v => rw [Pattern.relabel, visits, Finset.image_empty]

theorem bodyVisits_relabel (l : Nat) (parts : List Pattern) (start : Nat) :
    U.bodyVisits ((Pattern.series l parts).relabel f) start =
      (U.bodyVisits (.series l parts) start).image (original f) := by
  rw [Pattern.relabel, Pattern.relabelAll_eq, bodyVisits, bodyVisits, Finset.image_insert,
    partVisits_relabel_of f fun p _ => visits_relabel f p]
  rfl

theorem isBody_relabel {body p : Pattern} (h : body.IsLabelled)
    (h' : (body.relabel f).IsLabelled) (hp : p ∈ body.nodes) {l : Nat} (hl : p.label? = some l) :
    isBody (body.relabel f) (p.relabel f) = isBody body p := by
  rw [Bool.eq_iff_iff, isBody_iff h hp hl,
    isBody_iff h' (Pattern.mem_nodes_relabel f hp) (Pattern.label?_relabel f hl)]
  constructor
  · -- a proper node of the body cannot become equal to the body
    intro heq
    by_contra hne
    exact Pattern.relabel_ne_of_mem_nodes f hp hne heq
  · rintro rfl
    rfl

/-- The steps for a spot of a copy are the steps for the spot of its original. -/
theorem spotSteps_relabel {body p : Pattern} (h : body.IsLabelled)
    (h' : (body.relabel f).IsLabelled) (hp : p ∈ body.nodes) {l : Nat} (hl : p.label? = some l)
    (start : Nat) :
    U.spotSteps (body.relabel f) (f l, start) = U.spotSteps body (l, start) := by
  rw [spotSteps_eq h' (Pattern.mem_nodes_relabel f hp) (Pattern.label?_relabel f hl),
    spotSteps_eq h hp hl, isBody_relabel f h h' hp hl, nodeSteps_relabel]

/-- All spots that a shared body rests on take no more steps than those of a copy. -/
theorem sum_spotSteps_relabel_le {l : Nat} {parts : List Pattern}
    (h : (Pattern.series l parts).IsLabelled)
    (h' : ((Pattern.series l parts).relabel f).IsLabelled) (start : Nat) :
    ∑ v ∈ U.bodyVisits ((Pattern.series l parts).relabel f) start,
        U.spotSteps ((Pattern.series l parts).relabel f) v ≤
      ∑ v ∈ U.bodyVisits (.series l parts) start, U.spotSteps (.series l parts) v := by
  -- several copies of a spot count once on the left, and each for itself on the right
  rw [bodyVisits_relabel]
  refine (Finset.sum_image_le_of_nonneg fun v _ => Nat.zero_le _).trans_eq ?_
  refine Finset.sum_congr rfl fun v hv => ?_
  obtain ⟨q, hq, hl⟩ := exists_label_of_mem_bodyVisits hv
  exact spotSteps_relabel f h h' hq hl v.2

end Utterance

namespace Phrase

open Search

variable {P Q : Phrase} {parts copies : List Pattern} {U : Utterance}

/-- Searches from a fresh start, one after the other, find what the plain search finds. -/
theorem run_nodeEnds (h : P.WellFormed parts) {calls : List (Pattern × Nat)}
    (hcalls : ∀ c ∈ calls, c.1 ∈ P.body.nodes ∧ c.2 ≤ U.size) (spent : Nat) :
    ∃ s, (calls.mapM fun c => U.nodeEnds P.body none c.1 c.2).run ⟨spent, ∅⟩ =
      .ok (calls.map fun c => U.plainNodeEnds P.body c.1 c.2) s := by
  obtain ⟨l, hbody⟩ := h.body_eq
  obtain ⟨W, hW⟩ := Utterance.runs_mapM fun c hc =>
    Utterance.runs_nodeEnds h.isLabelled h.firstForeign?_eq hbody (hcalls c hc).1 (hcalls c hc).2
  obtain ⟨M, hrun, -, -⟩ := hW ⟨spent, ∅⟩ Utterance.remembers_empty
  exact ⟨_, hrun⟩

/-- What an attempt remembers in the end are ends of the plain search at positions of the
utterance. -/
theorem run_bodyEnds (h : P.WellFormed parts) (spent : Nat) :
    ∃ s, (U.bodyEnds none P.body 0).run ⟨spent, ∅⟩ = .ok (U.plainBodyEnds P.body 0) s ∧
      ∀ l start es, s.memory[(l, start)]? = some es → start ≤ U.size ∧
        ∃ p ∈ P.body.nodes, p.label? = some l ∧ es = U.plainNodeEnds P.body p start := by
  obtain ⟨l, hbody⟩ := h.body_eq
  obtain ⟨M, hrun, hM, hmem⟩ := Utterance.runs_bodyEnds h.isLabelled h.firstForeign?_eq hbody
    (Nat.zero_le U.size) ⟨spent, ∅⟩ Utterance.remembers_empty
  refine ⟨_, hrun, fun k start es hes => ?_⟩
  have hin : (k, start) ∈ M := Std.TreeMap.mem_iff_isSome_getElem?.2 (by rw [hes]; rfl)
  have hvisit : (k, start) ∈ U.bodyVisits P.body 0 :=
    ((hmem _).1 hin).resolve_left Std.TreeMap.not_mem_emptyc
  rw [hbody] at hvisit
  obtain ⟨p, hp, hlabel⟩ := Utterance.exists_label_of_mem_bodyVisits hvisit
  rw [← hbody] at hp
  exact ⟨Utterance.le_size_of_mem_bodyVisits (Nat.zero_le _) hvisit, p, hp, hlabel,
    hM.ends_eq p hp k hlabel start es hes⟩

/-- A copy finds the same alignment, in no fewer steps. -/
theorem align_relabel (h : P.WellFormed parts) (h' : Q.WellFormed copies) {f : Nat → Nat}
    (hf : Q.body.relabel f = P.body) (spent : Nat) :
    ∃ found n m, P.align U none spent = (.ok found, n) ∧ Q.align U none spent = (.ok found, m) ∧
      n ≤ m := by
  obtain ⟨l, hbody⟩ := h.body_eq
  obtain ⟨l', hbody'⟩ := h'.body_eq
  have hP := align_none (U := U) h.isLabelled h.firstForeign?_eq hbody spent
  have hQ := align_none (U := U) h'.isLabelled h'.firstForeign?_eq hbody' spent
  have hlab : ((Pattern.series l' copies).relabel f).IsLabelled := by
    rw [← hbody', hf]
    exact h.isLabelled
  have hends := Utterance.plainBodyEnds_relabel (U := U) f l' copies 0
  have hsteps := Utterance.sum_spotSteps_relabel_le (U := U) f (hbody' ▸ h'.isLabelled) hlab 0
  rw [← hbody', hf] at hends hsteps
  rw [hends] at hP
  exact ⟨_, _, _, hP, hQ, Nat.add_le_add_left hsteps spent⟩

/-- Within a budget that suffices for the copy, both report the same alignment. -/
theorem recognise_relabel (h : P.WellFormed parts) (h' : Q.WellFormed copies) {f : Nat → Nat}
    (hf : Q.body.relabel f = P.body) {text : Option String} {budget : Budget}
    (hbudget : ¬ Exceeds (Q.recognise U.lexicon U.tokens text budget)) :
    ∃ found : Option Outcome,
      (P.recognise U.lexicon U.tokens text budget).1 = .ok (found.map (P.report U.tokens text)) ∧
      (Q.recognise U.lexicon U.tokens text budget).1 = .ok (found.map (Q.report U.tokens text)) ∧
      (P.recognise U.lexicon U.tokens text budget).2.spent ≤
        (Q.recognise U.lexicon U.tokens text budget).2.spent := by
  obtain ⟨l, hbody⟩ := h'.body_eq
  obtain ⟨found, n, m, hP, hQ, hnm⟩ := align_relabel (U := U) h h' hf budget.spent
  have hm : m ≤ budget.limit := Nat.not_lt.1 (mt (exceeds_iff hbody hQ).2 hbudget)
  have heqP := recognise_of_le hP (Nat.le_trans hnm hm) text
  have heqQ := recognise_of_le hQ hm text
  refine ⟨found, congrArg Prod.fst heqP, congrArg Prod.fst heqQ, ?_⟩
  rw [heqP, heqQ]
  exact hnm

/-- **The search is the plain search, made faster by sharing.**  Without a limit, searches for any
nodes at any positions of the utterance find what the plain search finds, whatever was searched for
before; so do all searches that an attempt makes on its way.  A copy of the phrase, in which shared
nodes are replaced by equal nodes of their own, finds the same alignment and takes no fewer steps,
and where the copy keeps within a budget both report the same. -/
theorem search_eq_plain (h : P.WellFormed parts) (spent : Nat) :
    (∀ calls : List (Pattern × Nat), (∀ c ∈ calls, c.1 ∈ P.body.nodes ∧ c.2 ≤ U.size) →
      ∃ s, (calls.mapM fun c => U.nodeEnds P.body none c.1 c.2).run ⟨spent, ∅⟩ =
        .ok (calls.map fun c => U.plainNodeEnds P.body c.1 c.2) s) ∧
    (∃ s, (U.bodyEnds none P.body 0).run ⟨spent, ∅⟩ = .ok (U.plainBodyEnds P.body 0) s ∧
      ∀ l start es, s.memory[(l, start)]? = some es → start ≤ U.size ∧
        ∃ p ∈ P.body.nodes, p.label? = some l ∧ es = U.plainNodeEnds P.body p start) ∧
    ∀ (Q : Phrase) (copies : List Pattern) (f : Nat → Nat), Q.WellFormed copies →
      Q.body.relabel f = P.body →
      (∃ found n m, P.align U none spent = (.ok found, n) ∧
        Q.align U none spent = (.ok found, m) ∧ n ≤ m) ∧
      ∀ text limit, ¬ Exceeds (Q.recognise U.lexicon U.tokens text ⟨limit, spent⟩) →
        ∃ found : Option Outcome,
          (P.recognise U.lexicon U.tokens text ⟨limit, spent⟩).1 =
            .ok (found.map (P.report U.tokens text)) ∧
          (Q.recognise U.lexicon U.tokens text ⟨limit, spent⟩).1 =
            .ok (found.map (Q.report U.tokens text)) ∧
          (P.recognise U.lexicon U.tokens text ⟨limit, spent⟩).2.spent ≤
            (Q.recognise U.lexicon U.tokens text ⟨limit, spent⟩).2.spent := by
  refine ⟨fun calls hcalls => run_nodeEnds h hcalls spent, run_bodyEnds h spent, ?_⟩
  intro Q copies f h' hf
  exact ⟨align_relabel h h' hf spent, fun text limit => recognise_relabel h h' hf⟩

/-- The parts of a phrase in which two slots share an entity: `[first:color]? [last:color]`. -/
def sharedParts : List Pattern :=
  let color := .choice 2 [.word 3 "red" false, .word 4 "blue" false] true
  [.slot 1 "first" color (some "color"), .slot 5 "last" color (some "color")]

/-- The same parts, with an entity for each slot. -/
def copiedParts : List Pattern :=
  [.slot 1 "first" (.choice 2 [.word 3 "red" false, .word 4 "blue" false] true) (some "color"),
    .slot 5 "last" (.choice 6 [.word 7 "red" false, .word 8 "blue" false] true) (some "color")]

/-- The originals of the nodes with labels from 6 on. -/
def colorOriginal (l : Nat) : Nat := if l < 6 then l else l - 4

/-- A phrase of the given parts. -/
def ofParts (parts : List Pattern) : Phrase := ⟨.series 0 parts, none, [], ""⟩

theorem wellFormed_shared : (ofParts sharedParts).WellFormed sharedParts where
  body_eq := ⟨0, rfl⟩
  isLabelled := by
    simp [Pattern.IsLabelled, ofParts, sharedParts, Pattern.nodes, Pattern.nodesOfAll,
      Pattern.label?]
  firstForeign?_eq := by decide

theorem wellFormed_copied : (ofParts copiedParts).WellFormed copiedParts where
  body_eq := ⟨0, rfl⟩
  isLabelled := Pattern.isLabelled_of_nodup (by decide)
  firstForeign?_eq := by decide

/-- An utterance of one colour. -/
def redUtterance : Utterance := ⟨Token.tokenize "red", .english⟩

/-- Two slots that share an entity need no more steps than two that do not, and here they need
fewer: at the first position, the second slot finds the ends of the entity remembered. -/
theorem shared_le_copied :
    (∃ found n m, (ofParts sharedParts).align redUtterance none 0 = (.ok found, n) ∧
      (ofParts copiedParts).align redUtterance none 0 = (.ok found, m) ∧ n ≤ m) ∧
    ((ofParts sharedParts).align redUtterance none 0).2 <
      ((ofParts copiedParts).align redUtterance none 0).2 :=
  ⟨((search_eq_plain wellFormed_shared 0).2.2 (ofParts copiedParts) copiedParts colorOriginal
    wellFormed_copied rfl).1, by decide +kernel⟩

end Phrase

end IntentGrammar
