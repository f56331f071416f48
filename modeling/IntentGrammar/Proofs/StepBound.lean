import IntentGrammar.Proofs.Budgets
import IntentGrammar.Proofs.Sharing
import Mathlib.Algebra.Order.BigOperators.Group.Finset
import Mathlib.Algebra.BigOperators.Ring.Finset
import Mathlib.Data.List.Pairwise
import Mathlib.Data.List.Nodup
import Mathlib.Tactic.Ring

/-!
# A bound for the steps

The search for an utterance of `n` tokens works out every node of a phrase at most once for each of
the `n + 1` positions, and every frontier holds at most `n + 1` positions.  So the steps are bounded
by a polynomial in `n` (`Pattern.stepBound`), however optional groups and wildcards are nested.

* `Utterance.length_le_of_ascending` : a frontier holds at most `n + 1` positions.
* `Utterance.partSteps_le`, `Utterance.nodeSteps_le` : the steps for one spot.
* `Phrase.steps_le_stepBound` : the steps for all spots.
* `Phrase.steps_polynomial` : **an attempt with a fresh budget keeps to the bound.**
-/

namespace IntentGrammar

namespace Pattern

/-- The nodes of a pattern, a shared node once. -/
def distinctNodes (p : Pattern) : List Pattern :=
  p.nodes.pwFilter fun q r => q.label? ≠ r.label?

/-- The number of parts, if the node is a series. -/
def partCount : Pattern → Nat
  | .series _ parts => parts.length
  | _ => 0

theorem mem_nodes_of_mem_distinctNodes {p q : Pattern} (h : q ∈ p.distinctNodes) : q ∈ p.nodes :=
  List.pwFilter_subset _ h

/-- Every label stands for one of the distinct nodes. -/
theorem exists_mem_distinctNodes {p q : Pattern} (h : q ∈ p.nodes) :
    ∃ r ∈ p.distinctNodes, q.label? = r.label? := by
  have htrans : ∀ {x y z : Pattern}, x.label? ≠ z.label? →
      x.label? ≠ y.label? ∨ y.label? ≠ z.label? := by
    intro x y z hxz
    by_contra hboth
    push Not at hboth
    exact hxz (hboth.1.trans hboth.2)
  by_contra hnone
  push Not at hnone
  exact (List.forall_mem_pwFilter (R := fun q r : Pattern => q.label? ≠ r.label?) htrans q
    p.nodes).1 hnone q h rfl

/-- The most steps that a body takes on `n` tokens: for every position, `n + 2` for each node and
`(n + 1) * (n + 3)` for each part of a series, and one for the stopwords behind the last part. -/
def stepBound (p : Pattern) (n : Nat) : Nat :=
  let M := p.distinctNodes.length
  let K := (p.distinctNodes.map partCount).sum
  (n + 1) * (M * (n + 2) + K * (n + 1) * (n + 3) + 1)

end Pattern

namespace Utterance

open Ends Search

variable {U : Utterance}

/-! ### Frontiers -/

/-- There is room for one entry at each position of the utterance. -/
theorem length_le_of_ascending {es : Ends} (hes : es.Ascending) (hwithin : U.Within es) :
    es.length ≤ U.size + 1 := by
  have hnodup : (es.map Prod.fst).Nodup :=
    List.pairwise_map.2 (hes.imp fun hlt => Nat.ne_of_lt hlt)
  have hsub : es.map Prod.fst ⊆ List.range (U.size + 1) := by
    intro pos hpos
    obtain ⟨e, he, rfl⟩ := List.mem_map.1 hpos
    exact List.mem_range.2 (Nat.lt_succ_of_le (hwithin e he))
  simpa using (hnodup.subperm hsub).length_le

theorem ascending_led {F : Ends} (hF : F.Ascending) (lead : Bool) : (U.led lead F).Ascending := by
  unfold led
  split
  · exact ascending_skipStops F
  · exact hF

theorem ascending_viable {F : Ends} (hF : F.Ascending) (n : Nat) : (U.viable n F).Ascending :=
  hF.filter _

theorem ascending_extend {es : Ends} (hes : es.Ascending) (rest : Nat) (o : Outcome)
    (found : Ends) : (U.extend rest o found es).Ascending := by
  rw [extend_eq]
  exact ascending_offerAll hes _

theorem within_extend {es : Ends} (hes : es.Ascending) (hwithin : U.Within es) (rest : Nat)
    (o : Outcome) (found : Ends) : U.Within (U.extend rest o found es) := by
  intro e he
  rw [extend_eq] at he
  rcases mem_of_mem_offerAll hes he with hnew | hold
  · have hroom := leaves_iff.1 (List.mem_filter.1 hnew).2
    omega
  · exact hwithin e hold

/-! ### Steps for one spot -/

theorem ledSteps_le {F : Ends} (hF : U.Within F) (lead : Bool) :
    U.ledSteps lead F ≤ if lead then U.size + 1 else 0 := by
  unfold ledSteps
  split
  · exact length_le_of_ascending (ascending_skipStops F) (within_led hF true)
  · exact Nat.le_refl 0

theorem placingSteps_le (part : Nat → Ends) (rest : Nat) (F : Ends) {es : Ends}
    (hes : es.Ascending) (hwithin : U.Within es) :
    U.placingSteps part rest F es ≤ F.length * (U.size + 2) := by
  induction F generalizing es with
  | nil => exact Nat.zero_le _
  | cons e F ih =>
    obtain ⟨pos, o⟩ := e
    have hext := ascending_extend (U := U) hes rest o (part pos)
    have hextw := within_extend hes hwithin rest o (part pos)
    have hlen := length_le_of_ascending hext hextw
    have hrest := ih hext hextw
    rw [placingSteps, List.length_cons, Nat.succ_mul]
    omega

/-- Each part takes the steps of one frontier that is led over stopwords and of one placement behind
each of its positions. -/
theorem partSteps_le (outermost lead : Bool) (ps : List Pattern) {F : Ends} (hF : F.Ascending)
    (hwithin : U.Within F) :
    U.partSteps outermost lead ps F ≤
      ps.length * ((U.size + 1) * (U.size + 3)) + if outermost then U.size + 1 else 0 := by
  induction ps generalizing lead F with
  | nil =>
    rw [partSteps, List.length_nil, Nat.zero_mul, Nat.zero_add]
    exact ledSteps_le hwithin outermost
  | cons p ps ih =>
    have hledsteps : U.ledSteps lead F ≤ U.size + 1 :=
      Nat.le_trans (ledSteps_le hwithin lead) (by split <;> omega)
    have hviable : (U.viable (Pattern.totalWidth (p :: ps)) (U.led lead F)).length ≤ U.size + 1 :=
      length_le_of_ascending (ascending_viable (ascending_led hF lead) _) (within_viable _ _)
    have hplacing := placingSteps_le (U := U) (U.plainEnds p) (Pattern.totalWidth ps)
      (U.viable (Pattern.totalWidth (p :: ps)) (U.led lead F)) ascending_nil
      (fun e he => absurd he List.not_mem_nil)
    have hfrontier := Nat.mul_le_mul_right (U.size + 2) hviable
    have hrest := ih true (ascending_viable (U := U)
      (ascending_behind (U.plainEnds p) (U.led lead F)) (Pattern.totalWidth ps))
      (within_viable _ _)
    have hsum : (U.size + 1) * (U.size + 3) =
        (U.size + 1) + (U.size + 1) * (U.size + 2) := by ring
    rw [partSteps, List.length_cons, Nat.succ_mul]
    omega

/-- The steps for one spot of a node: those of a series for its parts, those of a wildcard for its
ends. -/
theorem nodeSteps_le (outermost : Bool) (p : Pattern) {start : Nat} (hstart : start ≤ U.size) :
    U.nodeSteps outermost p start ≤
      (U.size + 2) + p.partCount * ((U.size + 1) * (U.size + 3)) +
        if outermost then U.size + 1 else 0 := by
  cases p with
  | wildcard l optional =>
    have hwithin : U.Within (U.wildcardEnds optional start) := fun e he =>
      ((lists_wildcardEnds (R := anyOption) l optional start).sound he).le_size hstart
    have hlen := length_le_of_ascending (ascending_wildcardEnds optional start) hwithin
    rw [nodeSteps]
    omega
  | series l parts =>
    have hwithin : U.Within [(start, Outcome.free)] := by
      intro e he
      rw [List.mem_singleton.1 he]
      exact hstart
    have hparts := partSteps_le outermost outermost parts
      (ascending_singleton (start, Outcome.free)) hwithin
    rw [nodeSteps, Pattern.partCount]
    omega
  | _ =>
    simp only [nodeSteps]
    omega

/-! ### Steps for all spots -/

/-- Spots of a node are told apart by their positions. -/
theorem card_le_of_label {V : Finset Spot} {l n : Nat} (hl : ∀ v ∈ V, v.1 = l)
    (hn : ∀ v ∈ V, v.2 ≤ n) : V.card ≤ n + 1 := by
  have hmaps : ∀ v ∈ V, v.2 ∈ Finset.range (n + 1) := fun v hv =>
    Finset.mem_range.2 (Nat.lt_succ_of_le (hn v hv))
  have hinj : ∀ v ∈ V, ∀ w ∈ V, v.2 = w.2 → v = w := fun v hv w hw heq =>
    Prod.ext ((hl v hv).trans (hl w hw).symm) heq
  simpa using Finset.card_le_card_of_injOn Prod.snd hmaps hinj

/-- If every spot belongs to one of some nodes, the steps for all spots are at most those of `n + 1`
spots for each of the nodes. -/
theorem sum_le_of_nodes {nodes : List Pattern} {V : Finset Spot} {n : Nat} {f : Spot → Nat}
    {g : Pattern → Nat} (hn : ∀ v ∈ V, v.2 ≤ n)
    (hV : ∀ v ∈ V, ∃ p ∈ nodes, p.label? = some v.1 ∧ f v ≤ g p) :
    ∑ v ∈ V, f v ≤ (nodes.map fun p => (n + 1) * g p).sum := by
  induction nodes generalizing V with
  | nil =>
    have hempty : V = ∅ := Finset.eq_empty_of_forall_notMem fun v hv => by
      obtain ⟨p, hp, -⟩ := hV v hv
      exact List.not_mem_nil hp
    rw [hempty]
    rfl
  | cons p nodes ih =>
    -- the spots of the first node, and those of the others
    let mine : Spot → Prop := fun v => p.label? = some v.1 ∧ f v ≤ g p
    have hmine : ∑ v ∈ V with mine v, f v ≤ (n + 1) * g p := by
      have hcard : (V.filter mine).card ≤ n + 1 := by
        refine card_le_of_label (l := p.label?.getD 0) (fun v hv => ?_)
          (fun v hv => hn v (Finset.mem_filter.1 hv).1)
        rw [(Finset.mem_filter.1 hv).2.1]
        rfl
      calc ∑ v ∈ V with mine v, f v ≤ (V.filter mine).card * g p :=
            Finset.sum_le_card_nsmul _ _ _ fun v hv => (Finset.mem_filter.1 hv).2.2
        _ ≤ (n + 1) * g p := Nat.mul_le_mul_right _ hcard
    have hothers : ∑ v ∈ V with ¬ mine v, f v ≤ (nodes.map fun p => (n + 1) * g p).sum := by
      refine ih (fun v hv => hn v (Finset.mem_filter.1 hv).1) fun v hv => ?_
      obtain ⟨hvV, hv⟩ := Finset.mem_filter.1 hv
      obtain ⟨q, hq, hlabel, hle⟩ := hV v hvV
      rcases List.mem_cons.1 hq with rfl | hq
      · exact absurd ⟨hlabel, hle⟩ hv
      · exact ⟨q, hq, hlabel, hle⟩
    rw [List.map_cons, List.sum_cons, ← Finset.sum_filter_add_sum_filter_not V mine f]
    exact Nat.add_le_add hmine hothers

theorem sum_map_partCount (nodes : List Pattern) (a b c : Nat) :
    (nodes.map fun p => a * (b + p.partCount * c)).sum =
      a * (nodes.length * b + (nodes.map Pattern.partCount).sum * c) := by
  induction nodes with
  | nil => simp
  | cons p nodes ih =>
    rw [List.map_cons, List.sum_cons, ih, List.map_cons, List.sum_cons, List.length_cons]
    ring

/-- The body is visited at the start only. -/
theorem eq_start_of_mem_bodyVisits {l : Nat} {parts : List Pattern}
    (hlab : (Pattern.series l parts).IsLabelled) {v : Spot}
    (hv : v ∈ U.bodyVisits (.series l parts) 0) (hl : v.1 = l) : v = (l, 0) := by
  obtain ⟨k, pos⟩ := v
  obtain rfl : k = l := hl
  rw [bodyVisits, Finset.mem_insert] at hv
  exact hv.resolve_right (not_mem_partVisits hlab (Pattern.mem_nodes_self _) rfl rfl)

/-- The steps for a spot that a body rests on; the body itself also skips stopwords at its end. -/
theorem exists_spotSteps_le {l : Nat} {parts : List Pattern}
    (hlab : (Pattern.series l parts).IsLabelled) {v : Spot}
    (hv : v ∈ U.bodyVisits (.series l parts) 0) :
    ∃ p ∈ (Pattern.series l parts).distinctNodes, p.label? = some v.1 ∧
      U.spotSteps (.series l parts) v ≤
        (U.size + 2) + p.partCount * ((U.size + 1) * (U.size + 3)) +
          if v = (l, 0) then U.size + 1 else 0 := by
  obtain ⟨q, hq, hlq⟩ := exists_label_of_mem_bodyVisits hv
  obtain ⟨p, hp, hlp⟩ := Pattern.exists_mem_distinctNodes hq
  have hpl : p.label? = some v.1 := hlp.symm.trans hlq
  refine ⟨p, hp, hpl, ?_⟩
  have hsteps := nodeSteps_le (U := U) (isBody (.series l parts) p) p
    (le_size_of_mem_bodyVisits (Nat.zero_le _) hv)
  rw [← spotSteps_eq hlab (Pattern.mem_nodes_of_mem_distinctNodes hp) hpl] at hsteps
  by_cases hself : isBody (.series l parts) p = true
  · have hstart : v = (l, 0) := by
      rw [isBody, beq_iff_eq, hpl] at hself
      exact eq_start_of_mem_bodyVisits hlab hv (Option.some.inj hself)
    rw [if_pos hself] at hsteps
    rw [if_pos hstart]
    exact hsteps
  · rw [if_neg hself] at hsteps
    exact Nat.le_trans hsteps (Nat.le_add_right _ _)

/-- The spots that a body rests on take no more steps than the bound: each belongs to a node and a
position, and the edge of the body counts once. -/
theorem sum_spotSteps_le {l : Nat} {parts : List Pattern}
    (hlab : (Pattern.series l parts).IsLabelled) :
    ∑ v ∈ U.bodyVisits (.series l parts) 0, U.spotSteps (.series l parts) v ≤
      (Pattern.series l parts).stepBound U.size := by
  let edge : Spot → Nat := fun v => if v = (l, 0) then U.size + 1 else 0
  have hedge : ∑ v ∈ U.bodyVisits (.series l parts) 0, edge v = U.size + 1 := by
    rw [Finset.sum_ite_eq', if_pos (by rw [bodyVisits]; exact Finset.mem_insert_self _ _)]
  -- but for the edge, the steps for a spot are those of a node at a position
  have hnodes := sum_le_of_nodes (V := U.bodyVisits (.series l parts) 0)
    (f := fun v => U.spotSteps (.series l parts) v - edge v)
    (fun v hv => le_size_of_mem_bodyVisits (Nat.zero_le _) hv) fun v hv => by
      obtain ⟨p, hp, hpl, hle⟩ := exists_spotSteps_le hlab hv
      exact ⟨p, hp, hpl, Nat.sub_le_of_le_add hle⟩
  calc ∑ v ∈ U.bodyVisits (.series l parts) 0, U.spotSteps (.series l parts) v
      ≤ ∑ v ∈ U.bodyVisits (.series l parts) 0,
          ((U.spotSteps (.series l parts) v - edge v) + edge v) :=
        Finset.sum_le_sum fun v _ => le_tsub_add
    _ = ∑ v ∈ U.bodyVisits (.series l parts) 0, (U.spotSteps (.series l parts) v - edge v) +
          (U.size + 1) := by rw [Finset.sum_add_distrib, hedge]
    _ ≤ ((Pattern.series l parts).distinctNodes.map fun p => (U.size + 1) *
          ((U.size + 2) + p.partCount * ((U.size + 1) * (U.size + 3)))).sum + (U.size + 1) :=
        Nat.add_le_add_right hnodes _
    _ = (Pattern.series l parts).stepBound U.size := by
        rw [sum_map_partCount, Pattern.stepBound]
        ring

end Utterance

namespace Phrase

variable {P : Phrase} {U : Utterance} {parts : List Pattern}

theorem steps_le_stepBound (h : P.WellFormed parts) :
    P.steps U ≤ P.body.stepBound U.size := by
  obtain ⟨l, hbody⟩ := h.body_eq
  rw [steps, align_none h.isLabelled h.firstForeign?_eq hbody 0, Nat.zero_add, hbody]
  exact Utterance.sum_spotSteps_le (hbody ▸ h.isLabelled)

/-- **The search is polynomial.**  An attempt with a fresh budget never spends more than the bound
for its number of tokens; if the limit allows that many steps, the attempt is not given up. -/
theorem steps_polynomial (h : P.WellFormed parts) (text : Option String) (limit : Nat) :
    (P.recognise U.lexicon U.tokens text ⟨limit, 0⟩).2.spent ≤ P.body.stepBound U.size ∧
    (P.body.stepBound U.size ≤ limit →
      ∃ found, (P.recognise U.lexicon U.tokens text ⟨limit, 0⟩).1 = .ok found) := by
  have hbound := steps_le_stepBound (U := U) h
  by_cases hle : P.steps U ≤ limit
  · have hrun := recognise_of_steps_le h ⟨limit, 0⟩ (by rw [Nat.zero_add]; exact hle) text
    rw [hrun, Nat.zero_add]
    exact ⟨hbound, fun _ => ⟨_, rfl⟩⟩
  · obtain ⟨n, hrun, -, hn⟩ := recognise_of_lt_steps h ⟨limit, 0⟩ (Nat.zero_le _)
      (by rw [Nat.zero_add]; exact Nat.not_le.1 hle) text
    rw [Nat.zero_add] at hn
    rw [hrun]
    exact ⟨Nat.le_trans hn hbound, fun hlimit => absurd (Nat.le_trans hbound hlimit) hle⟩

/-- Of nine nodes two slots share three, so that six of them count: on one token the phrase takes at
most 70 steps. -/
theorem shared_steps_le :
    (∃ found, ((ofParts sharedParts).recognise redUtterance.lexicon redUtterance.tokens none
      ⟨70, 0⟩).1 = .ok found) ∧
    (ofParts sharedParts).body.nodes.length = 9 ∧
    (ofParts sharedParts).body.distinctNodes.length = 6 := by
  have hbound : (ofParts sharedParts).body.stepBound redUtterance.size = 70 := by decide +kernel
  exact ⟨(steps_polynomial wellFormed_shared none 70).2 hbound.le, by decide, by decide⟩

end Phrase

end IntentGrammar
