import IntentGrammar.Proofs.Limit
import IntentGrammar.Proofs.Visits
import Mathlib.Algebra.BigOperators.Group.Finset.Basic
import Mathlib.Algebra.BigOperators.Group.Finset.Piecewise

/-!
# Searches that remember

A search remembers the ends of every spot it has worked out.  `Search.Progress` may thus hold the
results of any number of earlier searches over the same tree; `Utterance.Remembers` says that what
it holds is true: the ends are those of the plain search, and the spots they rest on are there too.

`Utterance.Runs` describes a computation by its result, the spots it rests on and the steps it takes
itself.  Each way of building a search out of smaller ones composes these descriptions, so that they
hold of the search for the ends of a node (`Utterance.runs_ends`, `Utterance.runs_nodeEnds`):

* it returns what the plain search returns;
* it takes the steps of those spots it rests on that were not yet remembered.

`Phrase.align_none` draws the conclusion for an attempt to recognise an utterance.
-/

namespace IntentGrammar

namespace Utterance

open Ends Search

variable (U : Utterance) (body : Pattern)

/-- What is remembered is what the plain search returns, along with all it rests on. -/
structure Remembers (M : Memory) : Prop where
  ends_eq : ∀ p ∈ body.nodes, ∀ l, p.label? = some l → ∀ start es, M[(l, start)]? = some es →
    es = U.plainNodeEnds body p start
  closed : ∀ p ∈ body.nodes, ∀ l, p.label? = some l → ∀ start, (l, start) ∈ M →
    ∀ v ∈ U.nodeVisits body p start, v ∈ M

/-- The steps for those of some spots that are not remembered. -/
def missingSteps (M : Memory) (V : Finset Spot) : Nat :=
  ∑ v ∈ V with v ∉ M, U.spotSteps body v

variable {α β : Type}

/-- From any true memory the computation returns `a`, takes `k` steps and those for the spots of
`V` that are missing, and leaves a true memory that holds just the spots of `V` besides. -/
def Runs (x : Search α) (a : α) (V : Finset Spot) (k : Nat) : Prop :=
  ∀ s : Progress, U.Remembers body s.memory → ∃ M : Memory,
    x s = .ok a ⟨s.steps + k + U.missingSteps body s.memory V, M⟩ ∧
      U.Remembers body M ∧ ∀ v, v ∈ M ↔ v ∈ s.memory ∨ v ∈ V

variable {U body}

theorem remembers_empty : U.Remembers body ∅ where
  ends_eq _ _ _ _ _ _ h := by
    rw [Std.TreeMap.getElem?_emptyc] at h; cases h
  closed _ _ _ _ _ h := absurd h Std.TreeMap.not_mem_emptyc

theorem missingSteps_eq_zero {M : Memory} {V : Finset Spot} (h : ∀ v ∈ V, v ∈ M) :
    U.missingSteps body M V = 0 := by
  rw [missingSteps, Finset.filter_false_of_mem fun v hv hM => hM (h v hv), Finset.sum_empty]

/-- Spots worked out by a first computation are no longer missing for a second one. -/
theorem missingSteps_union {M M' : Memory} {V W : Finset Spot}
    (hM' : ∀ v, v ∈ M' ↔ v ∈ M ∨ v ∈ V) :
    U.missingSteps body M (V ∪ W) = U.missingSteps body M V + U.missingSteps body M' W := by
  -- a spot of both sets is missing only once: the first computation remembers it for the second
  have hdisj : Disjoint (V.filter (· ∉ M)) (W.filter (· ∉ M')) := by
    rw [Finset.disjoint_left]
    intro v hv hw
    exact (Finset.mem_filter.1 hw).2 ((hM' v).2 (.inr (Finset.mem_filter.1 hv).1))
  have hunion : (V ∪ W).filter (· ∉ M) = V.filter (· ∉ M) ∪ W.filter (· ∉ M') := by
    ext v
    simp only [Finset.mem_filter, Finset.mem_union, hM']
    tauto
  rw [missingSteps, hunion, Finset.sum_union hdisj]
  rfl

theorem missingSteps_insert {M : Memory} {V : Finset Spot} {v : Spot} (hV : v ∉ V) (hM : v ∉ M) :
    U.missingSteps body M (insert v V) = U.spotSteps body v + U.missingSteps body M V := by
  rw [missingSteps, Finset.filter_insert, if_pos hM, Finset.sum_insert]
  · rfl
  · exact fun h => hV (Finset.mem_filter.1 h).1

/-! ### Composing searches -/

theorem runs_pure (a : α) : U.Runs body (pure a) a ∅ 0 := fun s hs =>
  ⟨s.memory, rfl, hs, fun v => by simp⟩

theorem Runs.congr {x : Search α} {a : α} {V W : Finset Spot} {j k : Nat}
    (h : U.Runs body x a V j) (hVW : V = W) (hjk : j = k) : U.Runs body x a W k :=
  hVW ▸ hjk ▸ h

theorem runs_tick (count : Nat) : U.Runs body (tick none count) () ∅ count := fun s hs =>
  ⟨s.memory, rfl, hs, fun v => by simp⟩

theorem runs_bind {x : Search α} {f : α → Search β} {a : α} {b : β} {V W : Finset Spot} {j k : Nat}
    (hx : U.Runs body x a V j) (hf : U.Runs body (f a) b W k) :
    U.Runs body (x >>= f) b (V ∪ W) (j + k) := by
  intro s hs
  obtain ⟨M, hrun, hM, hmem⟩ := hx s hs
  obtain ⟨M', hrun', hM', hmem'⟩ := hf ⟨_, M⟩ hM
  refine ⟨M', ?_, hM', fun v => ?_⟩
  · rw [run_bind_ok hrun, hrun', missingSteps_union hmem]
    congr 2
    dsimp only
    omega
  · rw [hmem', hmem, Finset.mem_union, or_assoc]

theorem runs_bind_zero {x : Search α} {f : α → Search β} {a : α} {b : β} {V W : Finset Spot}
    {k : Nat} (hx : U.Runs body x a V 0) (hf : U.Runs body (f a) b W k) :
    U.Runs body (x >>= f) b (V ∪ W) k :=
  (runs_bind hx hf).congr rfl (Nat.zero_add k)

/-- Searches one after the other, each of which finds the results of the earlier ones. -/
theorem runs_mapM {x : β → Search α} {a : β → α} {V : β → Finset Spot} {calls : List β}
    (h : ∀ c ∈ calls, U.Runs body (x c) (a c) (V c) 0) :
    ∃ W, U.Runs body (calls.mapM x) (calls.map a) W 0 := by
  induction calls with
  | nil => exact ⟨∅, runs_pure []⟩
  | cons c calls ih =>
    obtain ⟨W, hW⟩ := ih fun d hd => h d (List.mem_cons_of_mem _ hd)
    refine ⟨V c ∪ (W ∪ ∅), ?_⟩
    rw [List.mapM_cons, List.map_cons]
    exact runs_bind_zero (h c List.mem_cons_self) (runs_bind_zero hW (runs_pure _))

theorem mem_insert_iff {M : Memory} {u v : Spot} {es : Ends} :
    v ∈ M.insert u es ↔ v = u ∨ v ∈ M := by
  rw [Std.TreeMap.mem_insert, Std.LawfulEqCmp.compare_eq_iff_eq, eq_comm]

/-- A memory stays true when the ends of a node are added to it, if all that they rest on is
there. -/
theorem Remembers.insert {M : Memory} (hM : U.Remembers body M) (hlab : body.IsLabelled)
    {p : Pattern} (hp : p ∈ body.nodes) {l : Nat} (hl : p.label? = some l) {start : Nat}
    (hvisits : ∀ v ∈ U.nodeVisits body p start, v = (l, start) ∨ v ∈ M) :
    U.Remembers body (M.insert (l, start) (U.plainNodeEnds body p start)) where
  ends_eq q hq l' hl' start' es hes := by
    rw [Std.TreeMap.getElem?_insert] at hes
    split at hes
    · next heq =>
      cases Std.LawfulEqCmp.eq_of_compare heq
      cases hes
      rw [hlab.eq_of_label? hq hp hl' hl]
    · exact hM.ends_eq q hq l' hl' start' es hes
  closed q hq l' hl' start' hin v hv := by
    rw [mem_insert_iff] at hin ⊢
    rcases hin with heq | hin
    · cases heq
      rw [hlab.eq_of_label? hq hp hl' hl] at hv
      exact hvisits v hv
    · exact .inr (hM.closed q hq l' hl' start' hin v hv)

/-- The rule of memory: a remembered spot costs nothing; another one costs its own steps and those
for what is missing of the spots it rests on. -/
theorem runs_remembering (hlab : body.IsLabelled) {p : Pattern} (hp : p ∈ body.nodes) {l : Nat}
    (hl : p.label? = some l) {start : Nat} {work : Search Ends} {V : Finset Spot} {k : Nat}
    (hwork : U.Runs body work (U.plainNodeEnds body p start) V k) (hV : (l, start) ∉ V)
    (hvisits : U.nodeVisits body p start = insert (l, start) V)
    (hsteps : U.nodeSteps (isBody body p) p start = 1 + k) :
    U.Runs body (remembering none (l, start) work) (U.plainNodeEnds body p start)
      (insert (l, start) V) 0 := by
  intro s hs
  by_cases hin : (l, start) ∈ s.memory
  · -- everything the spot rests on is remembered as well
    have hvisited : ∀ v ∈ insert (l, start) V, v ∈ s.memory :=
      hvisits ▸ hs.closed p hp l hl start hin
    obtain ⟨es, hes⟩ := Option.isSome_iff_exists.1 (Std.TreeMap.mem_iff_isSome_getElem?.1 hin)
    refine ⟨s.memory, ?_, hs, fun v => ⟨.inl, fun h => h.elim id (hvisited v)⟩⟩
    rw [run_remembering_hit hes, hs.ends_eq p hp l hl start es hes, missingSteps_eq_zero hvisited]
    rfl
  · have hnone : s.memory[(l, start)]? = none := Std.TreeMap.getElem?_eq_none hin
    obtain ⟨M, hrun, hM, hmem⟩ := hwork ⟨s.steps + 1, s.memory⟩ hs
    have hinsert : U.Remembers body (M.insert (l, start) (U.plainNodeEnds body p start)) := by
      refine hM.insert hlab hp hl fun v hv => ?_
      rw [hvisits, Finset.mem_insert] at hv
      exact hv.imp id fun h => (hmem v).2 (.inr h)
    refine ⟨M.insert (l, start) (U.plainNodeEnds body p start), ?_, hinsert, fun v => ?_⟩
    · -- one step for the miss, `k` for the node itself, the rest for what it rests on
      have hsum : s.steps + 1 + k + U.missingSteps body s.memory V =
          s.steps + 0 + (1 + k + U.missingSteps body s.memory V) := by omega
      rw [run_remembering_miss hnone, run_bind_ok (run_tick_none 1 s), run_bind_ok hrun,
        missingSteps_insert hV hin, spotSteps_eq hlab hp hl, hsteps, ← hsum]
      rfl
    · rw [mem_insert_iff, hmem, Finset.mem_insert]
      tauto

/-- The rule of memory for a node below the body. -/
theorem runs_remembering_inner (hlab : body.IsLabelled) {p : Pattern} (hp : p ∈ body.nodes)
    (hbody : isBody body p = false) {l : Nat} (hl : p.label? = some l) {start : Nat}
    {work : Search Ends} {V : Finset Spot} {k : Nat}
    (hwork : U.Runs body work (U.plainEnds p start) V k) (hV : (l, start) ∉ V)
    (hvisits : U.visits p start = insert (l, start) V)
    (hsteps : U.nodeSteps false p start = 1 + k) :
    U.Runs body (remembering none (l, start) work) (U.plainEnds p start) (U.visits p start) 0 := by
  have hends : U.plainNodeEnds body p start = U.plainEnds p start := by simp [plainNodeEnds, hbody]
  have hnode : U.nodeVisits body p start = insert (l, start) V := by
    simp [nodeVisits, hbody, hvisits]
  have h := runs_remembering hlab hp hl (hends.symm ▸ hwork) hV hnode (hbody.symm ▸ hsteps)
  rwa [hends, ← hvisits] at h

/-! ### The search -/

theorem runs_led (lead : Bool) (F : Ends) :
    U.Runs body (if lead then U.skipping none F else pure F) (U.led lead F) ∅
      (U.ledSteps lead F) := by
  cases lead with
  | true =>
    exact (runs_bind (runs_tick (U.skipStops F).length) (runs_pure (U.skipStops F))).congr
      (Finset.union_empty ∅) (Nat.add_zero _)
  | false => exact runs_pure F

theorem runs_advance {part' : Nat → Search Ends} {part : Nat → Ends} {W : Nat → Finset Spot}
    {need : Nat} (hpart : ∀ pos, U.leaves need pos = true →
      U.Runs body (part' pos) (part pos) (W pos) 0) (rest : Nat) (F es : Ends) :
    U.Runs body (U.advance none part' need rest F es) (U.placed part rest (U.viable need F) es)
      (((U.viable need F).map Prod.fst).toFinset.biUnion W)
      (U.placingSteps part rest (U.viable need F) es) := by
  induction F generalizing es with
  | nil => exact runs_pure es
  | cons e F ih =>
    obtain ⟨pos, o⟩ := e
    rw [advance]
    by_cases hl : U.leaves need pos = true
    · rw [if_neg (not_lt.2 (leaves_iff.1 hl)), viable_cons_of_leaves hl, placed_cons, placingSteps,
        List.map_cons, List.toFinset_cons, Finset.biUnion_insert]
      refine (runs_bind (hpart pos hl) (runs_bind (runs_tick _) (ih _))).congr ?_ ?_
      · rw [Finset.empty_union]
      · rw [Nat.zero_add]
    · rw [if_pos (not_le.1 (mt leaves_iff.2 hl)), viable_cons_of_not_leaves hl]
      exact ih es

/-- The parts of a series.  The frontier `F'` that the search has may lack positions of the
frontier `F` that the plain search has, but none from which the parts can still be placed. -/
theorem runs_partEnds {ps : List Pattern}
    (hps : ∀ p ∈ ps, ∀ pos ≤ U.size,
      U.Runs body (U.ends none p pos) (U.plainEnds p pos) (U.visits p pos) 0)
    (outermost first : Bool) {F F' : Ends} (hF : U.Within F) (hF' : U.Within F')
    (heq : U.viable (Pattern.totalWidth ps) F' = U.viable (Pattern.totalWidth ps) F) :
    U.Runs body (U.partEnds none outermost first ps F')
      (U.led outermost (U.plainPartEnds (outermost || !first) ps F))
      (U.partVisits (outermost || !first) ps F')
      (U.partSteps outermost (outermost || !first) ps F') := by
  induction ps generalizing first F F' with
  | nil =>
    rw [Pattern.totalWidth, viable_zero hF, viable_zero hF'] at heq
    rw [partEnds, plainPartEnds, partVisits, partSteps, heq]
    exact runs_led outermost F
  | cons p ps ih =>
    have hpart : ∀ pos, U.leaves (Pattern.totalWidth (p :: ps)) pos = true →
        U.Runs body (U.ends none p pos) (U.plainEnds p pos) (U.visits p pos) 0 := fun pos hl =>
      hps p List.mem_cons_self pos (Nat.le_trans (Nat.le_add_right _ _) (leaves_iff.1 hl))
    have hled := viable_led_congr heq (outermost || !first)
    have hnext := viable_behind_congr hled
    have hwithin := within_behind (within_led hF (outermost || !first)) fun _ =>
      within_plainEnds (p := p)
    rw [partEnds_cons, plainPartEnds, partVisits, partSteps]
    have hadvance := runs_advance hpart (Pattern.totalWidth ps) (U.led (outermost || !first) F') []
    rw [placed_viable] at hadvance
    refine (runs_bind (runs_led _ F') (runs_bind hadvance ?_)).congr (Finset.empty_union _) rfl
    -- the search returns early if nothing viable is left; the plain search then comes to nothing
    by_cases hnil : U.viable (Pattern.totalWidth ps)
        (behind (U.plainEnds p) (U.led (outermost || !first) F')) = []
    · rw [hnil] at hnext ⊢
      rw [plainPartEnds_eq_nil hwithin hnext.symm, led_nil, partVisits_nil, partSteps_nil]
      exact runs_pure []
    · rw [if_neg (by simpa using hnil)]
      have h := ih (fun q hq => hps q (List.mem_cons_of_mem _ hq)) false hwithin
        (within_viable _ _) ((viable_viable _ _).trans hnext)
      rwa [Bool.not_false, Bool.or_true] at h

theorem runs_optionEnds {ps : List Pattern} {start : Nat}
    (hps : ∀ p ∈ ps, U.Runs body (U.ends none p start) (U.plainEnds p start) (U.visits p start) 0)
    (es : Ends) :
    U.Runs body (U.optionEnds none ps start es) (U.plainOptionEnds ps start es)
      (U.optionVisits ps start) 0 := by
  induction ps generalizing es with
  | nil => rw [optionEnds, plainOptionEnds, optionVisits]; exact runs_pure es
  | cons p ps ih =>
    rw [optionEnds, plainOptionEnds, optionVisits]
    refine runs_bind_zero (hps p List.mem_cons_self) ?_
    exact ih (fun q hq => hps q (List.mem_cons_of_mem _ hq)) (settleAll (U.plainEnds p start) es)

theorem runs_refuseForeign {parts : List Pattern} (h : ∀ p ∈ parts, p.firstForeign? = none) :
    U.Runs body (refuseForeign parts) () ∅ 0 := by
  have hnone : parts.reverse.findSome? Pattern.firstForeign? = none :=
    List.findSome?_eq_none_iff.2 fun p hp => h p (List.mem_reverse.1 hp)
  rw [refuseForeign, hnone]
  exact runs_pure ()

/-- The parts of a series of the phrase, from its start position on. -/
theorem runs_parts (hpure : body.firstForeign? = none) {p : Pattern} (hp : p ∈ body.nodes)
    {parts : List Pattern} (hchildren : p.children = parts)
    (hparts : ∀ q ∈ parts, ∀ pos ≤ U.size,
      U.Runs body (U.ends none q pos) (U.plainEnds q pos) (U.visits q pos) 0)
    (outermost : Bool) {start : Nat} (hstart : start ≤ U.size) :
    U.Runs body
      (refuseForeign parts >>= fun _ => U.partEnds none outermost true parts [(start, .free)])
      (U.led outermost (U.plainPartEnds outermost parts [(start, .free)]))
      (U.partVisits outermost parts [(start, .free)])
      (U.partSteps outermost outermost parts [(start, .free)]) := by
  have hnone : ∀ q ∈ parts, q.firstForeign? = none := fun q hq =>
    Pattern.firstForeign?_of_mem_nodes hpure (mem_nodes_child hp (hchildren ▸ hq))
  have hw : U.Within [(start, .free)] := fun e he => by
    rw [List.mem_singleton.1 he]
    exact hstart
  have hrun := runs_partEnds hparts outermost true hw hw rfl
  rw [Bool.not_true, Bool.or_false] at hrun
  exact (runs_bind_zero (runs_refuseForeign hnone) hrun).congr (Finset.empty_union _) rfl

/-- **The search below the body returns what the plain search returns**, and takes the steps of the
spots it rests on that are not yet remembered. -/
theorem runs_ends (hlab : body.IsLabelled) (hpure : body.firstForeign? = none) {p : Pattern}
    (hp : p ∈ body.nodes) (hbody : isBody body p = false) {start : Nat} (hstart : start ≤ U.size) :
    U.Runs body (U.ends none p start) (U.plainEnds p start) (U.visits p start) 0 := by
  induction p using Pattern.node_induction generalizing start with
  | word l literal optional =>
    rw [ends]
    refine runs_remembering_inner hlab hp hbody rfl (V := ∅) (k := 0) ?_ (Finset.notMem_empty _)
      (by rw [visits]; rfl) rfl
    rw [plainEnds]
    exact runs_pure _
  | wildcard l optional =>
    rw [ends]
    refine runs_remembering_inner hlab hp hbody rfl (V := ∅) ?_ (Finset.notMem_empty _)
      (by rw [visits]; rfl) rfl
    rw [plainEnds]
    exact (runs_bind (runs_tick (U.wildcardEnds optional start).length)
      (runs_pure (U.wildcardEnds optional start))).congr (Finset.union_empty ∅) (Nat.add_zero _)
  | choice l options optional ih =>
    have hoptions : ∀ q ∈ options,
        U.Runs body (U.ends none q start) (U.plainEnds q start) (U.visits q start) 0 := fun q hq =>
      ih q hq (mem_nodes_child hp hq) (isBody_child hlab hpure hp hq) hstart
    rw [ends]
    refine runs_remembering_inner hlab hp hbody rfl (V := U.optionVisits options start) (k := 0)
      ?_ ?_ (by rw [visits]) rfl
    · rw [plainEnds]
      refine (runs_bind_zero (runs_optionEnds hoptions []) ?_).congr (Finset.union_empty _) rfl
      exact runs_pure _
    · intro hmem
      obtain ⟨q, hq, hv⟩ := exists_of_mem_optionVisits hmem
      exact not_mem_visits_child hlab hp hq rfl start start hv
  | series l parts ih =>
    have hparts : ∀ q ∈ parts, ∀ pos ≤ U.size,
        U.Runs body (U.ends none q pos) (U.plainEnds q pos) (U.visits q pos) 0 := fun q hq _ hpos =>
      ih q hq (mem_nodes_child hp hq) (isBody_child hlab hpure hp hq) hpos
    rw [ends]
    refine runs_remembering_inner hlab hp hbody rfl
      (V := U.partVisits false parts [(start, .free)])
      (k := U.partSteps false false parts [(start, .free)]) ?_ ?_ (by rw [visits]) rfl
    · rw [plainEnds]
      exact runs_parts hpure hp rfl hparts false hstart
    · exact not_mem_partVisits hlab hp rfl rfl
  | slot l name inner kind ih =>
    have hinner : inner ∈ (Pattern.slot l name inner kind).children := List.mem_singleton.2 rfl
    rw [ends]
    refine runs_remembering_inner hlab hp hbody rfl (V := U.visits inner start) (k := 0)
      ?_ ?_ (by rw [visits]) rfl
    · rw [plainEnds]
      refine (runs_bind_zero (ih (mem_nodes_child hp hinner) (isBody_child hlab hpure hp hinner)
        hstart) ?_).congr (Finset.union_empty _) rfl
      exact runs_pure _
    · exact not_mem_visits_child hlab hp hinner rfl start start
  | foreign v =>
    have hv := Pattern.firstForeign?_of_mem_nodes hpure hp
    simp [Pattern.firstForeign?, Pattern.nodes, Pattern.foreign?] at hv

theorem runs_bodyEnds (hlab : body.IsLabelled) (hpure : body.firstForeign? = none) {l : Nat}
    {parts : List Pattern} (hbody : body = .series l parts) {start : Nat}
    (hstart : start ≤ U.size) :
    U.Runs body (U.bodyEnds none body start) (U.plainBodyEnds body start) (U.bodyVisits body start)
      0 := by
  have hself := Pattern.mem_nodes_self body
  have hchildren : body.children = parts := by rw [hbody]; rfl
  have hlabel : body.label? = some l := by rw [hbody]; rfl
  have hparts : ∀ q ∈ parts, ∀ pos ≤ U.size,
      U.Runs body (U.ends none q pos) (U.plainEnds q pos) (U.visits q pos) 0 := by
    intro q hq pos hpos
    have hq' : q ∈ body.children := hchildren ▸ hq
    exact runs_ends hlab hpure (mem_nodes_child hself hq') (isBody_child hlab hpure hself hq') hpos
  have hends : U.plainNodeEnds body body start =
      U.led true (U.plainPartEnds true parts [(start, .free)]) := by
    rw [plainNodeEnds, if_pos (isBody_self body), hbody]
    rfl
  have hvisits : U.nodeVisits body body start =
      insert (l, start) (U.partVisits true parts [(start, .free)]) := by
    rw [nodeVisits, if_pos (isBody_self body), hbody]
    rfl
  have hsteps : U.nodeSteps (isBody body body) body start =
      1 + U.partSteps true true parts [(start, .free)] := by
    rw [isBody_self, hbody]
    rfl
  have hrun := runs_remembering hlab hself hlabel
    (hends ▸ runs_parts hpure hself hchildren hparts true hstart)
    (not_mem_partVisits hlab hself hchildren hlabel) hvisits hsteps
  rw [← hvisits, nodeVisits, plainNodeEnds, if_pos (isBody_self body), if_pos (isBody_self body)]
    at hrun
  rw [hbody] at hrun ⊢
  exact hrun

/-- Whatever it remembers, the search for the ends of a node returns what the plain search
returns. -/
theorem runs_nodeEnds (hlab : body.IsLabelled) (hpure : body.firstForeign? = none) {l : Nat}
    {parts : List Pattern} (hbody : body = .series l parts) {p : Pattern} (hp : p ∈ body.nodes)
    {start : Nat} (hstart : start ≤ U.size) :
    U.Runs body (U.nodeEnds body none p start) (U.plainNodeEnds body p start)
      (U.nodeVisits body p start) 0 := by
  unfold nodeEnds plainNodeEnds nodeVisits
  by_cases hself : isBody body p = true
  · obtain ⟨k, hk⟩ := Pattern.exists_label (Pattern.firstForeign?_of_mem_nodes hpure hp)
    obtain rfl := (isBody_iff hlab hp hk).1 hself
    rw [if_pos hself, if_pos hself, if_pos hself]
    exact runs_bodyEnds hlab hpure hbody hstart
  · rw [if_neg hself, if_neg hself, if_neg hself]
    exact runs_ends hlab hpure hp (by simpa using hself) hstart

end Utterance

/-- **An attempt without a limit aligns the body as the plain search does**, and takes the steps of
all the spots that the body rests on. -/
theorem Phrase.align_none {P : Phrase} {U : Utterance} (hlab : P.body.IsLabelled)
    (hpure : P.body.firstForeign? = none) {l : Nat} {parts : List Pattern}
    (hbody : P.body = .series l parts) (spent : Nat) :
    P.align U none spent = (.ok ((U.plainBodyEnds P.body 0).get? U.size),
      spent + ∑ v ∈ U.bodyVisits P.body 0, U.spotSteps P.body v) := by
  obtain ⟨M, hrun, -, -⟩ := Utterance.runs_bodyEnds hlab hpure hbody (Nat.zero_le U.size)
    ⟨spent, ∅⟩ Utterance.remembers_empty
  have hmissing : U.missingSteps P.body ∅ (U.bodyVisits P.body 0) =
      ∑ v ∈ U.bodyVisits P.body 0, U.spotSteps P.body v := by
    rw [Utterance.missingSteps, Finset.filter_true_of_mem fun v _ => Std.TreeMap.not_mem_emptyc]
  rw [align, EStateM.run, hrun, hmissing]
  rfl

end IntentGrammar
