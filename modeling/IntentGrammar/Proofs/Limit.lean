import IntentGrammar.Proofs.Nodes
import IntentGrammar.Recognition
import Mathlib.Algebra.Order.Group.Nat

/-!
# Searches with a limit

A search with a limit does what the search without one does, up to the step that exceeds the limit.
`Search.Follows` says this of two computations, and each way of building a search out of smaller
ones keeps it; so it holds of the search for the ends of a pattern (`Utterance.follows_ends`) and of
an attempt as a whole (`Phrase.align_some`).
-/

namespace IntentGrammar

namespace Search

variable {α β : Type}

/-! ### Runs -/

/-- The progress at the end of a run, whether it stopped early or not. -/
def reached : EStateM.Result Stop Progress α → Progress
  | .ok _ s | .error _ s => s

theorem run_bind_ok {x : Search α} {f : α → Search β} {s t : Progress} {a : α}
    (h : x s = .ok a t) : (x >>= f) s = f a t := by
  show EStateM.bind x f s = f a t
  simp [EStateM.bind, h]

theorem run_bind_error {x : Search α} {f : α → Search β} {s t : Progress} {e : Stop}
    (h : x s = .error e t) : (x >>= f) s = .error e t := by
  show EStateM.bind x f s = .error e t
  simp [EStateM.bind, h]

theorem run_tick_none (count : Nat) (s : Progress) :
    tick none count s = .ok () ⟨s.steps + count, s.memory⟩ := rfl

theorem run_tick_some (limit count : Nat) (s : Progress) :
    tick (some limit) count s =
      if limit < s.steps + count then .error .exhausted ⟨s.steps + count, s.memory⟩
      else .ok () ⟨s.steps + count, s.memory⟩ := by
  simp [tick]

theorem run_remembering_hit {limit : Option Nat} {spot : Spot} {work : Search Ends} {s : Progress}
    {es : Ends} (h : s.memory[spot]? = some es) : remembering limit spot work s = .ok es s := by
  have hget : (get : Search Progress) s = .ok s s := rfl
  rw [remembering, run_bind_ok hget, h]
  rfl

theorem run_remembering_miss {limit : Option Nat} {spot : Spot} {work : Search Ends} {s : Progress}
    (h : s.memory[spot]? = none) :
    remembering limit spot work s =
      (do
        tick limit 1
        let es ← work
        modify fun s => { s with memory := s.memory.insert spot es }
        return es : Search Ends) s := by
  have hget : (get : Search Progress) s = .ok s s := rfl
  rw [remembering, run_bind_ok hget, h]

/-! ### Following the search without a limit -/

/-- Without a limit, `y` never takes steps back; `x`, which has a limit, does the same as long as
the steps are within the limit, and otherwise stops once they are not. -/
def Follows (limit : Nat) (x y : Search α) : Prop := ∀ s : Progress,
  s.steps ≤ (reached (y s)).steps ∧ (s.steps ≤ limit →
    ((reached (y s)).steps ≤ limit ∧ x s = y s) ∨
      ∃ t, x s = .error .exhausted t ∧ limit < t.steps ∧ t.steps ≤ (reached (y s)).steps)

variable {limit : Nat}

theorem follows_of_steps {x : Search α} (h : ∀ s, (reached (x s)).steps = s.steps) :
    Follows limit x x :=
  fun s => ⟨(h s).ge, fun hs => .inl ⟨(h s).trans_le hs, rfl⟩⟩

theorem follows_pure (a : α) : Follows limit (pure a) (pure a) := follows_of_steps fun _ => rfl

theorem follows_throw (e : Stop) : Follows limit (throw e : Search α) (throw e) :=
  follows_of_steps fun _ => rfl

theorem follows_tick (count : Nat) : Follows limit (tick (some limit) count) (tick none count) := by
  intro s
  rw [run_tick_none, run_tick_some]
  refine ⟨Nat.le_add_right _ _, fun _ => ?_⟩
  split
  · next hlt => exact .inr ⟨_, rfl, hlt, le_rfl⟩
  · next hle => exact .inl ⟨not_lt.1 hle, rfl⟩

theorem follows_bind {x y : Search α} {f g : α → Search β} (hxy : Follows limit x y)
    (hfg : ∀ a, Follows limit (f a) (g a)) : Follows limit (x >>= f) (y >>= g) := by
  intro s
  obtain ⟨hmono, hx⟩ := hxy s
  cases hy : y s with
  | error e t =>
    rw [hy] at hmono hx
    rw [run_bind_error hy]
    refine ⟨hmono, fun hs => ?_⟩
    -- whether `x` stops for the same reason or for the limit, `f` is not reached
    rcases hx hs with ⟨hle, heq⟩ | ⟨t', ht', hlt⟩
    · exact .inl ⟨hle, run_bind_error heq⟩
    · exact .inr ⟨t', run_bind_error ht', hlt⟩
  | ok a t =>
    rw [hy] at hmono hx
    rw [run_bind_ok hy]
    obtain ⟨hmono', hg⟩ := hfg a t
    refine ⟨le_trans hmono hmono', fun hs => ?_⟩
    rcases hx hs with ⟨hle, heq⟩ | ⟨t', ht', hlt, hle⟩
    · rw [run_bind_ok heq]
      exact hg hle
    · -- the first computation already exceeds the limit, so the second one is not reached
      exact .inr ⟨t', run_bind_error ht', hlt, le_trans hle hmono'⟩

theorem follows_remembering {spot : Spot} {x y : Search Ends} (h : Follows limit x y) :
    Follows limit (remembering (some limit) spot x) (remembering none spot y) := by
  intro s
  cases hs : s.memory[spot]? with
  | some es =>
    rw [run_remembering_hit hs, run_remembering_hit hs]
    exact follows_pure es s
  | none =>
    rw [run_remembering_miss hs, run_remembering_miss hs]
    refine follows_bind (follows_tick 1) (fun _ => follows_bind h fun es => ?_) s
    exact follows_bind (follows_of_steps fun _ => rfl) fun _ => follows_pure es

end Search

namespace Utterance

open Search

variable {U : Utterance} {limit : Nat}

/-! ### The search -/

/-- The parts of a series: the frontier is led over stopwords where that is allowed, then the first
part is placed behind it, and the others follow. -/
theorem partEnds_cons (limit : Option Nat) (outermost first : Bool) (p : Pattern)
    (ps : List Pattern) (frontier : Ends) :
    U.partEnds limit outermost first (p :: ps) frontier =
      (do
        let led ← (if outermost || !first then U.skipping limit frontier else pure frontier)
        let following ← U.advance limit (U.ends limit p) (Pattern.totalWidth (p :: ps))
          (Pattern.totalWidth ps) led []
        if following.isEmpty then return []
        else U.partEnds limit outermost false ps following) := by
  rw [partEnds]
  split <;> rfl

theorem follows_skipping (frontier : Ends) :
    Follows limit (U.skipping (some limit) frontier) (U.skipping none frontier) :=
  follows_bind (follows_tick _) fun _ => follows_pure _

theorem follows_advance {part part' : Nat → Search Ends}
    (h : ∀ pos, Follows limit (part pos) (part' pos)) (need rest : Nat) (frontier es : Ends) :
    Follows limit (U.advance (some limit) part need rest frontier es)
      (U.advance none part' need rest frontier es) := by
  induction frontier generalizing es with
  | nil => exact follows_pure es
  | cons e frontier ih =>
    obtain ⟨pos, o⟩ := e
    rw [advance, advance]
    split
    · exact ih es
    · exact follows_bind (h pos) fun found => follows_bind (follows_tick _) fun _ => ih _

theorem follows_refuseForeign (parts : List Pattern) :
    Follows limit (refuseForeign parts) (refuseForeign parts) := by
  unfold refuseForeign
  split
  · exact follows_throw _
  · exact follows_pure _

theorem follows_partEnds {parts : List Pattern}
    (h : ∀ p ∈ parts, ∀ pos, Follows limit (U.ends (some limit) p pos) (U.ends none p pos))
    (outermost first : Bool) (frontier : Ends) :
    Follows limit (U.partEnds (some limit) outermost first parts frontier)
      (U.partEnds none outermost first parts frontier) := by
  induction parts generalizing first frontier with
  | nil =>
    rw [partEnds, partEnds]
    split
    · exact follows_skipping frontier
    · exact follows_pure frontier
  | cons p ps ih =>
    rw [partEnds_cons, partEnds_cons]
    refine follows_bind ?_ fun led =>
      follows_bind (follows_advance (h p List.mem_cons_self) _ _ led []) fun following => ?_
    · split
      · exact follows_skipping frontier
      · exact follows_pure frontier
    · split
      · exact follows_pure []
      · exact ih (fun q hq => h q (List.mem_cons_of_mem _ hq)) false following

theorem follows_optionEnds {options : List Pattern}
    (h : ∀ p ∈ options, ∀ pos, Follows limit (U.ends (some limit) p pos) (U.ends none p pos))
    (start : Nat) (es : Ends) :
    Follows limit (U.optionEnds (some limit) options start es)
      (U.optionEnds none options start es) := by
  induction options generalizing es with
  | nil => rw [optionEnds, optionEnds]; exact follows_pure es
  | cons p ps ih =>
    rw [optionEnds, optionEnds]
    exact follows_bind (h p List.mem_cons_self start) fun found =>
      ih (fun q hq => h q (List.mem_cons_of_mem _ hq)) _

/-- **A limit only cuts a search short.**  The search for the ends of a pattern does the same with
a limit as without, until it exceeds the limit. -/
theorem follows_ends (p : Pattern) (start : Nat) :
    Follows limit (U.ends (some limit) p start) (U.ends none p start) := by
  induction p using Pattern.node_induction generalizing start with
  | word l literal optional =>
    rw [ends, ends]
    exact follows_remembering (follows_pure _)
  | wildcard l optional =>
    rw [ends, ends]
    exact follows_remembering (follows_bind (follows_tick _) fun _ => follows_pure _)
  | choice l options optional ih =>
    rw [ends, ends]
    exact follows_remembering (follows_bind (follows_optionEnds ih start []) fun _ =>
      follows_pure _)
  | series l parts ih =>
    rw [ends, ends]
    exact follows_remembering (follows_bind (follows_refuseForeign parts) fun _ =>
      follows_partEnds ih false true _)
  | slot l name inner kind ih =>
    rw [ends, ends]
    exact follows_remembering (follows_bind (ih start) fun _ => follows_pure _)
  | foreign v =>
    rw [ends, ends]
    exact follows_bind (follows_tick 1) fun _ => follows_throw _

theorem follows_bodyEnds (p : Pattern) (start : Nat) :
    Follows limit (U.bodyEnds (some limit) p start) (U.bodyEnds none p start) := by
  cases p with
  | series l parts =>
    rw [bodyEnds, bodyEnds]
    exact follows_remembering (follows_bind (follows_refuseForeign parts) fun _ =>
      follows_partEnds (fun p _ => follows_ends p) true true _)
  | _ => exact follows_ends _ start

end Utterance

namespace Phrase

open Search

variable {P : Phrase} {U : Utterance}

/-! ### Attempts -/

theorem align_snd (limit : Option Nat) (spent : Nat) :
    (P.align U limit spent).2 = (reached (U.bodyEnds limit P.body 0 ⟨spent, ∅⟩)).steps := by
  unfold align
  rw [EStateM.run]
  cases U.bodyEnds limit P.body 0 ⟨spent, ∅⟩ <;> rfl

theorem align_congr {limit limit' : Option Nat} {spent : Nat}
    (h : U.bodyEnds limit P.body 0 ⟨spent, ∅⟩ = U.bodyEnds limit' P.body 0 ⟨spent, ∅⟩) :
    P.align U limit spent = P.align U limit' spent := by
  unfold align
  rw [EStateM.run, EStateM.run, h]

/-- An attempt within the limit goes as without a limit; one that needs more is exhausted. -/
theorem align_some {limit spent : Nat} (h : spent ≤ limit) :
    ((P.align U none spent).2 ≤ limit ∧ P.align U (some limit) spent = P.align U none spent) ∨
      ∃ n, P.align U (some limit) spent = (.error .exhausted, n) ∧ limit < n ∧
        n ≤ (P.align U none spent).2 := by
  have hfollows : Follows limit (U.bodyEnds (some limit) P.body 0) (U.bodyEnds none P.body 0) :=
    Utterance.follows_bodyEnds P.body 0
  rw [align_snd]
  rcases (hfollows ⟨spent, ∅⟩).2 h with ⟨hle, heq⟩ | ⟨t, ht, hlt, hle⟩
  · exact .inl ⟨hle, align_congr heq⟩
  · refine .inr ⟨t.steps, ?_, hlt, hle⟩
    unfold align
    rw [EStateM.run, ht]

/-- A budget that is overdrawn does not even allow the first step. -/
theorem align_some_of_lt {limit spent l : Nat} {parts : List Pattern}
    (hbody : P.body = .series l parts) (h : limit < spent) :
    P.align U (some limit) spent = (.error .exhausted, spent + 1) := by
  have hmiss : (∅ : Memory)[(l, 0)]? = none := Std.TreeMap.getElem?_emptyc
  have hrun : U.bodyEnds (some limit) P.body 0 ⟨spent, ∅⟩ =
      .error .exhausted ⟨spent + 1, ∅⟩ := by
    rw [hbody, Utterance.bodyEnds, run_remembering_miss hmiss]
    refine run_bind_error ?_
    rw [run_tick_some, if_pos (show limit < spent + 1 by omega)]
  unfold align
  rw [EStateM.run, hrun]

theorem le_align_snd (spent : Nat) : spent ≤ (P.align U none spent).2 := by
  have hfollows : Follows 0 (U.bodyEnds (some 0) P.body 0) (U.bodyEnds none P.body 0) :=
    Utterance.follows_bodyEnds P.body 0
  rw [align_snd]
  exact (hfollows ⟨spent, ∅⟩).1

variable (P) in
/-- What is reported of an alignment. -/
def report (tokens : List Token) (text : Option String) (o : Outcome) : Recognition :=
  ⟨text.getD (Token.render tokens), captures tokens o.spans, P, o⟩

/-- The attempt is given up because its budget is exceeded. -/
def Exceeds (result : Except AttemptFault (Option Recognition) × Budget) : Prop :=
  ∃ spent limit source, result.1 = .error (.exhausted spent limit source)

theorem not_exceeds_of_ok {result : Except AttemptFault (Option Recognition) × Budget}
    {found : Option Recognition} (h : result.1 = .ok found) : ¬ Exceeds result := by
  rintro ⟨spent, limit, source, hex⟩
  cases h.symm.trans hex

theorem not_exceeds_of_isOk {result : Except AttemptFault (Option Recognition) × Budget}
    (h : result.1.isOk = true) : ¬ Exceeds result := by
  rintro ⟨spent, limit, source, hex⟩
  rw [hex] at h
  cases h

theorem exceeds_of_align {text : Option String} {budget : Budget} {n : Nat}
    (h : P.align U (some budget.limit) budget.spent = (.error .exhausted, n)) :
    Exceeds (P.recognise U.lexicon U.tokens text budget) :=
  ⟨n, budget.limit, P.source, by simp only [recognise, h]⟩

section

variable {budget : Budget} {found : Option Outcome} {n : Nat}

/-- An attempt for which the budget suffices reports what the search without a limit finds. -/
theorem recognise_of_le (hfound : P.align U none budget.spent = (.ok found, n))
    (hn : n ≤ budget.limit) (text : Option String) :
    P.recognise U.lexicon U.tokens text budget =
      (.ok (found.map (P.report U.tokens text)), { budget with spent := n }) := by
  have hspent : budget.spent ≤ n := by
    have h := le_align_snd (P := P) (U := U) budget.spent
    rwa [hfound] at h
  rcases align_some (P := P) (U := U) (Nat.le_trans hspent hn) with ⟨-, heq⟩ | ⟨m, -, hlt, hle⟩
  · simp only [recognise, heq, hfound]
    cases found <;> rfl
  · rw [hfound] at hle
    dsimp only at hle
    omega

/-- An attempt exceeds its budget exactly if the search without a limit takes more steps. -/
theorem exceeds_iff {l : Nat} {parts : List Pattern} (hbody : P.body = .series l parts)
    {text : Option String} (hfound : P.align U none budget.spent = (.ok found, n)) :
    Exceeds (P.recognise U.lexicon U.tokens text budget) ↔ budget.limit < n := by
  constructor
  · intro hex
    by_contra hle
    have heq := recognise_of_le hfound (Nat.not_lt.1 hle) text
    exact not_exceeds_of_ok (congrArg Prod.fst heq) hex
  · intro hlt
    by_cases hspent : budget.spent ≤ budget.limit
    · rcases align_some (P := P) (U := U) hspent with ⟨hle, -⟩ | ⟨m, hm, -⟩
      · rw [hfound] at hle
        dsimp only at hle
        omega
      · exact exceeds_of_align hm
    · exact exceeds_of_align (align_some_of_lt hbody (Nat.not_le.1 hspent))

/-- An attempt that keeps within its budget reports what the search without a limit finds. -/
theorem recognise_of_not_exceeds {l : Nat} {parts : List Pattern}
    (hbody : P.body = .series l parts) {text : Option String}
    (hfound : P.align U none budget.spent = (.ok found, n))
    (hbudget : ¬ Exceeds (P.recognise U.lexicon U.tokens text budget)) :
    P.recognise U.lexicon U.tokens text budget =
      (.ok (found.map (P.report U.tokens text)), { budget with spent := n }) :=
  recognise_of_le hfound (Nat.not_lt.1 fun hlt => hbudget ((exceeds_iff hbody hfound).2 hlt)) text

end

end Phrase

end IntentGrammar
