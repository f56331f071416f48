import IntentGrammar.Proofs.Grouping

/-!
# Widening a group

A group of a body may be widened: by one more option behind those it has, or by leave to omit it.
What was recognised before still is, and at no higher cost.

An alignment by first options stays one (`Utterance.Takes.widen`).  The options that were there
have the same options in front of them, so the group takes as before what it took by one of them;
where it was left out, the new option may come to take the empty run instead, which costs nothing
either (`Utterance.Takes.eq_free`).  New alignments may be cheaper, and then one of them is
reported.

The group has to be a part of the body itself.  Inside an option of another choice it might reach
ends that belonged to a later option of that choice, at a higher cost.

* `Phrase.recognise_widened` : **a wider group recognises as much, at no higher cost.**
-/

namespace IntentGrammar

namespace Pattern

/-- The second pattern is the choice that the first one is, with one option more behind the others,
or with leave to omit it. -/
inductive Widens : Pattern → Pattern → Prop
  | option {l l' : Nat} {options : List Pattern} {optional : Bool} (new : Pattern) :
    Widens (.choice l options optional) (.choice l' (options ++ [new]) optional)
  | optional {l l' : Nat} {options : List Pattern} {optional : Bool} :
    Widens (.choice l options optional) (.choice l' options true)

/-- To forget the labels is to give all nodes the same. -/
theorem relabel_zero (p : Pattern) : p.relabel (fun _ => 0) = p.plain := by
  have hall (ps : List Pattern) (h : ∀ p ∈ ps, p.relabel (fun _ => 0) = p.plain) :
      relabelAll (fun _ => 0) ps = plainAll ps := by
    rw [relabelAll_eq, plainAll_eq]
    exact List.map_congr_left h
  induction p using node_induction with
  | word l literal optional => rfl
  | wildcard l optional => rfl
  | choice l options optional ih => rw [relabel, plain, hall options ih]
  | series l parts ih => rw [relabel, plain, hall parts ih]
  | slot l name inner kind ih => rw [relabel, plain, ih]
  | foreign v => rfl

end Pattern

namespace Utterance

variable {U : Utterance} {R : OptionRule}

/-- Bodies that differ in their labels only have the same ends. -/
theorem plainBodyEnds_congr {ps qs : List Pattern} (h : Pattern.plainAll ps = Pattern.plainAll qs)
    (l l' start : Nat) :
    U.plainBodyEnds (.series l ps) start = U.plainBodyEnds (.series l' qs) start := by
  have hplain : (Pattern.series l ps).plain = (Pattern.series l' qs).plain := by
    rw [Pattern.plain, Pattern.plain, h]
  rw [← plainBodyEnds_relabel (fun _ => 0) l ps, ← plainBodyEnds_relabel (fun _ => 0) l' qs,
    Pattern.relabel_zero, Pattern.relabel_zero, hplain]

/-! ### Runs without a token -/

theorem TakesAll.eq_free_of {lead : Bool} {ps : List Pattern} {s : Nat} {o : Outcome}
    (hps : ∀ p ∈ ps, ∀ o, U.Takes R p s s o → o = .free) (h : U.TakesAll R lead ps s s o) :
    o = .free := by
  induction ps generalizing lead o with
  | nil => exact (takesAll_nil.1 h).2
  | cons p ps ih =>
    obtain ⟨n, m, a, b, -, -, hp, hrest, rfl⟩ := takesAll_cons.1 h
    -- nothing lies between the start and the end, so nothing was skipped either
    have hfirst := hp.le
    have hlast := hrest.totalWidth_le
    obtain rfl : n = 0 := by omega
    obtain rfl : m = s := by omega
    rw [hps p List.mem_cons_self a hp, ih (fun q hq => hps q (List.mem_cons_of_mem _ hq)) hrest]
    rfl

/-- A run without a token costs nothing, and no span is recorded for it. -/
theorem Takes.eq_free {p : Pattern} {s : Nat} {o : Outcome} (h : U.Takes R p s s o) :
    o = .free := by
  induction p using Pattern.node_induction generalizing o with
  | word l literal optional =>
    rcases takes_word.1 h with ⟨-, -, rfl⟩ | ⟨-, -, rfl⟩ <;> rfl
  | wildcard l optional =>
    rcases takes_wildcard.1 h with ⟨hlt, -, -⟩ | ⟨-, -, rfl⟩
    · exact absurd hlt (Nat.lt_irrefl s)
    · rfl
  | choice l options optional ih =>
    rcases takes_choice.1 h with ⟨before, p, after, rfl, -, hp⟩ | ⟨-, -, rfl, -⟩
    · exact ih p (by simp) hp
    · rfl
  | series l parts ih =>
    exact (takes_series.1 h).eq_free_of fun p hp o => ih p hp
  | slot l name inner kind ih =>
    obtain ⟨a, ha, rfl⟩ := takes_slot.1 h
    rw [ih ha, Outcome.spanning, if_neg (Nat.lt_irrefl s), Outcome.andThen_free]
  | foreign v => exact absurd h not_takes_foreign

/-! ### Wider groups -/

variable {p q : Pattern} {xs zs : List Pattern} {s e : Nat} {o : Outcome}

/-- What a group takes by first options it takes when it is wider, with the same outcome. -/
theorem Takes.widen (h : p.Widens q) (hp : U.Takes U.firstOption p s e o) :
    U.Takes U.firstOption q s e o := by
  cases h with
  | option new =>
    rcases takes_choice.1 hp with ⟨before, p, after, rfl, hbefore, hp⟩ | ⟨rfl, rfl, rfl, hall⟩
    · rw [List.append_assoc, List.cons_append]
      exact .option hbefore hp
    · -- the group was left out: now the new option goes first, if it can do without a token
      by_cases hnew : ∃ a, U.Takes anyOption new e e a
      · obtain ⟨a, ha⟩ := hnew
        obtain ⟨b, hb⟩ := ha.exists_first
        obtain rfl := hb.eq_free
        exact .option hall hb
      · refine .noOption fun p hp a ha => ?_
        rcases List.mem_append.1 hp with hold | hlast
        · exact hall p hold a ha
        · rw [List.mem_singleton.1 hlast] at ha
          exact hnew ⟨a, ha⟩
  | optional =>
    rcases takes_choice.1 hp with ⟨before, p, after, rfl, hbefore, hp⟩ | ⟨-, rfl, rfl, hall⟩
    · exact .option hbefore hp
    · exact .noOption hall

/-- **An alignment of a body stays one where a group of it is widened.** -/
theorem TakesBody.widen (h : p.Widens q) (hbody : U.TakesBody U.firstOption (xs ++ p :: zs) s e o) :
    U.TakesBody U.firstOption (xs ++ q :: zs) s e o := by
  obtain ⟨hall, hstop⟩ := hbody
  obtain ⟨m, a, b, hxs, hgroup, rfl⟩ := takesAll_append.1 hall
  obtain ⟨n, k, c, d, hlead, hskip, hp, hzs, rfl⟩ := takesAll_cons.1 hgroup
  exact ⟨takesAll_append.2 ⟨m, a, _, hxs, .cons hlead hskip (hp.widen h) hzs, rfl⟩, hstop⟩

end Utterance

namespace Phrase

variable {P Q : Phrase} {p q : Pattern} {xs zs parts : List Pattern} {U : Utterance}
  {text text' : Option String} {budget budget' : Budget}

/-- **A wider group recognises as much, at no higher cost.**  If an utterance is recognised, then
the phrase in which a group of the body has one more option at the end, or may be left out,
recognises it as well, by every attempt that keeps within its budget, and the score is no higher.
How the nodes of the wider phrase are labelled makes no difference. -/
theorem recognise_widened (h : p.Widens q) (hP : P.WellFormed (xs ++ p :: zs))
    (hQ : Q.WellFormed parts)
    (hparts : Pattern.plainAll parts = Pattern.plainAll (xs ++ q :: zs)) {r : Recognition}
    (hr : (P.recognise U.lexicon U.tokens text budget).1 = .ok (some r))
    (hbudget : ¬ Exceeds (Q.recognise U.lexicon U.tokens text' budget')) :
    ∃ r', (Q.recognise U.lexicon U.tokens text' budget').1 = .ok (some r') ∧
      toLex r'.score ≤ toLex r.score := by
  obtain ⟨l, hbody⟩ := hQ.body_eq
  obtain ⟨-, -, hcovers⟩ := covers_of_recognise hP hr
  -- the alignment that was reported is one of those that the wider phrase chooses from
  obtain ⟨o, ho, hcost⟩ :=
    (Utterance.lists_plainBodyEnds l (xs ++ q :: zs) 0).best (hcovers.widen h)
  have hget : (U.plainBodyEnds Q.body 0).get? U.size = some o := by
    rw [hbody, Utterance.plainBodyEnds_congr hparts l l]
    exact Ends.get?_of_mem (Utterance.ascending_plainBodyEnds l _ 0) ho
  have hreport := congrArg Prod.fst (recognise_eq hQ hbudget)
  rw [hget] at hreport
  exact ⟨_, hreport, hcost⟩

/-- The parts of a phrase: a group, perhaps some words, and `door`. -/
def doorParts (group : Pattern) : List Pattern :=
  [group, .wildcard 1 true, .word 2 "door" false]

/-- The group of `(red) *? door`. -/
def redGroup : Pattern := .choice 3 [.word 4 "red" false] false

/-- The group of `(red | red blue) *? door`. -/
def redBlueGroup : Pattern :=
  .choice 5 ([.word 4 "red" false] ++ [.series 6 [.word 7 "red" false, .word 8 "blue" false]]) false

/-- The group of `(red |) *? door`. -/
def redOrNothing : Pattern := .choice 9 [.word 4 "red" false] true

theorem wellFormed_door {group : Pattern}
    (hlabels : ((Pattern.series 0 (doorParts group)).nodes.filterMap Pattern.label?).Nodup)
    (hpure : (Pattern.series 0 (doorParts group)).firstForeign? = none) :
    (ofParts (doorParts group)).WellFormed (doorParts group) where
  body_eq := ⟨0, rfl⟩
  isLabelled := Pattern.isLabelled_of_nodup hlabels
  firstForeign?_eq := hpure

/-- Two words are wild behind `red`; with `red blue` for an option as well, there can only be
fewer, and leave to omit the group does no harm. -/
theorem door_widened :
    (∃ r, ((ofParts (doorParts redBlueGroup)).recognise .english
        (Token.tokenize "red blue green door") none ⟨100, 0⟩).1 = .ok (some r) ∧
      toLex r.score ≤ toLex (0, 2)) ∧
    ∃ r, ((ofParts (doorParts redOrNothing)).recognise .english
        (Token.tokenize "red blue green door") none ⟨100, 0⟩).1 = .ok (some r) ∧
      toLex r.score ≤ toLex (0, 2) := by
  obtain ⟨r, hr, houtcome⟩ : ∃ r : Recognition, ((ofParts (doorParts redGroup)).recognise .english
      (Token.tokenize "red blue green door") none ⟨100, 0⟩).1 = .ok (some r) ∧
        r.outcome = ⟨0, 2, []⟩ := exists_recognition (by decide +kernel)
  have hscore : r.score = (0, 2) := by rw [Recognition.score, houtcome]
  have hred : (ofParts (doorParts redGroup)).WellFormed ([] ++ redGroup :: _) :=
    wellFormed_door (by decide) (by decide)
  rw [← hscore]
  exact ⟨recognise_widened (U := ⟨Token.tokenize "red blue green door", .english⟩)
      (.option (.series 6 [.word 7 "red" false, .word 8 "blue" false])) hred
      (wellFormed_door (by decide) (by decide)) rfl hr (not_exceeds_of_isOk (by decide +kernel)),
    recognise_widened (U := ⟨Token.tokenize "red blue green door", .english⟩) .optional hred
      (wellFormed_door (by decide) (by decide)) rfl hr (not_exceeds_of_isOk (by decide +kernel))⟩

end Phrase

end IntentGrammar
