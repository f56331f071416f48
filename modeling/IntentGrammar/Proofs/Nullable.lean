import IntentGrammar.Proofs.Reports
import IntentGrammar.Proofs.Template.Compiled

/-!
# Patterns that take nothing

A pattern is `nullable` if it can be aligned without a token: a word or a wildcard if it is marked
optional, a choice also if one of its options is nullable, a series if all of its parts are.  Which
tokens there are makes no difference (`Utterance.exists_takes_self_iff`).

The flag of a choice says less than that.  A group is marked when it has an empty option, and a
word with a fragment when nothing is left without the fragment, but an option of optional parts does
not mark its group.

* `Phrase.reports_past_start` : **a node that is not marked takes a token, unless it is a choice
  with a nullable option**, and then it does not always take one.
-/

namespace IntentGrammar

namespace Pattern

mutual

/-- The pattern can be aligned without a token. -/
def nullable : Pattern → Bool
  | .word _ _ optional | .wildcard _ optional => optional
  | .choice _ options optional => optional || anyNullable options
  | .series _ parts => allNullable parts
  | .slot _ _ inner _ => inner.nullable
  | .foreign _ => false

/-- Some pattern of a list can be aligned without a token. -/
def anyNullable : List Pattern → Bool
  | [] => false
  | p :: ps => p.nullable || anyNullable ps

/-- All patterns of a list can be aligned without a token. -/
def allNullable : List Pattern → Bool
  | [] => true
  | p :: ps => p.nullable && allNullable ps

end

theorem anyNullable_eq (ps : List Pattern) : anyNullable ps = ps.any nullable := by
  induction ps with
  | nil => rfl
  | cons p ps ih => rw [anyNullable, ih, List.any_cons]

theorem allNullable_eq (ps : List Pattern) : allNullable ps = ps.all nullable := by
  induction ps with
  | nil => rfl
  | cons p ps ih => rw [allNullable, ih, List.all_cons]

end Pattern

namespace Utterance

variable {U : Utterance} {s : Nat}

/-- A row of parts takes no token just when none of them does. -/
theorem exists_takesAll_self_iff {ps : List Pattern} {lead : Bool} :
    (∃ o, U.TakesAll anyOption lead ps s s o) ↔ ∀ p ∈ ps, ∃ o, U.Takes anyOption p s s o := by
  induction ps generalizing lead with
  | nil => exact iff_of_true ⟨.free, .nil⟩ nofun
  | cons p ps ih =>
    rw [List.forall_mem_cons, ← @ih true]
    constructor
    · rintro ⟨o, h⟩
      obtain ⟨n, m, a, b, -, -, hp, hps, -⟩ := takesAll_cons.1 h
      -- nothing lies between the start and the end, so nothing was skipped either
      have hfirst := hp.le
      have hrest := hps.totalWidth_le
      obtain rfl : n = 0 := by omega
      obtain rfl : m = s := by omega
      exact ⟨⟨a, hp⟩, b, hps⟩
    · rintro ⟨⟨a, hp⟩, b, hps⟩
      exact ⟨_, .cons (fun _ => rfl) (stopsAt_zero s) hp hps⟩

/-- **A pattern can be aligned without a token just when it is nullable.** -/
theorem exists_takes_self_iff (p : Pattern) :
    (∃ o, U.Takes anyOption p s s o) ↔ p.nullable = true := by
  induction p using Pattern.node_induction with
  | word l literal optional => simp [takes_word, Pattern.nullable]
  | wildcard l optional => simp [takes_wildcard, Pattern.nullable]
  | choice l options optional ih =>
    rw [Pattern.nullable, Pattern.anyNullable_eq, Bool.or_eq_true, List.any_eq_true, or_comm]
    constructor
    · rintro ⟨o, h⟩
      rcases takes_choice.1 h with ⟨before, p, after, rfl, -, hp⟩ | ⟨rfl, -⟩
      · exact .inl ⟨p, by simp, (ih p (by simp)).1 ⟨o, hp⟩⟩
      · exact .inr rfl
    · rintro (⟨p, hp, hnull⟩ | rfl)
      · obtain ⟨o, ho⟩ := (ih p hp).2 hnull
        obtain ⟨before, after, rfl⟩ := List.append_of_mem hp
        exact ⟨o, .option trivial ho⟩
      · exact ⟨.free, .noOption trivial⟩
  | series l parts ih =>
    rw [Pattern.nullable, Pattern.allNullable_eq, List.all_eq_true]
    simp only [takes_series, exists_takesAll_self_iff]
    exact forall₂_congr ih
  | slot l name inner kind ih =>
    rw [Pattern.nullable, ← ih]
    constructor
    · rintro ⟨o, h⟩
      obtain ⟨a, ha, -⟩ := takes_slot.1 h
      exact ⟨a, ha⟩
    · rintro ⟨a, ha⟩
      exact ⟨_, .slot ha⟩
  | foreign v => exact iff_of_false (fun ⟨_, h⟩ => not_takes_foreign h) (by simp [Pattern.nullable])

end Utterance

namespace Phrase

variable {P : Phrase} {parts : List Pattern} {U : Utterance} {q : Pattern} {s : Nat}

theorem Reports.lt (h : P.WellFormed parts) (hq : q ∈ P.body.nodes) (hne : q ≠ P.body)
    (hnull : q.nullable = false) {e : Nat} {o : Outcome} (ho : P.Reports U q s e o) : s < e := by
  have htakes := ho.takes h hq hne
  refine lt_of_le_of_ne htakes.le ?_
  rintro rfl
  cases hnull.symm.trans ((Utterance.exists_takes_self_iff q).1 ⟨o, htakes.any⟩)

/-- All ends that are reported for a node below the body lie behind its start just when the node is
not nullable. -/
theorem forall_reports_lt_iff (h : P.WellFormed parts) (hq : q ∈ P.body.nodes) (hne : q ≠ P.body)
    (hs : s ≤ U.size) :
    (∀ e o, P.Reports U q s e o → s < e) ↔ q.nullable = false := by
  refine ⟨fun hlt => ?_, fun hnull e o => Reports.lt h hq hne hnull⟩
  rw [← Bool.not_eq_true, ← Utterance.exists_takes_self_iff (U := U) (s := s),
    ← exists_reports_iff h hq hne hs]
  rintro ⟨o, ho⟩
  exact absurd (hlt s o ho) (lt_irrefl s)

open Template

/-- **What a node that is not marked optional takes.**  In a compiled phrase, a word and a wildcard
without the mark take at least one token, wherever they are searched for.  A choice without it does
so just when none of its options is nullable. -/
theorem reports_past_start {E : Entities} (hE : E.Usable) {intent : Option String}
    {template : String} (hP : compile E intent template = .ok P) :
    (∀ l literal, Pattern.word l literal false ∈ P.body.nodes →
      ∀ e o, P.Reports U (.word l literal false) s e o → s < e) ∧
    (∀ l, Pattern.wildcard l false ∈ P.body.nodes →
      ∀ e o, P.Reports U (.wildcard l false) s e o → s < e) ∧
    ∀ l options, Pattern.choice l options false ∈ P.body.nodes → s ≤ U.size →
      ((∀ e o, P.Reports U (.choice l options false) s e o → s < e) ↔
        ∀ p ∈ options, p.nullable = false) := by
  obtain ⟨parts, h⟩ := wellFormed_of_compile hE hP
  obtain ⟨l₀, hbody⟩ := h.body_eq
  refine ⟨fun l literal hq => ?_, fun l hq => ?_, fun l options hq hs => ?_⟩
  · exact fun e o => Reports.lt h hq (by rw [hbody]; nofun) rfl
  · exact fun e o => Reports.lt h hq (by rw [hbody]; nofun) rfl
  · rw [forall_reports_lt_iff h hq (by rw [hbody]; nofun) hs, Pattern.nullable,
      Pattern.anyNullable_eq, Bool.false_or, List.any_eq_false]
    simp only [Bool.not_eq_true]

/-- The options of the group in `turn (on | off now?)`. -/
def turnOptions : List Pattern :=
  [.word 3 "on" false, .series 4 [.word 5 "off" false, .word 6 "now" true]]

/-- The phrase `turn (on | off now?)`. -/
def turning : Phrase where
  body := .series 0 [.word 1 "turn" false, .choice 2 turnOptions false]
  intent := none
  tags := []
  source := "turn (on | off now?)"

/-- The group takes a token, also where there is none. -/
theorem turning_past_start : compile Entities.none none "turn (on | off now?)" = .ok turning ∧
    ∀ e o, turning.Reports ⟨Token.tokenize "turn", .english⟩ (.choice 2 turnOptions false) 1 e o →
      1 < e := by
  have hP : compile Entities.none none "turn (on | off now?)" = .ok turning := by
    with_unfolding_all rfl
  have hq : Pattern.choice 2 turnOptions false ∈ turning.body.nodes := by
    simp [turning, Pattern.nodes, Pattern.nodesOfAll]
  exact ⟨hP, ((reports_past_start Entities.usable_none hP).2.2 _ _ hq (by decide)).2 (by decide)⟩

/-- The phrase `(a? | b)`. -/
def optionalOption : Phrase where
  body := .series 0 [.choice 1 [.word 2 "a" true, .word 3 "b" false] false]
  intent := none
  tags := []
  source := "(a? | b)"

/-- The group of `(a? | b)` is not marked optional, and an end is reported at its start. -/
theorem optionalOption_at_start :
    compile Entities.none none "(a? | b)" = .ok optionalOption ∧
      ∃ l options, Pattern.choice l options false ∈ optionalOption.body.nodes ∧
        optionalOption.Reports ⟨[], .empty⟩ (.choice l options false) 0 0 .free := by
  have hP : compile Entities.none none "(a? | b)" = .ok optionalOption := by
    with_unfolding_all rfl
  obtain ⟨parts, h⟩ := wellFormed_of_compile Entities.usable_none hP
  have hq : Pattern.choice 1 [.word 2 "a" true, .word 3 "b" false] false ∈
      optionalOption.body.nodes := by
    simp [optionalOption, Pattern.nodes, Pattern.nodesOfAll]
  exact ⟨hP, _, _, hq, (reports_iff h hq (Nat.zero_le _)).2 (by decide)⟩

end Phrase

end IntentGrammar
