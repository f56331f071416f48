import IntentGrammar.Proofs.Budgets
import Mathlib.Computability.Language

/-!
# The language of a pattern

`Pattern.language` is the set of the lists of words that a pattern describes, said without tokens,
positions or costs: a choice is a sum, a series a product.

A lexicon that knows no words adds nothing to it: a pattern then takes exactly the runs that belong
to its language (`Utterance.exists_takes_iff`), and a phrase recognises exactly the utterances that
belong to the language of its body (`Phrase.isSome_found_iff`).
-/

namespace IntentGrammar

namespace Pattern

/-- One list of words. -/
def just (words : List String) : Language String := {ws | ws = words}

/-- Every list that has a word. -/
def something : Language String := {ws | ws ≠ []}

/-- The empty list, where a pattern is optional. -/
def leftOut (optional : Bool) : Language String := {ws | optional = true ∧ ws = []}

mutual

/-- The lists of folded words that a pattern describes. -/
def language : Pattern → Language String
  | .word _ literal optional => just [key literal] + leftOut optional
  | .wildcard _ optional => something + leftOut optional
  | .choice _ options optional => languageOfAny options + leftOut optional
  | .series _ parts => languageOfAll parts
  | .slot _ _ inner _ => inner.language
  | .foreign _ => 0

/-- The lists of words that one of the patterns describes. -/
def languageOfAny : List Pattern → Language String
  | [] => 0
  | p :: ps => p.language + languageOfAny ps

/-- The lists of words that the patterns describe one after the other. -/
def languageOfAll : List Pattern → Language String
  | [] => 1
  | p :: ps => p.language * languageOfAll ps

end

section

variable {ws : List String} {l : Nat} {optional : Bool}

theorem mem_leftOut : ws ∈ leftOut optional ↔ optional = true ∧ ws = [] := Iff.rfl

theorem mem_language_word {literal : String} :
    ws ∈ (word l literal optional).language ↔
      ws = [key literal] ∨ optional = true ∧ ws = [] := by
  rw [language, Language.mem_add, mem_leftOut]
  rfl

theorem mem_language_wildcard :
    ws ∈ (wildcard l optional).language ↔ ws ≠ [] ∨ optional = true ∧ ws = [] := by
  rw [language, Language.mem_add, mem_leftOut]
  rfl

theorem mem_languageOfAny {ps : List Pattern} :
    ws ∈ languageOfAny ps ↔ ∃ p ∈ ps, ws ∈ p.language := by
  induction ps with
  | nil => simp [languageOfAny]
  | cons p ps ih => rw [languageOfAny, Language.mem_add, ih, List.exists_mem_cons_iff]

theorem mem_language_choice {options : List Pattern} :
    ws ∈ (choice l options optional).language ↔
      (∃ p ∈ options, ws ∈ p.language) ∨ optional = true ∧ ws = [] := by
  rw [language, Language.mem_add, mem_leftOut, mem_languageOfAny]

theorem mem_languageOfAll_cons {p : Pattern} {ps : List Pattern} :
    ws ∈ languageOfAll (p :: ps) ↔
      ∃ us ∈ p.language, ∃ vs ∈ languageOfAll ps, us ++ vs = ws := by
  rw [languageOfAll, Language.mem_mul]

end

end Pattern

/-- Of two lists in a row the first is found at the front, and the second behind it. -/
theorem append_isPrefix_iff {α : Type} {us vs ws : List α} :
    us ++ vs <+: ws ↔ us <+: ws ∧ vs <+: ws.drop us.length := by
  constructor
  · rintro ⟨rest, rfl⟩
    rw [List.append_assoc, List.drop_left]
    exact ⟨List.prefix_append _ _, List.prefix_append _ _⟩
  · rintro ⟨⟨rest, rfl⟩, hvs⟩
    rw [List.drop_left] at hvs
    exact (List.prefix_append_right_inj us).2 hvs

namespace Utterance

variable {U : Utterance}

/-- The words of the utterance, as they are compared. -/
def folded (U : Utterance) : List String := U.tokens.map (·.folded)

theorem length_folded : U.folded.length = U.size := List.length_map _

/-! ### Reading without a lexicon -/

theorem not_isStop (hU : U.lexicon = .empty) (pos : Nat) : U.isStop pos = false := by
  have hnone : ∀ t : Token, U.lexicon.isStopword t.folded = false := fun t => by
    rw [hU]
    rfl
  simp [isStop, hnone]

theorem stopsAt_eq_zero (hU : U.lexicon = .empty) {pos n : Nat} (h : U.StopsAt pos n) : n = 0 := by
  by_contra hn
  have hstop := h 0 (Nat.pos_of_ne_zero hn)
  rw [not_isStop hU] at hstop
  cases hstop

theorem reads_iff (hU : U.lexicon = .empty) {pos : Nat} {key : String} :
    U.reads pos key = true ↔ [key] <+: U.folded.drop pos := by
  have hequiv : ∀ t : Token, U.lexicon.equivalent t.folded key = true ↔ t.folded = key := by
    intro t
    rw [hU, Lexicon.equivalent_iff]
    rfl
  have hdrop : U.folded.drop pos = (U.tokens.drop pos).map (·.folded) := List.map_drop.symm
  rw [reads, hdrop, ← List.head?_drop]
  cases U.tokens.drop pos with
  | nil => simp
  | cons t ts => simp [hequiv, List.cons_prefix_cons, eq_comm]

/-! ### Runs of the language -/

/-- The run between two positions belongs to a language. -/
def RunIn (U : Utterance) (L : Language String) (s e : Nat) : Prop :=
  ∃ ws ∈ L, ws <+: U.folded.drop s ∧ e = s + ws.length

theorem exists_takesAll_iff_of (hU : U.lexicon = .empty) {ps : List Pattern}
    (hps : ∀ p ∈ ps, ∀ s e, (∃ o, U.Takes anyOption p s e o) ↔ U.RunIn p.language s e)
    (lead : Bool) (s e : Nat) :
    (∃ o, U.TakesAll anyOption lead ps s e o) ↔ U.RunIn (Pattern.languageOfAll ps) s e := by
  induction ps generalizing lead s e with
  | nil =>
    simp only [takesAll_nil, RunIn, Pattern.languageOfAll, Language.mem_one]
    constructor
    · rintro ⟨o, rfl, -⟩
      exact ⟨[], rfl, List.nil_prefix, rfl⟩
    · rintro ⟨ws, rfl, -, rfl⟩
      exact ⟨.free, rfl, rfl⟩
  | cons p ps ih =>
    have hrest := ih (fun q hq => hps q (List.mem_cons_of_mem _ hq)) true
    constructor
    · rintro ⟨o, ho⟩
      obtain ⟨n, m, a, b, -, hstop, ha, hb, -⟩ := takesAll_cons.1 ho
      -- no stopword is skipped, so that the runs of the parts touch
      obtain rfl := stopsAt_eq_zero hU hstop
      obtain ⟨us, hus, hfront, rfl⟩ := (hps p List.mem_cons_self s m).1 ⟨a, ha⟩
      obtain ⟨vs, hvs, hfront', rfl⟩ := (hrest (s + us.length) e).1 ⟨b, hb⟩
      refine ⟨us ++ vs, Pattern.mem_languageOfAll_cons.2 ⟨us, hus, vs, hvs, rfl⟩, ?_, ?_⟩
      · rw [append_isPrefix_iff, List.drop_drop]
        exact ⟨hfront, hfront'⟩
      · rw [List.length_append, Nat.add_assoc]
    · rintro ⟨ws, hws, hfront, rfl⟩
      obtain ⟨us, hus, vs, hvs, rfl⟩ := Pattern.mem_languageOfAll_cons.1 hws
      rw [append_isPrefix_iff, List.drop_drop] at hfront
      obtain ⟨a, ha⟩ := (hps p List.mem_cons_self s _).2 ⟨us, hus, hfront.1, rfl⟩
      obtain ⟨b, hb⟩ := (hrest _ _).2 ⟨vs, hvs, hfront.2, rfl⟩
      rw [Nat.add_assoc, ← List.length_append] at hb
      exact ⟨_, .cons (fun _ => rfl) (stopsAt_zero s) ha hb⟩

/-- **Without a lexicon a pattern takes the runs of its language, and no others.** -/
theorem exists_takes_iff (hU : U.lexicon = .empty) (p : Pattern) (s e : Nat) :
    (∃ o, U.Takes anyOption p s e o) ↔ U.RunIn p.language s e := by
  induction p using Pattern.node_induction generalizing s e with
  | word l literal optional =>
    simp only [takes_word, RunIn, Pattern.mem_language_word]
    constructor
    · rintro ⟨o, ⟨hread, rfl, -⟩ | ⟨hopt, rfl, -⟩⟩
      · exact ⟨_, .inl rfl, (reads_iff hU).1 hread, rfl⟩
      · exact ⟨[], .inr ⟨hopt, rfl⟩, List.nil_prefix, rfl⟩
    · rintro ⟨ws, rfl | ⟨hopt, rfl⟩, hfront, rfl⟩
      · exact ⟨.free, .inl ⟨(reads_iff hU).2 hfront, rfl, rfl⟩⟩
      · exact ⟨.free, .inr ⟨hopt, rfl, rfl⟩⟩
  | wildcard l optional =>
    simp only [takes_wildcard, RunIn, Pattern.mem_language_wildcard]
    constructor
    · rintro ⟨o, ⟨hlt, hle, -⟩ | ⟨hopt, rfl, -⟩⟩
      · have hlength : ((U.folded.drop s).take (e - s)).length = e - s := by
          rw [List.length_take, List.length_drop, length_folded]
          omega
        refine ⟨(U.folded.drop s).take (e - s), .inl ?_, List.take_prefix _ _, by omega⟩
        rw [← List.length_pos_iff, hlength]
        omega
      · exact ⟨[], .inr ⟨hopt, rfl⟩, List.nil_prefix, rfl⟩
    · rintro ⟨ws, hne | ⟨hopt, rfl⟩, hfront, rfl⟩
      · have hpos := List.length_pos_iff.2 hne
        have hlength := hfront.length_le
        rw [List.length_drop, length_folded] at hlength
        exact ⟨_, .inl ⟨by omega, by omega, rfl⟩⟩
      · exact ⟨.free, .inr ⟨hopt, rfl, rfl⟩⟩
  | choice l options optional ih =>
    simp only [takes_choice, RunIn, Pattern.mem_language_choice]
    constructor
    · rintro ⟨o, ⟨before, p, after, rfl, -, hp⟩ | ⟨hopt, rfl, -, -⟩⟩
      · obtain ⟨ws, hws, hfront, rfl⟩ := (ih p (by simp) s e).1 ⟨o, hp⟩
        exact ⟨ws, .inl ⟨p, by simp, hws⟩, hfront, rfl⟩
      · exact ⟨[], .inr ⟨hopt, rfl⟩, List.nil_prefix, rfl⟩
    · rintro ⟨ws, ⟨p, hp, hws⟩ | ⟨hopt, rfl⟩, hfront, rfl⟩
      · obtain ⟨o, ho⟩ := (ih p hp s _).2 ⟨ws, hws, hfront, rfl⟩
        obtain ⟨before, after, rfl⟩ := List.append_of_mem hp
        exact ⟨o, .inl ⟨before, p, after, rfl, trivial, ho⟩⟩
      · exact ⟨.free, .inr ⟨hopt, rfl, rfl, trivial⟩⟩
  | series l parts ih =>
    rw [Pattern.language, ← exists_takesAll_iff_of hU ih false]
    simp only [takes_series]
  | slot l name inner kind ih =>
    rw [Pattern.language, ← ih]
    simp only [takes_slot]
    constructor
    · rintro ⟨o, a, ha, -⟩
      exact ⟨a, ha⟩
    · rintro ⟨a, ha⟩
      exact ⟨_, a, ha, rfl⟩
  | foreign v =>
    refine iff_of_false (fun ⟨o, ho⟩ => not_takes_foreign ho) ?_
    rintro ⟨ws, hws, -⟩
    exact hws

theorem exists_takesBody_iff (hU : U.lexicon = .empty) (parts : List Pattern) (s e : Nat) :
    (∃ o, U.TakesBody anyOption parts s e o) ↔ U.RunIn (Pattern.languageOfAll parts) s e := by
  have hparts : ∀ p ∈ parts, ∀ s e, (∃ o, U.Takes anyOption p s e o) ↔ U.RunIn p.language s e :=
    fun p _ => exists_takes_iff hU p
  have hall := exists_takesAll_iff_of hU hparts true s e
  constructor
  · rintro ⟨o, ha, hstop⟩
    obtain rfl := stopsAt_eq_zero hU hstop
    exact hall.1 ⟨_, ha⟩
  · intro hrun
    obtain ⟨o, ho⟩ := hall.2 hrun
    exact ⟨_, .intro ho (stopsAt_zero e)⟩

/-- The run of all words is the utterance. -/
theorem runIn_all {L : Language String} : U.RunIn L 0 U.size ↔ U.folded ∈ L := by
  rw [RunIn, List.drop_zero]
  constructor
  · rintro ⟨ws, hws, hfront, hlength⟩
    have heq := hfront.eq_of_length (by rw [length_folded]; omega)
    exact heq ▸ hws
  · intro hfolded
    exact ⟨U.folded, hfolded, List.prefix_refl _, by rw [length_folded, Nat.zero_add]⟩

end Utterance

namespace Phrase

variable {P : Phrase} {U : Utterance} {parts : List Pattern}

/-- An alignment is found exactly if the body covers the utterance. -/
theorem isSome_found (h : P.WellFormed parts) :
    (P.found U).isSome ↔ ∃ o, U.Covers anyOption parts o := by
  obtain ⟨l, hbody⟩ := h.body_eq
  rw [found_eq h, hbody]
  exact Utterance.isSome_get?_plainBodyEnds l parts

/-- **Without a lexicon a phrase recognises the language of its body.** -/
theorem isSome_found_iff (h : P.WellFormed parts) (hU : U.lexicon = .empty) :
    (P.found U).isSome ↔ U.folded ∈ P.body.language := by
  obtain ⟨l, hbody⟩ := h.body_eq
  rw [isSome_found h, hbody, Pattern.language, ← Utterance.runIn_all]
  exact Utterance.exists_takesBody_iff hU parts 0 U.size

end Phrase

end IntentGrammar
