import IntentGrammar.Proofs.Combinations
import Mathlib.Data.Set.Card

/-!
# What a cap leaves of a series

The combinations of the parts of a series begin with the `spread`: all parts at their first text,
then one part at a time at each of its other texts.  So a cap that leaves room for the spread leaves
every text of every part in some example, and one that leaves room for the texts of all combinations
cuts nothing off.

* `Pattern.series_examples_show` : **the examples of a series show every text of every part.**
-/

namespace IntentGrammar.Pattern

variable {cap : Nat} {fill : String → Option String} {parts front back : List (List String)}

theorem nodup_capped (cap : Nat) (texts : List String) : (capped cap texts).Nodup :=
  (nodup_eraseDups texts).sublist (List.take_sublist cap _)

theorem length_capped_le (cap : Nat) (texts : List String) : (capped cap texts).length ≤ cap :=
  List.length_take_le cap _

theorem capped_capped (cap : Nat) (texts : List String) :
    capped cap (capped cap texts) = capped cap texts := by
  rw [capped, eraseDups_of_nodup (nodup_capped cap texts),
    List.take_of_length_le (length_capped_le cap texts)]

/-- A cap that is no less than the number of texts cuts nothing off. -/
theorem mem_capped {texts : List String} (h : texts.length ≤ cap) {text : String} :
    text ∈ capped cap texts ↔ text ∈ texts := by
  have hlength : texts.eraseDups.length ≤ cap := by
    rw [length_eraseDups]
    exact (List.toFinset_card_le texts).trans h
  rw [capped, List.take_of_length_le hlength, List.mem_eraseDups]

theorem seriesTexts_eq_capped (cap : Nat) (parts : List (List String)) :
    seriesTexts cap parts = capped cap ((combinations parts).map joinPieces) :=
  seriesTexts_eq cap parts

/-! ### The spread -/

/-- The first text of each part. -/
def firsts (parts : List (List String)) : List String := parts.map (·.headD "")

/-- The combinations in which no more than one part is not at its first text. -/
def spread (parts : List (List String)) : List (List String) :=
  firsts parts :: singleVariations parts

theorem any_isEmpty_iff : parts.any List.isEmpty = true ↔ ¬∀ texts ∈ parts, texts ≠ [] := by
  simp

theorem combinations_eq (h : ∀ texts ∈ parts, texts ≠ []) :
    combinations parts = spread parts ++ choices parts := by
  rw [combinations, if_neg fun hany => any_isEmpty_iff.1 hany h]
  rfl

/-- A part without texts leaves no combinations. -/
theorem combinations_eq_nil (h : ¬∀ texts ∈ parts, texts ≠ []) : combinations parts = [] := by
  rw [combinations, if_pos (any_isEmpty_iff.2 h)]

/-- The parts behind are varied while those in front are at their first texts, and the other way
round. -/
theorem singleVariations_append (h : ∀ texts ∈ front, texts ≠ []) (back : List (List String)) :
    singleVariations (front ++ back) =
      (singleVariations front).map (· ++ firsts back) ++
        (singleVariations back).map (firsts front ++ ·) := by
  induction front with
  | nil => simp [singleVariations, firsts]
  | cons texts front ih =>
    obtain ⟨htexts, hfront⟩ := List.forall_mem_cons.1 h
    cases texts with
    | nil => exact absurd rfl htexts
    | cons first others =>
      rw [List.cons_append, singleVariations, singleVariations, ih hfront]
      simp [firsts, Function.comp_def]

theorem length_singleVariations (h : ∀ texts ∈ parts, texts ≠ []) :
    (singleVariations parts).length = (parts.map (·.length - 1)).sum := by
  induction parts with
  | nil => rfl
  | cons texts parts ih =>
    obtain ⟨htexts, hparts⟩ := List.forall_mem_cons.1 h
    cases texts with
    | nil => exact absurd rfl htexts
    | cons first others =>
      rw [singleVariations, List.length_append, List.length_map, List.length_map, ih hparts]
      simp

/-- The spread of the parts in front comes first. -/
theorem spread_append (h : ∀ texts ∈ front, texts ≠ []) (back : List (List String)) :
    spread (front ++ back) =
      (spread front).map (· ++ firsts back) ++ (singleVariations back).map (firsts front ++ ·) := by
  rw [spread, spread, singleVariations_append h]
  simp [firsts]

/-- Every text of a part stands in the spread, beside the first texts of the other parts. -/
theorem mem_spread {texts : List String} (h : ∀ texts ∈ front, texts ≠ []) {text : String}
    (htext : text ∈ texts) (back : List (List String)) :
    firsts front ++ text :: firsts back ∈ spread (front ++ texts :: back) := by
  cases texts with
  | nil => cases htext
  | cons first others =>
    rw [spread_append h, List.mem_append]
    rcases List.mem_cons.1 htext with rfl | htext
    · exact .inl (List.mem_map.2 ⟨_, List.mem_cons_self, rfl⟩)
    · refine .inr (List.mem_map.2 ⟨text :: firsts back, ?_, rfl⟩)
      exact List.mem_append_left _ (List.mem_map.2 ⟨text, htext, rfl⟩)

/-- What a cap leaves room for at the front of a list is left of it. -/
theorem mem_capped_append {texts : List String} (h : texts.length ≤ cap) (more : List String)
    {text : String} (htext : text ∈ texts) : text ∈ capped cap (texts ++ more) := by
  rw [capped, List.eraseDups_append, List.take_append]
  exact List.mem_append_left _ ((mem_capped h).2 htext)

/-! ### All combinations -/

/-- The texts of all combinations of the parts. -/
def joinedTexts (parts : List (List String)) : Set String :=
  {text | ∃ pieces, Combines pieces parts ∧ joinPieces pieces = text}

theorem joinedTexts_eq (parts : List (List String)) :
    joinedTexts parts = ((combinations parts).map joinPieces).toFinset := by
  ext text
  simp [joinedTexts, mem_combinations]

theorem ncard_joinedTexts (parts : List (List String)) :
    (joinedTexts parts).ncard = ((combinations parts).map joinPieces).eraseDups.length := by
  rw [joinedTexts_eq, Set.ncard_coe_finset, length_eraseDups]

theorem mem_seriesTexts_iff (h : (joinedTexts parts).ncard ≤ cap) {text : String} :
    text ∈ seriesTexts cap parts ↔ text ∈ joinedTexts parts := by
  rw [ncard_joinedTexts] at h
  rw [seriesTexts_eq, List.take_of_length_le h, List.mem_eraseDups, joinedTexts_eq]
  exact List.mem_toFinset.symm

/-! ### Examples of a series -/

theorem examplesOfAll_eq {ps : List Pattern} {lists : List (List String)}
    (h : List.Forall₂ (fun p texts => p.examples fill cap = .ok texts) ps lists) :
    examplesOfAll fill cap ps = .ok lists := by
  induction h with
  | nil => rfl
  | cons hp hps ih =>
    rw [examplesOfAll, hp, ih]
    rfl

/-- **The examples of a series show every text of every part.**  There are no more of them than
the cap allows, and none twice.  If the cap leaves room for varying one part at a time, every text
of every part, the empty text of an optional one included, stands in an example beside the first
texts of the other parts; and if it leaves room for the texts of all combinations, the examples are
just these. -/
theorem series_examples_show {l : Nat} {ps : List Pattern} {lists : List (List String)}
    (hlists : List.Forall₂ (fun p texts => p.examples fill cap = .ok texts) ps lists)
    (hne : ∀ texts ∈ lists, texts ≠ []) :
    ∃ texts, (Pattern.series l ps).examples fill cap = .ok texts ∧
      texts.Nodup ∧ texts.length ≤ cap ∧
      (1 + (lists.map (·.length - 1)).sum ≤ cap → ∀ front variants back,
        lists = front ++ variants :: back → ∀ text ∈ variants,
          joinPieces (firsts front ++ text :: firsts back) ∈ texts) ∧
      ((joinedTexts lists).ncard ≤ cap → ∀ text, text ∈ texts ↔ text ∈ joinedTexts lists) := by
  have hlength : (seriesTexts cap lists).length ≤ cap := by
    rw [seriesTexts_eq_capped]
    exact length_capped_le cap _
  refine ⟨capped cap (seriesTexts cap lists), ?_, nodup_capped cap _, length_capped_le cap _,
    fun hcap front variants back hsplit text htext => ?_, fun hcap text => ?_⟩
  · rw [examples, examplesOfAll_eq hlists]
    rfl
  · have hspread : ((spread lists).map joinPieces).length ≤ cap := by
      rw [List.length_map, spread, List.length_cons, length_singleVariations hne]
      omega
    rw [mem_capped hlength, seriesTexts_eq_capped, combinations_eq hne, List.map_append]
    refine mem_capped_append hspread _ (List.mem_map_of_mem ?_)
    subst hsplit
    exact mem_spread (fun texts htexts => hne texts (List.mem_append_left _ htexts)) htext back
  · rw [mem_capped hlength, mem_seriesTexts_iff hcap]

/-- The parts of `turn (on | off |) light?`. -/
def lightParts : List Pattern :=
  [.word 1 "turn" false, .choice 2 [.word 3 "on" false, .word 4 "off" false] true,
    .word 5 "light" true]

/-- The examples of the parts. -/
def lightTexts : List (List String) := [["turn"], ["on", "off", ""], ["light", ""]]

/-- Four examples leave out each optional part once, six are all there are. -/
theorem light_examples_show :
    (∃ texts, (Pattern.series 0 lightParts).examples (fun _ => none) 4 = .ok texts ∧
      texts.Nodup ∧ texts.length ≤ 4 ∧ "turn off light" ∈ texts ∧ "turn light" ∈ texts ∧
      "turn on" ∈ texts) ∧
    ∃ texts, (Pattern.series 0 lightParts).examples (fun _ => none) 6 = .ok texts ∧
      ∀ text, text ∈ texts ↔ text ∈ joinedTexts lightTexts := by
  have hlists (cap : Nat) (hcap : cap = 4 ∨ cap = 6) : List.Forall₂
      (fun p texts => p.examples (fun _ => none) cap = .ok texts) lightParts lightTexts := by
    rcases hcap with rfl | rfl <;>
      exact .cons (by with_unfolding_all rfl) (.cons (by with_unfolding_all rfl)
        (.cons (by with_unfolding_all rfl) .nil))
  have hne : ∀ texts ∈ lightTexts, texts ≠ [] := by decide
  obtain ⟨texts, htexts, hnodup, hlength, hshow, -⟩ :=
    series_examples_show (l := 0) (hlists 4 (.inl rfl)) hne
  obtain ⟨all, hall, -, -, -, hexact⟩ := series_examples_show (l := 0) (hlists 6 (.inr rfl)) hne
  refine ⟨⟨texts, htexts, hnodup, hlength, ?_, ?_, ?_⟩, all, hall, hexact ?_⟩
  · exact hshow (by decide) [["turn"]] ["on", "off", ""] [["light", ""]] rfl "off" (by decide)
  · exact hshow (by decide) [["turn"]] ["on", "off", ""] [["light", ""]] rfl "" (by decide)
  · exact hshow (by decide) [["turn"], ["on", "off", ""]] ["light", ""] [] rfl "" (by decide)
  · rw [ncard_joinedTexts]
    decide +kernel

end IntentGrammar.Pattern
