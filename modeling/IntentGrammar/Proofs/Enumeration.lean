import IntentGrammar.Proofs.Combinations
import IntentGrammar.Proofs.Language
import IntentGrammar.Proofs.Sharing

/-!
# Examples and the language of a pattern

A pattern without wildcards and slots describes finitely many lists of words.  From some cap on its
examples no longer change (`Pattern.Settles`), and then they spell its language, no more and no less
(`Pattern.Spells`, `Pattern.exists_settles`).

* `Phrase.examples_spell_recognised` : **what is enumerated and what is recognised is the same.**
-/

namespace IntentGrammar

/-- The words of a text, as they are compared. -/
def Token.foldedWords (text : String) : List String := (tokenize text).map (·.folded)

namespace Pattern

open Token

/-- From some cap on the examples are the given texts, whatever is filled into slots. -/
def Settles (p : Pattern) (texts : List String) : Prop :=
  ∃ least, ∀ fill cap, least ≤ cap → p.examples fill cap = .ok texts

/-- The texts have the words of the language. -/
def Spells (texts : List String) (L : Language String) : Prop :=
  ∀ ws, ws ∈ L ↔ ∃ text ∈ texts, foldedWords text = ws

/-- A pattern of words, choices and series, in which every word is a single token. -/
structure Enumerable (p : Pattern) : Prop where
  words : ∀ l literal optional, .word l literal optional ∈ p.nodes →
    (tokenize literal).map (·.typed) = [literal]
  no_wildcard : ∀ l optional, .wildcard l optional ∉ p.nodes
  no_slot : ∀ l name inner kind, .slot l name inner kind ∉ p.nodes

theorem Enumerable.child {p c : Pattern} (h : p.Enumerable) (hc : c ∈ p.children) :
    c.Enumerable where
  words l literal optional hmem := h.words l literal optional (mem_nodes_of_child hc hmem)
  no_wildcard l optional hmem := h.no_wildcard l optional (mem_nodes_of_child hc hmem)
  no_slot l name inner kind hmem := h.no_slot l name inner kind (mem_nodes_of_child hc hmem)

/-! ### Words of texts -/

theorem foldedWords_empty : foldedWords "" = [] := by
  rw [foldedWords, tokenize_empty, List.map_nil]

theorem foldedWords_literal {literal : String}
    (h : (tokenize literal).map (·.typed) = [literal]) : foldedWords literal = [key literal] := by
  rw [foldedWords, tokenize_of_map_typed h]
  rfl

theorem foldedWords_joinPieces (pieces : List String) :
    foldedWords (joinPieces pieces) = pieces.flatMap foldedWords := by
  rw [foldedWords, tokenize_joinPieces, List.map_flatMap]
  rfl

/-! ### Languages of texts -/

theorem Spells.eraseDups {texts : List String} {L : Language String} (h : Spells texts L) :
    Spells texts.eraseDups L := by
  intro ws
  rw [h ws]
  simp only [List.mem_eraseDups]

/-- An optional pattern adds the empty text, and its language the empty list. -/
theorem Spells.optionally {texts : List String} {L : Language String} (h : Spells texts L)
    (optional : Bool) : Spells (texts ++ if optional then [""] else []) (L + leftOut optional) := by
  intro ws
  rw [Language.mem_add, mem_leftOut, h ws]
  cases optional with
  | false => simp
  | true => simp [or_and_right, exists_or, foldedWords_empty, eq_comm]

theorem spells_literal {literal : String} (h : (tokenize literal).map (·.typed) = [literal]) :
    Spells [literal] (just [key literal]) := by
  intro ws
  simp only [List.mem_singleton, exists_eq_left, foldedWords_literal h]
  exact eq_comm

/-- The texts of each pattern have the words of its language. -/
def SpellEach (textsOfAll : List (List String)) (ps : List Pattern) : Prop :=
  List.Forall₂ (fun texts p => Spells texts p.language) textsOfAll ps

theorem SpellEach.flatten {textsOfAll : List (List String)} {ps : List Pattern}
    (h : SpellEach textsOfAll ps) : Spells textsOfAll.flatten (languageOfAny ps) := by
  induction h with
  | nil => intro ws; simp [languageOfAny]
  | @cons texts p textsOfAll ps hp hps ih =>
    intro ws
    rw [languageOfAny, Language.mem_add, hp ws, ih ws]
    simp [or_and_right, exists_or]

/-- The combinations of the texts have the words of the product. -/
theorem SpellEach.combines {textsOfAll : List (List String)} {ps : List Pattern}
    (h : SpellEach textsOfAll ps) (ws : List String) :
    ws ∈ languageOfAll ps ↔
      ∃ pieces, Combines pieces textsOfAll ∧ pieces.flatMap foldedWords = ws := by
  induction h generalizing ws with
  | nil =>
    simp only [languageOfAll, Language.mem_one, Combines, List.forall₂_nil_right_iff,
      exists_eq_left, List.flatMap_nil]
    exact eq_comm
  | @cons texts p textsOfAll ps hp hps ih =>
    rw [mem_languageOfAll_cons]
    constructor
    · rintro ⟨us, hus, vs, hvs, rfl⟩
      obtain ⟨text, htext, rfl⟩ := (hp us).1 hus
      obtain ⟨pieces, hpieces, rfl⟩ := (ih vs).1 hvs
      exact ⟨text :: pieces, .cons htext hpieces, rfl⟩
    · rintro ⟨pieces, hpieces, rfl⟩
      cases hpieces with
      | cons htext hrest =>
        exact ⟨_, (hp _).2 ⟨_, htext, rfl⟩, _, (ih _).2 ⟨_, hrest, rfl⟩, rfl⟩

theorem SpellEach.series {textsOfAll : List (List String)} {ps : List Pattern}
    (h : SpellEach textsOfAll ps) :
    Spells ((combinations textsOfAll).map joinPieces) (languageOfAll ps) := by
  intro ws
  simp only [h.combines, List.mem_map, exists_exists_and_eq_and, mem_combinations,
    foldedWords_joinPieces]

/-! ### Caps that cut nothing off -/

theorem capped_of_le {cap : Nat} {texts : List String} (h : texts.eraseDups.length ≤ cap) :
    capped cap texts = texts.eraseDups :=
  List.take_of_length_le h

/-- Examples that are a capped list of texts settle on the texts, each once. -/
theorem settles_of_capped {p : Pattern} {texts : List String}
    (h : ∃ least, ∀ fill cap, least ≤ cap → p.examples fill cap = .ok (capped cap texts)) :
    p.Settles texts.eraseDups := by
  obtain ⟨least, heq⟩ := h
  refine ⟨max least texts.eraseDups.length, fun fill cap hcap => ?_⟩
  rw [heq fill cap (by omega), capped_of_le (by omega)]

theorem exists_examplesOfAll_settled {ps : List Pattern}
    (h : ∀ p ∈ ps, ∃ texts, p.Settles texts ∧ Spells texts p.language) :
    ∃ textsOfAll, (∃ least, ∀ fill cap, least ≤ cap →
      examplesOfAll fill cap ps = .ok textsOfAll) ∧ SpellEach textsOfAll ps := by
  induction ps with
  | nil => exact ⟨[], ⟨0, fun _ _ _ => rfl⟩, .nil⟩
  | cons p ps ih =>
    obtain ⟨texts, ⟨least, hleast⟩, hspells⟩ := h p List.mem_cons_self
    obtain ⟨textsOfAll, ⟨leasts, hleasts⟩, hspell⟩ := ih fun q hq => h q (List.mem_cons_of_mem _ hq)
    refine ⟨texts :: textsOfAll, ⟨max least leasts, fun fill cap hcap => ?_⟩, .cons hspells hspell⟩
    rw [examplesOfAll, hleast fill cap (by omega), hleasts fill cap (by omega)]
    rfl

/-- **The examples settle on texts that spell the language.** -/
theorem exists_settles {p : Pattern} (hpure : p.firstForeign? = none) (h : p.Enumerable) :
    ∃ texts, p.Settles texts ∧ Spells texts p.language := by
  induction p using node_induction with
  | word l literal optional =>
    have hspells := spells_literal (h.words l literal optional (mem_nodes_self _))
    refine ⟨_, settles_of_capped ⟨0, fun fill cap _ => ?_⟩, (hspells.optionally optional).eraseDups⟩
    rw [examples]
    rfl
  | wildcard l optional => exact absurd (mem_nodes_self _) (h.no_wildcard l optional)
  | choice l options optional ih =>
    obtain ⟨textsOfAll, ⟨least, hleast⟩, hspell⟩ := exists_examplesOfAll_settled fun p hp =>
      ih p hp (firstForeign?_of_child hpure (by exact hp)) (h.child (by exact hp))
    refine ⟨_, settles_of_capped ⟨least, fun fill cap hcap => ?_⟩,
      (hspell.flatten.optionally optional).eraseDups⟩
    rw [examples, hleast fill cap hcap]
    rfl
  | series l parts ih =>
    obtain ⟨textsOfAll, ⟨least, hleast⟩, hspell⟩ := exists_examplesOfAll_settled fun p hp =>
      ih p hp (firstForeign?_of_child hpure (by exact hp)) (h.child (by exact hp))
    -- the cap has to leave room for every combination, besides the examples of the parts
    let texts := ((combinations textsOfAll).map joinPieces).eraseDups
    refine ⟨texts.eraseDups, settles_of_capped ⟨max least texts.length, fun fill cap hcap => ?_⟩,
      hspell.series.eraseDups.eraseDups⟩
    rw [examples, hleast fill cap (by omega)]
    show Except.ok (capped cap (seriesTexts cap textsOfAll)) = _
    have hlength : texts.length ≤ cap := by omega
    rw [seriesTexts_eq, List.take_of_length_le hlength]
  | slot l name inner kind => exact absurd (mem_nodes_self _) (h.no_slot l name inner kind)
  | foreign v => simp [firstForeign?, nodes, foreign?] at hpure

end Pattern

/-- The examples of a grammar of one phrase. -/
theorem Grammar.examples_of_singleton {G : Grammar} {P : Phrase} {fill : String → Option String}
    {texts : List String} (hG : G.phrases = [P])
    (htexts : P.body.examples fill G.settings.maxEnumerations = .ok texts) :
    G.examples fill = .ok texts.eraseDups := by
  rw [Grammar.examples, hG, List.mapM_cons, List.mapM_nil, htexts]
  show Except.ok [texts].flatten.eraseDups = _
  rw [List.flatten_singleton]

namespace Phrase

open Token

variable {P : Phrase} {parts : List Pattern}

/-- **What is enumerated and what is recognised is the same.**  For a phrase without wildcards and
slots there is a cap from which on the examples have the words of just those utterances that are
recognised without a lexicon. -/
theorem examples_spell_recognised (h : P.WellFormed parts) (hwords : P.body.Enumerable) :
    ∃ least, ∀ (G : Grammar) (fill : String → Option String), G.phrases = [P] →
      least ≤ G.settings.maxEnumerations →
      ∃ texts, G.examples fill = .ok texts ∧ ∀ utterance text budget,
        budget.spent + P.steps ⟨tokenize utterance, .empty⟩ ≤ budget.limit →
        ∃ result, (P.recognise .empty (tokenize utterance) text budget).1 = .ok result ∧
          (result.isSome ↔ ∃ t ∈ texts, foldedWords t = foldedWords utterance) := by
  obtain ⟨texts, ⟨least, hleast⟩, hspells⟩ := Pattern.exists_settles h.firstForeign?_eq hwords
  refine ⟨least, fun G fill hG hcap => ⟨texts.eraseDups, ?_, fun utterance text budget hle => ?_⟩⟩
  · exact Grammar.examples_of_singleton hG (hleast fill _ hcap)
  · have hrun := recognise_of_steps_le h budget hle text
    refine ⟨_, congrArg Prod.fst hrun, ?_⟩
    rw [Option.isSome_map, isSome_found_iff h rfl]
    exact hspells.eraseDups (foldedWords utterance)

/-- The parts of a phrase of words alone: `(turn on? | switch) light?`. -/
def commandParts : List Pattern :=
  [.choice 1 [.series 2 [.word 3 "turn" false, .word 4 "on" true], .word 5 "switch" false] false,
    .word 6 "light" true]

theorem wellFormed_command : (ofParts commandParts).WellFormed commandParts where
  body_eq := ⟨0, rfl⟩
  isLabelled := Pattern.isLabelled_of_nodup (by decide)
  firstForeign?_eq := by decide

theorem enumerable_command : (ofParts commandParts).body.Enumerable where
  words := by
    intro l literal optional hmem
    simp [ofParts, commandParts, Pattern.nodes, Pattern.nodesOfAll] at hmem
    rcases hmem with ⟨-, rfl, -⟩ | ⟨-, rfl, -⟩ | ⟨-, rfl, -⟩ | ⟨-, rfl, -⟩ <;> decide
  no_wildcard := by
    simp [ofParts, commandParts, Pattern.nodes, Pattern.nodesOfAll]
  no_slot := by
    simp [ofParts, commandParts, Pattern.nodes, Pattern.nodesOfAll]

/-- With a cap that is high enough, some example has the words of `Turn LIGHT!`, which is
recognised, and none has those of `on light`, which is not. -/
theorem command_examples :
    ∃ (G : Grammar) (texts : List String), G.phrases = [ofParts commandParts] ∧
      G.examples (fun _ => none) = .ok texts ∧
      (∃ t ∈ texts, foldedWords t = foldedWords "Turn LIGHT!") ∧
      ¬ ∃ t ∈ texts, foldedWords t = foldedWords "on light" := by
  obtain ⟨least, hleast⟩ := examples_spell_recognised wellFormed_command enumerable_command
  let G : Grammar :=
    ⟨[ofParts commandParts], .empty, { Settings.default with maxEnumerations := least }⟩
  obtain ⟨texts, htexts, hiff⟩ := hleast G (fun _ => none) rfl (Nat.le_refl _)
  refine ⟨G, texts, rfl, htexts, ?_, ?_⟩
  · obtain ⟨result, hresult, hspelled⟩ := hiff "Turn LIGHT!" none ⟨100, 0⟩ (by decide +kernel)
    have hsome : ((ofParts commandParts).recognise .empty (tokenize "Turn LIGHT!") none
        ⟨100, 0⟩).1.toOption.join.isSome = true := by decide +kernel
    rw [hresult] at hsome
    exact hspelled.1 hsome
  · obtain ⟨result, hresult, hspelled⟩ := hiff "on light" none ⟨100, 0⟩ (by decide +kernel)
    have hnone : ((ofParts commandParts).recognise .empty (tokenize "on light") none
        ⟨100, 0⟩).1.toOption.join.isSome = false := by decide +kernel
    rw [hresult] at hnone
    exact fun hex => Bool.false_ne_true (hnone.symm.trans (hspelled.2 hex))

end Phrase

end IntentGrammar
