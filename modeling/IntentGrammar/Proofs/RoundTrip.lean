import IntentGrammar.Proofs.Combinations
import IntentGrammar.Proofs.Recognition
import IntentGrammar.Proofs.Stretches

/-!
# Examples are recognised

Every example text of a phrase is recognised by the phrase.

What a pattern takes in an utterance it also takes where the utterance is part of a longer one
(`Utterance.Takes.embed`).  So the alignments of the pieces of an example make up an alignment of
the whole, by induction over the pattern (`Pattern.exists_examples`).

* `Phrase.examples_recognised` : **whatever is enumerated is recognised.**
-/

namespace IntentGrammar

namespace Utterance

/-- The utterance `V` has the tokens of `U` from position `k` on. -/
structure Embeds (U V : Utterance) (k : Nat) : Prop where
  lexicon_eq : V.lexicon = U.lexicon
  getElem?_eq : ∀ i < U.size, V.tokens[k + i]? = U.tokens[i]?

variable {U V : Utterance} {k : Nat}

namespace Embeds

theorem refl (U : Utterance) : U.Embeds U 0 :=
  ⟨rfl, fun i _ => by rw [Nat.zero_add]⟩

theorem repeats (h : U.Embeds V k) (hi : Nat) : U.Repeats V 0 hi k :=
  .of_getElem? h.lexicon_eq fun i _ _ hlt => h.getElem?_eq i hlt

variable {lexicon : Lexicon} {a b : List Token}

theorem left (h : Embeds ⟨a ++ b, lexicon⟩ V k) : Embeds ⟨a, lexicon⟩ V k := by
  refine ⟨h.lexicon_eq, fun i hi => ?_⟩
  have hlt : i < a.length := hi
  rw [h.getElem?_eq i (by simp only [size, List.length_append]; omega)]
  exact List.getElem?_append_left hlt

theorem right (h : Embeds ⟨a ++ b, lexicon⟩ V k) : Embeds ⟨b, lexicon⟩ V (k + a.length) := by
  refine ⟨h.lexicon_eq, fun i hi => ?_⟩
  have hlt : i < b.length := hi
  rw [Nat.add_assoc, h.getElem?_eq _ (by simp only [size, List.length_append]; omega)]
  show (a ++ b)[a.length + i]? = b[i]?
  rw [List.getElem?_append_right (Nat.le_add_right _ _), Nat.add_sub_cancel_left]

end Embeds

/-- What a pattern takes in an utterance it takes wherever the utterance stands. -/
theorem Takes.embed (h : U.Embeds V k) {p : Pattern} {s e : Nat} {o : Outcome}
    (hp : U.Takes anyOption p s e o) : ∃ o', V.Takes anyOption p (k + s) (k + e) o' :=
  hp.repeated (h.repeats e) (Nat.zero_le s) (Nat.le_refl e)

theorem exists_takes_of_isOptional {p : Pattern} (h : p.isOptional = true) (s : Nat) :
    ∃ o, U.Takes anyOption p s s o := by
  induction p using Pattern.node_induction with
  | word l literal optional => obtain rfl : optional = true := h; exact ⟨.free, .noWord⟩
  | wildcard l optional => obtain rfl : optional = true := h; exact ⟨.free, .noWildcard⟩
  | choice l options optional =>
    obtain rfl : optional = true := h
    exact ⟨.free, .noOption trivial⟩
  | slot l name inner kind ih =>
    obtain ⟨a, ha⟩ := ih h
    exact ⟨_, .slot ha⟩
  | series | foreign => cases h

theorem TakesAll.lead {R : OptionRule} {ps : List Pattern} {s e : Nat} {o : Outcome}
    (h : U.TakesAll R false ps s e o) : U.TakesAll R true ps s e o := by
  cases h with
  | nil => exact .nil
  | cons hlead hstop hp hps => exact .cons (fun h => absurd h (by decide)) hstop hp hps

end Utterance

namespace Pattern

open Token Utterance

variable {lexicon : Lexicon}

/-- The pattern takes all tokens of the text. -/
def Fits (lexicon : Lexicon) (p : Pattern) (text : String) : Prop :=
  ∃ o, (⟨tokenize text, lexicon⟩ : Utterance).Takes anyOption p 0 (tokenize text).length o

/-! ### Texts that fit -/

theorem fits_word {l : Nat} {literal : String} {optional : Bool}
    (h : (tokenize literal).map (·.typed) = [literal]) :
    Fits lexicon (.word l literal optional) literal := by
  have htokens := tokenize_of_map_typed h
  refine ⟨.free, ?_⟩
  rw [htokens]
  refine .word ?_
  show lexicon.equivalent (Text.foldCase literal) (key literal) = true
  exact Lexicon.equivalent_iff.2 rfl

/-- A wildcard takes any text that has a token. -/
theorem fits_wildcard {l : Nat} {optional : Bool} {text : String} (h : 0 < (tokenize text).length) :
    Fits lexicon (.wildcard l optional) text :=
  ⟨_, .wildcard h (Nat.le_refl _)⟩

theorem fits_standIn {l : Nat} {optional : Bool} : Fits lexicon (.wildcard l optional) standIn :=
  fits_wildcard (by decide)

theorem fits_empty {p : Pattern} (h : p.isOptional = true) : Fits lexicon p "" := by
  rw [Fits, tokenize_empty]
  exact exists_takes_of_isOptional h 0

theorem Fits.choice {l : Nat} {options : List Pattern} {optional : Bool} {p : Pattern}
    (hp : p ∈ options) {text : String} (h : Fits lexicon p text) :
    Fits lexicon (.choice l options optional) text := by
  obtain ⟨o, ho⟩ := h
  obtain ⟨before, after, rfl⟩ := List.append_of_mem hp
  exact ⟨o, .option trivial ho⟩

theorem Fits.slot {l : Nat} {name : String} {inner : Pattern} {kind : Option String}
    {text : String} (h : Fits lexicon inner text) :
    Fits lexicon (.slot l name inner kind) text := by
  obtain ⟨o, ho⟩ := h
  exact ⟨_, .slot ho⟩

/-- Pieces that fit the parts one by one fit them in a row. -/
theorem exists_takesAll {pieces : List String} {parts : List Pattern}
    (h : List.Forall₂ (fun piece p => Fits lexicon p piece) pieces parts) {V : Utterance} {k : Nat}
    (hV : Embeds ⟨pieces.flatMap tokenize, lexicon⟩ V k) (lead : Bool) :
    ∃ o, V.TakesAll anyOption lead parts k (k + (pieces.flatMap tokenize).length) o := by
  induction h generalizing k lead with
  | nil => exact ⟨.free, .nil⟩
  | @cons piece p pieces parts hp hparts ih =>
    rw [List.flatMap_cons] at hV ⊢
    obtain ⟨o, ho⟩ := hp
    -- no stopword is skipped between the pieces
    obtain ⟨a, ha⟩ := ho.embed hV.left
    obtain ⟨b, hb⟩ := ih hV.right true
    rw [Nat.add_assoc, ← List.length_append] at hb
    exact ⟨_, .cons (fun _ => rfl) (stopsAt_zero k) ha hb⟩

theorem fits_series {l : Nat} {pieces : List String} {parts : List Pattern}
    (h : List.Forall₂ (fun piece p => Fits lexicon p piece) pieces parts) :
    Fits lexicon (.series l parts) (joinPieces pieces) := by
  rw [Fits, tokenize_joinPieces]
  obtain ⟨o, ho⟩ := exists_takesAll h (Embeds.refl _) false
  rw [Nat.zero_add] at ho
  exact ⟨o, .series ho⟩

/-! ### Examples -/

/-- What examples rely on: every word is a single token, and a text that is filled into a slot
is one that the pattern in the slot takes. -/
structure Exemplary (lexicon : Lexicon) (fill : String → Option String) (p : Pattern) : Prop where
  words : ∀ l literal optional, .word l literal optional ∈ p.nodes →
    (tokenize literal).map (·.typed) = [literal]
  fillers : ∀ l name inner kind, .slot l name inner kind ∈ p.nodes →
    ∀ text, fill name = some text → Fits lexicon inner text

variable {fill : String → Option String} {cap : Nat}

theorem Exemplary.child {p c : Pattern} (h : Exemplary lexicon fill p) (hc : c ∈ p.children) :
    Exemplary lexicon fill c where
  words l literal optional hmem := h.words l literal optional (mem_nodes_of_child hc hmem)
  fillers l name inner kind hmem := h.fillers l name inner kind (mem_nodes_of_child hc hmem)

/-- The texts of several patterns. -/
theorem exists_examplesOfAll {Q : Pattern → String → Prop} (cap : Nat) {ps : List Pattern}
    (h : ∀ p ∈ ps, ∃ texts, p.examples fill cap = .ok texts ∧ ∀ text ∈ texts, Q p text) :
    ∃ textsOfAll, examplesOfAll fill cap ps = .ok textsOfAll ∧
      List.Forall₂ (fun texts p => ∀ text ∈ texts, Q p text) textsOfAll ps := by
  induction ps with
  | nil => exact ⟨[], rfl, .nil⟩
  | cons p ps ih =>
    obtain ⟨texts, heq, htexts⟩ := h p List.mem_cons_self
    obtain ⟨rest, heqs, hrest⟩ := ih fun q hq => h q (List.mem_cons_of_mem _ hq)
    refine ⟨texts :: rest, ?_, .cons htexts hrest⟩
    rw [examplesOfAll, heq, heqs]
    rfl

theorem exists_fits_of_mem_flatten {textsOfAll : List (List String)} {ps : List Pattern}
    (h : List.Forall₂ (fun texts p => ∀ text ∈ texts, Fits lexicon p text) textsOfAll ps)
    {text : String} (htext : text ∈ textsOfAll.flatten) : ∃ p ∈ ps, Fits lexicon p text := by
  induction h with
  | nil => cases htext
  | @cons texts p textsOfAll ps hp hps ih =>
    rw [List.flatten_cons, List.mem_append] at htext
    rcases htext with htext | htext
    · exact ⟨p, List.mem_cons_self, hp text htext⟩
    · obtain ⟨q, hq, hfits⟩ := ih htext
      exact ⟨q, List.mem_cons_of_mem _ hq, hfits⟩

/-- What holds of all texts of each part holds of the pieces of a combination. -/
theorem forall₂_of_combines {Q : Pattern → String → Prop} {textsOfAll : List (List String)}
    {ps : List Pattern} (h : List.Forall₂ (fun texts p => ∀ text ∈ texts, Q p text) textsOfAll ps)
    {pieces : List String} (hpieces : Combines pieces textsOfAll) :
    List.Forall₂ (fun piece p => Q p piece) pieces ps := by
  induction h generalizing pieces with
  | nil => cases hpieces; exact .nil
  | @cons texts p textsOfAll ps hp hps ih =>
    cases hpieces with
    | cons hpiece hrest => exact .cons (hp _ hpiece) (ih hrest)

/-- The optional pattern adds the empty text, which fits it. -/
theorem fits_of_mem_optionally {p : Pattern} {optional : Bool} (hopt : p.isOptional = optional)
    (texts : List String) (h : ∀ text ∈ texts, Fits lexicon p text) {text : String}
    (htext : text ∈ capped cap (texts ++ if optional then [""] else [])) : Fits lexicon p text := by
  rcases mem_of_mem_optionally texts htext with htext | ⟨rfl, rfl⟩
  · exact h text htext
  · exact fits_empty hopt

/-- The text that is filled into a slot, the stand-in and the examples of the pattern in the slot
all fit this pattern; so does the empty text where it is an example. -/
theorem exists_examples_slot {l : Nat} {name : String} {inner : Pattern} {kind : Option String}
    (h : Exemplary lexicon fill (.slot l name inner kind)) (cap : Nat)
    (hinner : ∃ texts, inner.examples fill cap = .ok texts ∧
      ∀ text ∈ texts, Fits lexicon inner text) :
    ∃ texts, (Pattern.slot l name inner kind).examples fill cap = .ok texts ∧
      ∀ text ∈ texts, Fits lexicon inner text := by
  unfold examples
  split
  · next text hfill =>
    refine ⟨_, rfl, fun text' htext => ?_⟩
    refine fits_of_mem_optionally rfl [text] (fun text' htext => ?_) htext
    rw [List.mem_singleton.1 htext]
    exact h.fillers l name _ kind (mem_nodes_self _) text hfill
  · refine ⟨_, rfl, fun text htext => ?_⟩
    refine fits_of_mem_optionally rfl [standIn] (fun text htext => ?_) htext
    rw [List.mem_singleton.1 htext]
    exact fits_standIn
  · obtain ⟨texts, heq, hfits⟩ := hinner
    rw [heq]
    refine ⟨_, rfl, fun text htext => ?_⟩
    exact fits_of_mem_optionally rfl _
      (fun text htext => hfits text (List.mem_of_mem_filter htext)) htext

/-- **Every example fits the pattern that it is an example of.** -/
theorem exists_examples {p : Pattern} (hpure : p.firstForeign? = none)
    (h : Exemplary lexicon fill p) (cap : Nat) :
    ∃ texts, p.examples fill cap = .ok texts ∧ ∀ text ∈ texts, Fits lexicon p text := by
  induction p using node_induction with
  | word l literal optional =>
    refine ⟨_, by rw [examples], fun text htext => ?_⟩
    refine fits_of_mem_optionally rfl [literal] (fun text htext => ?_) htext
    rw [List.mem_singleton.1 htext]
    exact fits_word (h.words l literal optional (mem_nodes_self _))
  | wildcard l optional =>
    refine ⟨_, by rw [examples], fun text htext => ?_⟩
    refine fits_of_mem_optionally rfl [standIn] (fun text htext => ?_) htext
    rw [List.mem_singleton.1 htext]
    exact fits_standIn
  | choice l options optional ih =>
    obtain ⟨textsOfAll, heq, hfits⟩ := exists_examplesOfAll cap fun p hp =>
      ih p hp (firstForeign?_of_child hpure (by exact hp)) (h.child (by exact hp))
    refine ⟨_, by rw [examples, heq]; rfl, fun text htext => ?_⟩
    refine fits_of_mem_optionally rfl _ (fun text htext => ?_) htext
    obtain ⟨p, hp, hfit⟩ := exists_fits_of_mem_flatten hfits htext
    exact hfit.choice hp
  | series l parts ih =>
    obtain ⟨textsOfAll, heq, hfits⟩ := exists_examplesOfAll cap fun p hp =>
      ih p hp (firstForeign?_of_child hpure (by exact hp)) (h.child (by exact hp))
    refine ⟨_, by rw [examples, heq]; rfl, fun text htext => ?_⟩
    obtain ⟨pieces, hpieces, rfl⟩ := exists_of_mem_seriesTexts (mem_of_mem_capped htext)
    exact fits_series (forall₂_of_combines hfits hpieces)
  | slot l name inner kind ih =>
    have hinner : inner ∈ (Pattern.slot l name inner kind).children := List.mem_singleton.2 rfl
    obtain ⟨texts, heq, hfits⟩ := exists_examples_slot h cap
      (ih (firstForeign?_of_child hpure hinner) (h.child hinner))
    exact ⟨texts, heq, fun text htext => (hfits text htext).slot⟩
  | foreign v => simp [firstForeign?, nodes, foreign?] at hpure

end Pattern

namespace Phrase

open Token

variable {P : Phrase} {parts : List Pattern}

/-- A body that fits a text covers its tokens. -/
theorem covers_of_fits {lexicon : Lexicon} {l : Nat} {text : String}
    (h : Pattern.Fits lexicon (.series l parts) text) :
    ∃ o, (⟨tokenize text, lexicon⟩ : Utterance).Covers anyOption parts o := by
  obtain ⟨o, ho⟩ := h
  exact ⟨_, .intro (Utterance.takes_series.1 ho).lead (Utterance.stopsAt_zero _)⟩

/-- **Whatever is enumerated is recognised.**  The examples of a phrase are found, and each of them
is recognised by the phrase within any budget that is not exceeded. -/
theorem examples_recognised (h : P.WellFormed parts) {lexicon : Lexicon}
    {fill : String → Option String} (hex : P.body.Exemplary lexicon fill) (cap : Nat) :
    ∃ texts, P.body.examples fill cap = .ok texts ∧ ∀ text ∈ texts, ∀ given budget,
      ¬ Exceeds (P.recognise lexicon (tokenize text) given budget) →
      ∃ r, (P.recognise lexicon (tokenize text) given budget).1 = .ok (some r) := by
  obtain ⟨l, hbody⟩ := h.body_eq
  obtain ⟨texts, heq, hfits⟩ := Pattern.exists_examples h.firstForeign?_eq hex cap
  refine ⟨texts, heq, fun text htext given budget hbudget => ?_⟩
  -- the text fits the body, and so the plain search reaches its end
  have hreport := recognise_eq (U := ⟨tokenize text, lexicon⟩) h hbudget
  have hfit := hfits text htext
  rw [hbody] at hfit
  have hsome := (Utterance.isSome_get?_plainBodyEnds l parts).2 (covers_of_fits hfit)
  rw [← hbody] at hsome
  obtain ⟨o, ho⟩ := Option.isSome_iff_exists.1 hsome
  rw [ho] at hreport
  exact ⟨_, congrArg Prod.fst hreport⟩

/-- A filler that knows one color. -/
def blueFiller (name : String) : Option String := if name = "color" then some "blue" else none

theorem exemplary_setting : setting.body.Exemplary .english blueFiller where
  words := by
    intro l literal optional hmem
    simp [setting, settingParts, Pattern.nodes, Pattern.nodesOfAll] at hmem
    rcases hmem with ⟨-, rfl, -⟩ | ⟨-, rfl, -⟩ | ⟨-, rfl, -⟩ <;> decide
  fillers := by
    intro l name inner kind hmem text hfill
    simp [setting, settingParts, Pattern.nodes, Pattern.nodesOfAll] at hmem
    obtain ⟨-, rfl, rfl, -⟩ := hmem
    obtain rfl : "blue" = text := Option.some.inj hfill
    refine Pattern.Fits.choice (p := .word 5 "blue" false) (by simp) (Pattern.fits_word ?_)
    decide

/-- The example of the small phrase with the filler's color is recognised. -/
theorem setting_examples_recognised :
    ∃ r, (setting.recognise .english (tokenize "set blue anything") none ⟨100, 0⟩).1 =
      .ok (some r) := by
  obtain ⟨texts, htexts, hall⟩ := examples_recognised wellFormed_setting exemplary_setting 10
  have hmem : "set blue anything" ∈ texts := by
    have hexamples : (setting.body.examples blueFiller 10).toOption =
        some ["set blue anything", "set anything"] := by decide +kernel
    rw [htexts] at hexamples
    cases hexamples
    exact List.mem_cons_self
  exact hall _ hmem none ⟨100, 0⟩ (not_exceeds_of_isOk (by decide +kernel))

end Phrase

end IntentGrammar
