import IntentGrammar.Proofs.Enumeration
import IntentGrammar.Proofs.RoundTrip
import IntentGrammar.Proofs.Shares

/-!
# Fillers are captured

A body of words and slots whose slots are kept apart by words gives back what was filled in.  The
tokens of an example can be shared out as the example was put together, without skipping any, and
the alignment that is found costs no more (`Phrase.exists_found_le`).  So it skips no token either
and gives the slots no more tokens, and then it is the same sharing (`Pattern.slotShares_eq`).

* `Phrase.examples_capture_fillers` : **every slot captures its filler.**
-/

namespace IntentGrammar

namespace Pattern

open Token

/-- The tokens that are filled into the slots, under the names of the slots. -/
def fillers (fill : String → Option String) (ps : List Pattern) : List (String × List Token) :=
  (ps.filterMap slotName?).map fun name => (name, tokenize ((fill name).getD ""))

/-- Words and slots, the slots kept apart by words, and for every slot a filler that no word of the
body reads a token of. -/
structure Fillable (lexicon : Lexicon) (fill : String → Option String) (parts : List Pattern) :
    Prop where
  flat : ∀ p ∈ parts, p.Flat
  words : ∀ l literal optional, .word l literal optional ∈ parts →
    (tokenize literal).map (·.typed) = [literal]
  nodup_names : (parts.filterMap slotName?).Nodup
  separated : Separated parts
  filled : ∀ name ∈ parts.filterMap slotName?, ∃ text, fill name = some text ∧
    tokenize text ≠ [] ∧ ∀ t ∈ tokenize text, ∀ p ∈ parts, p.readsToken lexicon t = false

variable {lexicon : Lexicon} {fill : String → Option String} {parts : List Pattern}

/-! ### Examples as shares -/

/-- The text has the tokens of a share, and is the filler if it is for a slot. -/
def Fills (lexicon : Lexicon) (fill : String → Option String) (p : Pattern) (text : String) :
    Prop :=
  p.HasShare lexicon (tokenize text) ∧ ∀ name, p.slotName? = some name → fill name = some text

theorem Fillable.exists_examples (h : Fillable lexicon fill parts) (cap : Nat) {p : Pattern}
    (hp : p ∈ parts) :
    ∃ texts, p.examples fill cap = .ok texts ∧ ∀ text ∈ texts, Fills lexicon fill p text := by
  cases h.flat p hp with
  | @word l literal optional =>
    refine ⟨_, by rw [examples], fun text htext => ⟨?_, fun name hname => by cases hname⟩⟩
    rcases mem_of_mem_optionally [literal] htext with htext | ⟨rfl, rfl⟩
    · rw [List.mem_singleton.1 htext, tokenize_of_map_typed (h.words l literal optional hp)]
      exact .word (Lexicon.equivalent_iff.2 rfl)
    · rw [tokenize_empty]
      exact .noWord
  | @slot l name l' kind =>
    obtain ⟨text, htext, hne, -⟩ := h.filled name (List.mem_filterMap.2 ⟨_, hp, rfl⟩)
    refine ⟨capped cap [text], by unfold examples; rw [htext]; rfl, fun text' htext' => ?_⟩
    rw [List.mem_singleton.1 (mem_of_mem_capped htext')]
    exact ⟨.slot hne, fun name' hname => by cases hname; exact htext⟩

/-- The pieces of an example share its tokens out, and the slots get their fillers. -/
theorem shared_of_fills {pieces : List String}
    (h : List.Forall₂ (fun piece p => Fills lexicon fill p piece) pieces parts) :
    Shared lexicon parts (pieces.map tokenize) ∧
      slotShares parts (pieces.map tokenize) = fillers fill parts := by
  induction h with
  | nil => exact ⟨.nil, rfl⟩
  | @cons piece p pieces parts hp hparts ih =>
    obtain ⟨hshare, hfill⟩ := hp
    refine ⟨.cons hshare ih.1, ?_⟩
    rw [List.map_cons, slotShares, ih.2, slotShare, fillers, fillers, List.filterMap_cons]
    cases hname : p.slotName? with
    | none => rfl
    | some name =>
      show _ = (name, tokenize ((fill name).getD "")) :: _
      rw [hfill name hname]
      rfl

theorem Fillable.clean (h : Fillable lexicon fill parts) :
    Clean (fun t => parts.any (·.readsToken lexicon t)) (fillers fill parts) := by
  intro x hx t ht
  obtain ⟨name, hname, rfl⟩ := List.mem_map.1 hx
  obtain ⟨text, htext, -, hfree⟩ := h.filled name hname
  rw [htext] at ht
  exact List.any_eq_false.2 fun p hp => by rw [hfree t ht p hp]; decide

theorem marks_any : Marks lexicon (fun t => parts.any (·.readsToken lexicon t)) parts :=
  fun p hp _ hread => List.any_eq_true.2 ⟨p, hp, hread⟩

end Pattern

namespace Phrase

open Token

variable {P : Phrase} {U : Utterance} {parts : List Pattern}

/-- The alignment that is found costs no more than any other by first options. -/
theorem exists_found_le (h : P.WellFormed parts) {o : Outcome}
    (ho : U.Covers U.firstOption parts o) :
    ∃ o', P.found U = some o' ∧ U.Covers U.firstOption parts o' ∧ o'.cost ≤ o.cost := by
  obtain ⟨l, hbody⟩ := h.body_eq
  have hlists := Utterance.lists_plainBodyEnds (U := U) l parts 0
  obtain ⟨o', ho', hcost⟩ := hlists.best ho
  refine ⟨o', ?_, hlists.sound ho', hcost⟩
  rw [found_eq h, hbody, Ends.get?_of_mem (Utterance.ascending_plainBodyEnds l parts 0) ho']

/-- Shares that no other sharing undercuts are found. -/
theorem exists_found_of_shared (h : P.WellFormed parts) (hparts : ∀ p ∈ parts, p.Flat)
    (hseparated : Pattern.Separated parts) {sep : Token → Bool}
    (hsep : Pattern.Marks U.lexicon sep parts) {runs : List (List Token)}
    (hshared : Pattern.Shared U.lexicon parts runs) (hU : runs.flatten = U.tokens)
    (hclean : Pattern.Clean sep (Pattern.slotShares parts runs)) :
    ∃ o, P.found U = some o ∧ o.skipped = 0 ∧ U.recorded o = Pattern.slotShares parts runs ∧
      o.wild = Pattern.weight (Pattern.slotShares parts runs) := by
  -- the sharing skips nothing, and so neither does what costs no more
  obtain ⟨o, ho, hskipped, hwild⟩ := Utterance.exists_covers_of_shared hshared hU
  obtain ⟨o', hfound, ho', hcost⟩ := exists_found_le h ho
  rw [Outcome.cost, Outcome.cost, hskipped, hwild, Prod.Lex.toLex_le_toLex] at hcost
  obtain ⟨hskipped', hle⟩ : o'.skipped = 0 ∧ o'.wild ≤ _ := hcost.resolve_left (Nat.not_lt_zero _)
  obtain ⟨runs', hshared', hU', hrecorded, hwild'⟩ := ho'.exists_shared hparts hskipped'
  have heq := Pattern.slotShares_eq hshared hshared' (hU'.trans hU.symm) hsep hclean hseparated
    (hwild' ▸ hle)
  rw [heq] at hrecorded hwild'
  exact ⟨o', hfound, hskipped', hrecorded, hwild'⟩

/-- Slots of different names capture what was recorded for them. -/
theorem captures_eq {o : Outcome} (h : ((U.recorded o).map Prod.fst).Nodup) :
    captures U.tokens o.spans = (U.recorded o).map fun x => (x.1, Token.render x.2) := by
  have hput : captures U.tokens o.spans =
      Table.putAll [] ((U.recorded o).map fun x => (x.1, Token.render x.2)) := by
    rw [captures, Table.putAll, Utterance.recorded, List.map_map, List.foldl_map]
    rfl
  rw [hput, Table.putAll_of_nodup]
  · rfl
  · rw [List.nil_append, Table.names, List.map_map]
    exact h

/-- **Every slot captures its filler.**  Where the slots of a phrase have different names and are
kept apart by words, and no word reads a token of a filler, every example is recognised, the slots
capture just the fillers, no stopword is skipped, and no other token is taken as wild. -/
theorem examples_capture_fillers (h : P.WellFormed parts) {lexicon : Lexicon}
    {fill : String → Option String} (hfill : Pattern.Fillable lexicon fill parts) {G : Grammar}
    (hG : G.phrases = [P]) :
    ∃ texts, G.examples fill = .ok texts ∧ ∀ t ∈ texts, ∀ text budget,
      budget.spent + P.steps ⟨tokenize t, lexicon⟩ ≤ budget.limit →
      ∃ r, (P.recognise lexicon (tokenize t) text budget).1 = .ok (some r) ∧
        r.slots = (Pattern.fillers fill parts).map (fun x => (x.1, Token.render x.2)) ∧
        r.score = (0, Pattern.weight (Pattern.fillers fill parts)) := by
  obtain ⟨l, hbody⟩ := h.body_eq
  obtain ⟨textsOfAll, heq, hfills⟩ := Pattern.exists_examplesOfAll G.settings.maxEnumerations
    fun p hp => hfill.exists_examples G.settings.maxEnumerations hp
  refine ⟨_, Grammar.examples_of_singleton hG (by rw [hbody, Pattern.examples, heq]; rfl), ?_⟩
  intro t ht text budget hle
  obtain ⟨pieces, hpieces, rfl⟩ := Pattern.exists_of_mem_seriesTexts
    (Pattern.mem_of_mem_capped (List.mem_eraseDups.1 ht))
  -- the pieces share the tokens of the example out, and what is found is this sharing
  obtain ⟨hshared, hshares⟩ := Pattern.shared_of_fills (Pattern.forall₂_of_combines hfills hpieces)
  let U : Utterance := ⟨tokenize (Pattern.joinPieces pieces), lexicon⟩
  have hU : (pieces.map tokenize).flatten = U.tokens := by
    rw [← List.flatMap_def]
    exact (tokenize_joinPieces pieces).symm
  have hclean := hfill.clean
  rw [← hshares] at hclean
  obtain ⟨o, hfound, hskipped, hrecorded, hwild⟩ := exists_found_of_shared (U := U) h hfill.flat
    hfill.separated Pattern.marks_any hshared hU hclean
  rw [hshares] at hrecorded hwild
  have hrun := recognise_of_steps_le h budget hle text
  rw [hfound] at hrun
  refine ⟨_, congrArg Prod.fst hrun, ?_, ?_⟩
  · have hnodup : ((U.recorded o).map Prod.fst).Nodup := by
      rw [hrecorded, Pattern.fillers, List.map_map]
      exact (List.map_id _).symm ▸ hfill.nodup_names
    rw [← hrecorded]
    exact captures_eq hnodup
  · rw [← hskipped, ← hwild]
    rfl

/-- The parts of `play [song] please? by [artist]`. -/
def playParts : List Pattern :=
  [.word 1 "play" false, .slot 2 "song" (.wildcard 3 false) none, .word 4 "please" true,
    .word 5 "by" false, .slot 6 "artist" (.wildcard 7 false) none]

theorem wellFormed_play : (ofParts playParts).WellFormed playParts where
  body_eq := ⟨0, rfl⟩
  isLabelled := Pattern.isLabelled_of_nodup (by decide)
  firstForeign?_eq := by decide

/-- Fillers that hold stopwords. -/
def playFiller (name : String) : Option String :=
  if name = "song" then some "the long song" else some "an old artist"

theorem fillable_play : Pattern.Fillable .english playFiller playParts where
  flat := by
    intro p hp
    simp only [playParts, List.mem_cons, List.not_mem_nil, or_false] at hp
    rcases hp with rfl | rfl | rfl | rfl | rfl <;> constructor
  words := by
    intro l literal optional hmem
    simp [playParts] at hmem
    rcases hmem with ⟨-, rfl, -⟩ | ⟨-, rfl, -⟩ | ⟨-, rfl, -⟩ <;> decide
  nodup_names := by decide
  separated := by decide
  filled := by
    intro name hname
    have hnames : name ∈ ["song", "artist"] := hname
    rcases List.mem_pair.1 hnames with rfl | rfl
    · exact ⟨"the long song", rfl, by decide, by decide +kernel⟩
    · exact ⟨"an old artist", rfl, by decide, by decide +kernel⟩

/-- The stopwords in the fillers are captured, and not skipped. -/
theorem play_captures : ∃ r : Recognition,
    ((ofParts playParts).recognise .english (tokenize "play the long song by an old artist") none
      ⟨500, 0⟩).1 = .ok (some r) ∧
    r.slots = [("song", "the long song"), ("artist", "an old artist")] ∧ r.score = (0, 6) := by
  let G : Grammar := ⟨[ofParts playParts], .english, Settings.default⟩
  obtain ⟨texts, htexts, hall⟩ := examples_capture_fillers wellFormed_play fillable_play
    (G := G) rfl
  have hmem : "play the long song by an old artist" ∈ texts := by
    have hexamples : (G.examples playFiller).toOption =
        some ["play the long song please by an old artist",
          "play the long song by an old artist"] := by decide +kernel
    rw [htexts] at hexamples
    cases hexamples
    decide
  obtain ⟨r, hr, hslots, hscore⟩ := hall _ hmem none ⟨500, 0⟩ (by decide +kernel)
  exact ⟨r, hr, hslots.trans (by decide +kernel), hscore.trans (by decide +kernel)⟩

end Phrase

end IntentGrammar
