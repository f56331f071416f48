import IntentGrammar.Grammar.Examples
import IntentGrammar.Token
import Mathlib.Data.Finset.Card
import Mathlib.Data.List.Forall2
import Mathlib.Data.List.Induction

/-!
# Example texts of a series

The examples of a series are the texts of the combinations of its parts, in a fixed order, each once
and as many as the cap allows (`Pattern.seriesTexts_eq`).  A combination is made of one text of each
part (`Pattern.mem_combinations`).  The pieces are joined by spaces, and the tokens of the whole are
the tokens of the pieces (`Token.tokenize_joinPieces`).
-/

namespace IntentGrammar

namespace Token

theorem tokenize_empty : tokenize "" = [] := by
  simp [tokenize, Text.words_nil]

theorem typed_ne_empty {text : String} {t : Token} (h : t ∈ tokenize text) :
    t.typed ≠ "" := by
  obtain ⟨run, -, hrun⟩ := List.mem_filterMap.1 h
  unfold ofRun? at hrun
  split at hrun
  · cases hrun
  · next hne =>
    cases hrun
    simpa [ofTyped, String.ofList_eq_empty_iff] using hne

/-- Blanks separate the tokens in front of them from those behind them. -/
theorem tokenize_append_blanks (a b : String) {w : String} (hne : w ≠ "")
    (hw : ∀ c ∈ w.toList, Text.isBlank c = true) :
    tokenize (a ++ w ++ b) = tokenize a ++ tokenize b := by
  have hlist : w.toList ≠ [] := mt String.toList_eq_nil_iff.1 hne
  unfold tokenize
  rw [String.toList_append, String.toList_append, List.append_assoc,
    Text.words_append_seps _ hlist hw, List.filterMap_append]

theorem tokenize_append_space (a b : String) :
    tokenize (a ++ " " ++ b) = tokenize a ++ tokenize b :=
  tokenize_append_blanks a b (by decide) (List.all_eq_true.1 (by decide))

theorem tokenize_intercalate (pieces : List String) :
    tokenize (" ".intercalate pieces) = pieces.flatMap tokenize := by
  induction pieces with
  | nil => rw [String.intercalate_nil, tokenize_empty, List.flatMap_nil]
  | cons a pieces ih =>
    cases pieces with
    | nil => rw [String.intercalate_singleton, List.flatMap_singleton]
    | cons b pieces =>
      rw [String.intercalate_cons_cons, tokenize_append_space, ih, ← List.flatMap_cons]

/-- Pieces that are left out have no tokens. -/
theorem tokenize_joinPieces (pieces : List String) :
    tokenize (Pattern.joinPieces pieces) = pieces.flatMap tokenize := by
  rw [Pattern.joinPieces, tokenize_intercalate]
  induction pieces with
  | nil => rfl
  | cons piece pieces ih =>
    by_cases h : piece = ""
    · rw [List.filter_cons_of_neg (by simp [h]), ih, List.flatMap_cons, h, tokenize_empty,
        List.nil_append]
    · rw [List.filter_cons_of_pos (by simp [h]), List.flatMap_cons, ih, List.flatMap_cons]

/-- A text that has one token knows the token by what was typed. -/
theorem tokenize_of_map_typed {text word : String}
    (h : (tokenize text).map (·.typed) = [word]) : tokenize text = [ofTyped word] := by
  obtain ⟨t, ht, rfl⟩ := List.map_eq_singleton_iff.1 h
  have hmem : t ∈ tokenize text := by rw [ht]; exact List.mem_singleton.2 rfl
  rw [ht, ← eq_ofTyped_of_mem_tokenize hmem]

end Token

namespace Pattern

theorem mem_of_mem_capped {cap : Nat} {texts : List String} {text : String}
    (h : text ∈ capped cap texts) : text ∈ texts :=
  List.mem_eraseDups.1 (List.mem_of_mem_take h)

/-- What an optional pattern adds is the empty text. -/
theorem mem_of_mem_optionally {cap : Nat} {optional : Bool} (texts : List String) {text : String}
    (h : text ∈ capped cap (texts ++ if optional then [""] else [])) :
    text ∈ texts ∨ optional = true ∧ text = "" := by
  refine (List.mem_append.1 (mem_of_mem_capped h)).imp id fun h => ?_
  cases optional with
  | false => cases h
  | true => exact ⟨rfl, List.mem_singleton.1 h⟩

/-! ### Combinations -/

/-- The pieces are one text of each part. -/
def Combines (pieces : List String) (parts : List (List String)) : Prop :=
  List.Forall₂ (fun piece texts => piece ∈ texts) pieces parts

theorem combines_heads {parts : List (List String)} (h : ∀ texts ∈ parts, texts ≠ []) :
    Combines (parts.map (·.headD "")) parts := by
  induction parts with
  | nil => exact .nil
  | cons texts parts ih =>
    refine .cons ?_ (ih fun texts' h' => h texts' (List.mem_cons_of_mem _ h'))
    cases texts with
    | nil => exact absurd rfl (h [] List.mem_cons_self)
    | cons text texts => exact List.mem_cons_self

theorem combines_of_mem_singleVariations {parts : List (List String)}
    (h : ∀ texts ∈ parts, texts ≠ []) {pieces : List String}
    (hpieces : pieces ∈ singleVariations parts) : Combines pieces parts := by
  induction parts generalizing pieces with
  | nil => cases hpieces
  | cons texts parts ih =>
    have hparts : ∀ texts ∈ parts, texts ≠ [] := fun texts' h' =>
      h texts' (List.mem_cons_of_mem _ h')
    cases texts with
    | nil => cases hpieces
    | cons first others =>
      rw [singleVariations] at hpieces
      rcases List.mem_append.1 hpieces with hother | hrest
      · obtain ⟨other, ho, rfl⟩ := List.mem_map.1 hother
        exact .cons (List.mem_cons_of_mem _ ho) (combines_heads hparts)
      · obtain ⟨rest, hr, rfl⟩ := List.mem_map.1 hrest
        exact .cons List.mem_cons_self (ih hparts hr)

/-- All choices of one text of each part; those of the last part vary fastest. -/
def choices : List (List String) → List (List String)
  | [] => [[]]
  | texts :: parts => texts.flatMap fun piece => (choices parts).map (piece :: ·)

/-- The combinations in the order in which they are tried. -/
def combinations (parts : List (List String)) : List (List String) :=
  if parts.any List.isEmpty then []
  else (parts.map (·.headD "") :: singleVariations parts) ++ choices parts

theorem mem_choices {pieces : List String} {parts : List (List String)} :
    pieces ∈ choices parts ↔ Combines pieces parts := by
  induction parts generalizing pieces with
  | nil => rw [choices, List.mem_singleton, Combines, List.forall₂_nil_right_iff]
  | cons texts parts ih =>
    rw [choices, List.mem_flatMap, Combines, List.forall₂_cons_right_iff]
    constructor
    · rintro ⟨piece, hpiece, hmem⟩
      obtain ⟨rest, hrest, rfl⟩ := List.mem_map.1 hmem
      exact ⟨piece, rest, hpiece, ih.1 hrest, rfl⟩
    · rintro ⟨piece, rest, hpiece, hrest, rfl⟩
      exact ⟨piece, hpiece, List.mem_map_of_mem (ih.2 hrest)⟩

/-- There is no choice of a text of a part that has none. -/
theorem Combines.ne_nil {pieces : List String} {parts : List (List String)}
    (h : Combines pieces parts) : ∀ texts ∈ parts, texts ≠ [] := by
  induction h with
  | nil => intro texts htexts; cases htexts
  | cons hpiece hrest ih =>
    intro texts' htexts'
    rcases List.mem_cons.1 htexts' with rfl | htexts'
    · exact List.ne_nil_of_mem hpiece
    · exact ih texts' htexts'

theorem mem_combinations {pieces : List String} {parts : List (List String)} :
    pieces ∈ combinations parts ↔ Combines pieces parts := by
  unfold combinations
  split
  · next hany =>
    refine iff_of_false List.not_mem_nil fun hpieces => ?_
    obtain ⟨texts, htexts, hempty⟩ := List.any_eq_true.1 hany
    exact hpieces.ne_nil texts htexts (List.isEmpty_iff.1 hempty)
  · next hany =>
    have hparts : ∀ texts ∈ parts, texts ≠ [] := by
      intro texts hmem hnil
      exact hany (List.any_eq_true.2 ⟨texts, hmem, by rw [hnil]; rfl⟩)
    rw [List.mem_append, mem_choices]
    refine ⟨fun h => h.elim (fun hspread => ?_) id, .inr⟩
    rcases List.mem_cons.1 hspread with rfl | hvaried
    · exact combines_heads hparts
    · exact combines_of_mem_singleVariations hparts hvaried

/-! ### Texts without duplicates -/

theorem eraseDups_concat (texts : List String) (text : String) :
    (texts ++ [text]).eraseDups =
      if text ∈ texts then texts.eraseDups else texts.eraseDups ++ [text] := by
  rw [List.eraseDups_append]
  split
  · next hmem => simp [List.removeAll, hmem]
  · next hmem => simp [List.removeAll, hmem, List.eraseDups_cons]

theorem nodup_eraseDups (texts : List String) : texts.eraseDups.Nodup := by
  induction texts using List.reverseRecOn with
  | nil => exact List.nodup_nil
  | append_singleton texts text ih =>
    rw [eraseDups_concat]
    split
    · exact ih
    · next hmem =>
      rw [← List.concat_eq_append]
      exact ih.concat (mt List.mem_eraseDups.1 hmem)

theorem eraseDups_of_nodup {texts : List String} (h : texts.Nodup) : texts.eraseDups = texts := by
  induction texts using List.reverseRecOn with
  | nil => rfl
  | append_singleton texts text ih =>
    rw [← List.concat_eq_append, List.nodup_concat] at h
    rw [eraseDups_concat, if_neg h.1, ih h.2]

theorem length_eraseDups (texts : List String) :
    texts.eraseDups.length = texts.toFinset.card := by
  rw [← List.toFinset_card_of_nodup (nodup_eraseDups texts)]
  congr 1
  ext text
  rw [List.mem_toFinset, List.mem_toFinset, List.mem_eraseDups]

/-! ### Texts in order -/

variable {cap : Nat}

theorem addCapped_of_le {found : List String} (h : cap ≤ found.length) (text : String) :
    addCapped cap found text = found := by
  rw [addCapped, if_pos (by simp [h])]

theorem foldl_addCapped_of_le {found : List String} (h : cap ≤ found.length)
    (texts : List String) : texts.foldl (addCapped cap) found = found := by
  induction texts with
  | nil => rfl
  | cons text texts ih => rw [List.foldl_cons, addCapped_of_le h, ih]

/-- The product of the parts is gone through in order, and broken off where the cap is reached. -/
theorem addProduct_eq (cap : Nat) (chosen : List String) (parts : List (List String))
    (found : List String) :
    addProduct cap chosen parts found =
      ((choices parts).map fun pieces => joinPieces (chosen ++ pieces)).foldl
        (addCapped cap) found := by
  induction parts generalizing chosen found with
  | nil => simp [addProduct, choices]
  | cons texts parts ih =>
    rw [addProduct, choices, List.map_flatMap, List.foldl_flatMap]
    congr 1
    funext found piece
    rw [List.map_map, ih]
    split
    · next hle => rw [foldl_addCapped_of_le hle]
    · simp [Function.comp_def]

/-- Texts added one by one are the first ones without duplicates. -/
theorem foldl_addCapped (cap : Nat) (texts : List String) :
    texts.foldl (addCapped cap) [] = texts.eraseDups.take cap := by
  -- texts are added at the end, so the last one is taken off
  induction texts using List.reverseRecOn with
  | nil => simp
  | append_singleton texts text ih =>
    rw [List.foldl_append, ih, List.foldl_cons, List.foldl_nil, eraseDups_concat]
    by_cases hcap : cap ≤ texts.eraseDups.length
    · rw [addCapped_of_le (by rw [List.length_take]; omega)]
      split
      · rfl
      · rw [List.take_append_of_le_length hcap]
    · have hall : texts.eraseDups.take cap = texts.eraseDups := List.take_of_length_le (by omega)
      rw [hall]
      split
      · next hmem => rw [hall, addCapped, if_pos (by simp [hmem])]
      · next hmem =>
        rw [addCapped, if_neg (by simp [hmem]; omega), List.take_of_length_le]
        rw [List.length_append, List.length_singleton]
        omega

/-- **The examples of a series in order**: the texts of the combinations of its parts, each once,
and no more than the cap allows. -/
theorem seriesTexts_eq (cap : Nat) (parts : List (List String)) :
    seriesTexts cap parts = ((combinations parts).map joinPieces).eraseDups.take cap := by
  unfold seriesTexts combinations
  split
  · simp
  · dsimp only
    rw [addProduct_eq, ← foldl_addCapped, List.map_append, List.foldl_append]
    simp

/-- An example of a series is joined from one example of each part. -/
theorem exists_of_mem_seriesTexts {parts : List (List String)} {text : String}
    (h : text ∈ seriesTexts cap parts) :
    ∃ pieces, Combines pieces parts ∧ text = joinPieces pieces := by
  rw [seriesTexts_eq] at h
  obtain ⟨pieces, hpieces, rfl⟩ :=
    List.mem_map.1 (List.mem_eraseDups.1 (List.mem_of_mem_take h))
  exact ⟨pieces, mem_combinations.1 hpieces, rfl⟩

end Pattern

end IntentGrammar
