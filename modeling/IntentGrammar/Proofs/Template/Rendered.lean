import IntentGrammar.Proofs.Nodes
import IntentGrammar.Proofs.Template.Written

/-!
# Templates of patterns

A pattern is shown as it is written in a template.  For a body whose parts could stand in a template
the text that is shown is such a template, and compiling it gives the body back: what is rendered is
read as a text of the surface language, whose parts are those of the body (`Part.ofPattern`).

Not every pattern can be written: a word with a blank in it would be read as two, a question mark
at the end of a word would be read as its mark, and an option that is a group would be refused.
`Pattern.IsWritable` says which parts can.

* `compile_render` : **rendering a body and compiling the text gives the body back**, without tags.
-/

namespace IntentGrammar

open Template (isPlain isBracket)

namespace Pattern

/-- A literal that is read as a word of its own. -/
structure IsLiteral (literal : String) : Prop where
  ne_empty : literal ≠ ""
  ne_star : literal ≠ "*"
  plain : ∀ c ∈ literal.toList, isPlain c = true ∧ c ≠ '?'

/-- A word or a wildcard. -/
inductive IsTerm : Pattern → Prop
  | word (l : Nat) {literal : String} (optional : Bool) (h : IsLiteral literal) :
      IsTerm (.word l literal optional)
  | wildcard (l : Nat) (optional : Bool) : IsTerm (.wildcard l optional)

/-- A term without a bar in it, or several of them in a row. -/
inductive IsOption : Pattern → Prop
  | term {p : Pattern} (h : p.IsTerm) (hbar : '|' ∉ p.render.toList) : IsOption p
  | row (l : Nat) {ps : List Pattern} (hlength : 2 ≤ ps.length)
      (h : ∀ p ∈ ps, p.IsTerm ∧ '|' ∉ p.render.toList) : IsOption (.series l ps)

/-- A name of a slot that ends where it seems to end. -/
structure IsSlotName (name : String) : Prop where
  ne_empty : name ≠ ""
  trimmed : Text.trim Text.isBlank name.toList = name.toList
  plain : ∀ c ∈ name.toList, c ≠ ':' ∧ c ≠ '=' ∧ isBracket c = false

/-- A part of a body that can be written in a template: a term, a group of options, or a slot
around a wildcard or around its entity type.  A group without options cannot be told from an
optional one. -/
inductive IsWritable (E : Entities) : Pattern → Prop
  | term {p : Pattern} (h : p.IsTerm) : IsWritable E p
  | group (l : Nat) {options : List Pattern} {optional : Bool}
      (hne : options ≠ [] ∨ optional = true) (h : ∀ p ∈ options, p.IsOption) :
      IsWritable E (.choice l options optional)
  | slot (l l' : Nat) {name : String} (optional : Bool) (hname : IsSlotName name) :
      IsWritable E (.slot l name (.wildcard l' optional) none)
  | typed (l : Nat) {name kind : String} {inner entry : Pattern} (hname : IsSlotName name)
      (hentry : E.table.get? kind = some entry)
      (hinner : inner.plain = entry.plain ∨ inner.plain = (entry.optionally 0).plain) :
      IsWritable E (.slot l name inner (some kind))

theorem isOptional_plain (p : Pattern) : p.plain.isOptional = p.isOptional := by
  induction p using child_induction with
  | step p ih =>
    cases p with
    | slot l name inner kind => exact ih inner List.mem_cons_self
    | _ => rfl

theorem isOptional_optionally (l : Nat) (p : Pattern) : (p.optionally l).isOptional = true := by
  cases p <;> rfl

end Pattern

/-- A type that can be named in a slot, and that cannot be left out by itself: a slot without a
question mark is no optional one. -/
structure Entities.IsWritableType (kind : String) (entry : Pattern) : Prop where
  ne_empty : kind ≠ ""
  trimmed : Text.trim Text.isBlank kind.toList = kind.toList
  plain : ∀ c ∈ kind.toList, isBracket c = false
  required : entry.isOptional = false

/-- All types can be named in a slot. -/
def Entities.IsWritable (E : Entities) : Prop :=
  ∀ kind entry, E.table.get? kind = some entry → IsWritableType kind entry

namespace Template

open Pattern

theorem toList_questionMark (optional : Bool) : (questionMark optional).toList = mark optional := by
  cases optional <;> rfl

/-! ### Terms -/

/-- The term that a word or a wildcard is written as. -/
def Term.ofPattern : Pattern → Term
  | .word _ literal optional => ⟨.word literal.toList, optional⟩
  | p => ⟨.wildcard, p.isOptional⟩

/-- The terms of an option. -/
def optionTerms : Pattern → List Term
  | .series _ ps => ps.map Term.ofPattern
  | p => [Term.ofPattern p]

section

variable {p : Pattern}

theorem Term.wellFormed_ofPattern (h : p.IsTerm) : (Term.ofPattern p).form.WellFormed := by
  cases h with
  | @word l literal optional h =>
    refine ⟨mt String.toList_eq_nil_iff.1 h.ne_empty, fun hstar => ?_, fun hlast => ?_,
      fun c hc => (h.plain c hc).1⟩
    · exact h.ne_star (String.toList_injective hstar)
    · exact (h.plain '?' (List.mem_of_getLast? hlast)).2 rfl
  | wildcard => trivial

theorem Term.text_ofPattern (h : p.IsTerm) : (Term.ofPattern p).text = p.render.toList := by
  cases h with
  | word l optional h =>
    rw [render, String.toList_append, toList_questionMark]
    rfl
  | wildcard l optional =>
    rw [render, String.toList_append, toList_questionMark]
    rfl

theorem Term.pattern_ofPattern (h : p.IsTerm) : (Term.ofPattern p).pattern = p.plain := by
  cases h with
  | word l optional h =>
    simp only [Term.ofPattern, Term.pattern, String.ofList_toList]
    rfl
  | wildcard l optional => rfl

theorem Term.bar_not_mem_ofPattern (h : p.IsTerm) (hbar : '|' ∉ p.render.toList) :
    '|' ∉ (Term.ofPattern p).form.text := by
  rw [← Term.text_ofPattern h, Term.text, List.mem_append, not_or] at hbar
  exact hbar.1

end

/-! ### Options -/

section

variable {α : Type} {R : α → List Char → Prop}

theorem Spaced.concat_blank {xs : List α} {cs : List Char} (h : Spaced R xs cs) {c : Char}
    (hc : Text.isBlank c = true) : Spaced R xs (cs ++ [c]) := by
  induction h with
  | nil => exact .blank hc .nil
  | blank hblank h ih => exact .blank hblank ih
  | last hx => exact .cons hx hc .nil
  | cons hx hblank h ih =>
    rw [List.append_assoc]
    exact .cons hx hblank ih

theorem spaced_intercalate {xs : List α} {pieces : List (List Char)} (h : List.Forall₂ R xs pieces) :
    Spaced R xs ([' '].intercalate pieces) := by
  induction h with
  | nil => exact .nil
  | cons hx h ih =>
    cases h with
    | nil =>
      rw [List.intercalate_singleton]
      exact .last hx
    | cons hy h =>
      rw [List.intercalate_cons_cons, List.append_assoc]
      exact .cons hx rfl ih

/-- Bars with blanks around them separate like bars alone, and a bar at the end adds an empty
option. -/
theorem exists_texts {xs : List (List α)} {pieces : List (List Char)}
    (h : List.Forall₂ (Spaced R) xs pieces) (hne : xs ≠ []) (optional : Bool) :
    ∃ texts, List.Forall₂ (Spaced R) (xs ++ if optional then [[]] else []) texts ∧
      [' ', '|', ' '].intercalate pieces ++ (if optional then [' ', '|'] else []) =
        ['|'].intercalate texts := by
  induction h with
  | nil => exact absurd rfl hne
  | @cons x piece xs pieces hx h ih =>
    cases h with
    | nil =>
      cases optional with
      | false => exact ⟨[piece], .cons hx .nil, by simp⟩
      | true => exact ⟨[piece ++ [' '], []], .cons (hx.concat_blank rfl) (.cons .nil .nil), by simp⟩
    | cons hy h =>
      obtain ⟨texts, htexts, heq⟩ := ih nofun
      obtain ⟨text, more, htext, hmore, rfl⟩ := List.forall₂_cons_left_iff.1 htexts
      -- the blank in front of the bar goes to the option before it, the other to the option behind
      refine ⟨(piece ++ [' ']) :: (' ' :: text) :: more,
        .cons (hx.concat_blank rfl) (.cons (.blank rfl htext) hmore), ?_⟩
      have hblank : ['|'].intercalate ((' ' :: text) :: more) =
          ' ' :: ['|'].intercalate (text :: more) := by
        cases more with
        | nil => simp
        | cons text' more => simp [List.intercalate_cons_cons]
      rw [List.intercalate_cons_cons, List.append_assoc, heq, List.intercalate_cons_cons, hblank]
      simp

end

section

variable {p : Pattern}

theorem optionTerms_of_isTerm (h : p.IsTerm) : optionTerms p = [Term.ofPattern p] := by
  cases h <;> rfl

theorem spaced_optionTerms (h : p.IsOption) :
    Spaced (fun t cs => t.text = cs) (optionTerms p) p.render.toList := by
  cases h with
  | term h hbar =>
    rw [optionTerms_of_isTerm h]
    exact .last (Term.text_ofPattern h)
  | @row l ps hlength h =>
    rw [render, String.toList_intercalate, renderAll_eq, List.map_map]
    refine spaced_intercalate (List.forall₂_map_left_iff.2 (List.forall₂_map_right_iff.2 ?_))
    exact List.forall₂_same.2 fun p hp => Term.text_ofPattern (h p hp).1

theorem wellFormed_of_mem_optionTerms (h : p.IsOption) :
    ∀ t ∈ optionTerms p, t.form.WellFormed ∧ '|' ∉ t.form.text := by
  intro t ht
  cases h with
  | term h hbar =>
    rw [optionTerms_of_isTerm h, List.mem_singleton] at ht
    subst ht
    exact ⟨Term.wellFormed_ofPattern h, Term.bar_not_mem_ofPattern h hbar⟩
  | row l hlength h =>
    obtain ⟨p, hp, rfl⟩ := List.mem_map.1 ht
    exact ⟨Term.wellFormed_ofPattern (h p hp).1, Term.bar_not_mem_ofPattern (h p hp).1 (h p hp).2⟩

theorem optionTerms_ne_nil (h : p.IsOption) : optionTerms p ≠ [] := by
  cases h with
  | term h hbar =>
    rw [optionTerms_of_isTerm h]
    nofun
  | row l hlength h =>
    intro hnil
    rw [List.map_eq_nil_iff.1 hnil] at hlength
    cases hlength

theorem optionPattern_optionTerms (h : p.IsOption) :
    Term.optionPattern (optionTerms p) = p.plain := by
  cases h with
  | term h hbar =>
    rw [optionTerms_of_isTerm h]
    exact Term.pattern_ofPattern h
  | @row l ps hlength h =>
    have hpatterns : (ps.map Term.ofPattern).map Term.pattern = ps.map Pattern.plain := by
      rw [List.map_map]
      exact List.map_congr_left fun p hp => Term.pattern_ofPattern (h p hp).1
    rw [Pattern.plain, plainAll_eq, ← hpatterns]
    cases ps with
    | nil => simp at hlength
    | cons p ps =>
      cases ps with
      | nil => simp at hlength
      | cons q ps => rfl

end

/-- The options of a group, with the empty one that makes it optional.  Between the parentheses of
a group without options stands an empty one. -/
def groupOptions (options : List Pattern) (optional : Bool) : List (List Term) :=
  (if options.isEmpty then [[]] else options.map optionTerms) ++ if optional then [[]] else []

section

variable {options : List Pattern} {optional : Bool} (h : ∀ p ∈ options, p.IsOption)
include h

theorem wellFormed_of_mem_groupOptions {o : List Term} (ho : o ∈ groupOptions options optional) :
    ∀ t ∈ o, t.form.WellFormed ∧ '|' ∉ t.form.text := by
  have hempty (ho : o ∈ [([] : List Term)]) : ∀ t ∈ o, t.form.WellFormed ∧ '|' ∉ t.form.text := by
    rw [List.mem_singleton.1 ho]
    nofun
  rcases List.mem_append.1 ho with ho | ho <;> split at ho
  · exact hempty ho
  · obtain ⟨p, hp, rfl⟩ := List.mem_map.1 ho
    exact wellFormed_of_mem_optionTerms (h p hp)
  · exact hempty ho
  · cases ho

theorem filter_groupOptions :
    (groupOptions options optional).filter (!·.isEmpty) = options.map optionTerms := by
  have hkept : (options.map optionTerms).filter (!·.isEmpty) = options.map optionTerms := by
    refine List.filter_eq_self.2 fun o ho => ?_
    obtain ⟨p, hp, rfl⟩ := List.mem_map.1 ho
    rw [List.isEmpty_eq_false_iff.2 (optionTerms_ne_nil (h p hp))]
    rfl
  have hfirst : (if options.isEmpty then [[]] else options.map optionTerms).filter (!·.isEmpty) =
      options.map optionTerms := by
    cases options with
    | nil => rfl
    | cons p ps => exact hkept
  rw [groupOptions, List.filter_append, hfirst]
  cases optional <;> exact List.append_nil _

theorem any_isEmpty_groupOptions (hne : options ≠ [] ∨ optional = true) :
    (groupOptions options optional).any List.isEmpty = optional := by
  cases optional with
  | true => simp [groupOptions]
  | false =>
    have hoptions : options.isEmpty = false := List.isEmpty_eq_false_iff.2 (hne.resolve_right nofun)
    have hterms : ∀ p ∈ options, optionTerms p ≠ [] := fun p hp => optionTerms_ne_nil (h p hp)
    simpa [groupOptions, hoptions] using hterms

end

/-! ### Parts -/

/-- The part of a template that a pattern is written as. -/
def Part.ofPattern (E : Entities) : Pattern → Part
  | .choice _ options optional => .group (groupOptions options optional) false
  | .slot _ name inner kind =>
    .slot name.toList (kind.bind fun k => (E.table.get? k).map (k.toList, ·)) inner.isOptional
  | p => .term (Term.ofPattern p)

namespace Part

variable {E : Entities} {p : Pattern}

theorem ofPattern_of_isTerm (h : p.IsTerm) : ofPattern E p = .term (Term.ofPattern p) := by
  cases h <;> rfl

theorem toList_render_choice (l : Nat) (options : List Pattern) (optional : Bool) :
    (Pattern.choice l options optional).render.toList =
      '(' :: ([' ', '|', ' '].intercalate (options.map fun p => p.render.toList) ++
        (if optional then [' ', '|'] else []) ++ [')']) := by
  rw [render, renderAll_eq]
  cases optional <;> simp [String.toList_intercalate, Function.comp_def]

theorem written_group (l : Nat) {options : List Pattern} (optional : Bool)
    (h : ∀ p ∈ options, p.IsOption) :
    (ofPattern E (.choice l options optional)).Written Term.text
      (Pattern.choice l options optional).render.toList := by
  have hspaced : List.Forall₂ (Spaced fun t cs => Term.text t = cs)
      (if options.isEmpty then [[]] else options.map optionTerms)
      (if options.isEmpty then [[]] else options.map fun p => p.render.toList) := by
    split
    · exact .cons .nil .nil
    · refine List.forall₂_map_left_iff.2 (List.forall₂_map_right_iff.2 ?_)
      exact List.forall₂_same.2 fun p hp => spaced_optionTerms (h p hp)
  have hne : (if options.isEmpty then [[]] else options.map optionTerms) ≠ [] := by
    cases options <;> nofun
  have hpieces : [' ', '|', ' '].intercalate
        (if options.isEmpty then [[]] else options.map fun p => p.render.toList) =
      [' ', '|', ' '].intercalate (options.map fun p => p.render.toList) := by
    cases options <;> rfl
  obtain ⟨texts, htexts, heq⟩ := exists_texts hspaced hne optional
  rw [toList_render_choice, ← hpieces, heq]
  exact .group false htexts

theorem written_slot (l : Nat) {name : String} {inner : Pattern} {kind : Option String}
    {entity : Option (List Char × Pattern)}
    (hlabel : (slotLabel name kind).toList = slotText name.toList entity) :
    (Part.slot name.toList entity inner.isOptional).Written Term.text
      (Pattern.slot l name inner kind).render.toList := by
  have htext : (Pattern.slot l name inner kind).render.toList =
      '[' :: (slotText name.toList entity ++ ']' :: mark inner.isOptional) := by
    rw [render, String.toList_append, toList_questionMark, ← hlabel]
    simp
  rw [htext]
  exact .slot name.toList entity inner.isOptional

theorem written_ofPattern (hE : E.IsWritable) (h : p.IsWritable E) :
    (ofPattern E p).Written Term.text p.render.toList := by
  cases h with
  | term h =>
    rw [ofPattern_of_isTerm h, ← Term.text_ofPattern h]
    exact .term _
  | group l hne h => exact written_group l _ h
  | slot l l' optional hname => exact written_slot l rfl
  | @typed l name kind inner entry hname hentry hinner =>
    have hne := (hE kind entry hentry).ne_empty
    rw [ofPattern, Option.bind_some, hentry]
    refine written_slot l ?_
    rw [slotLabel]
    · simp [slotText]
    · exact hne

theorem exists_solid {name : String} (hname : IsSlotName name) :
    ∃ c ∈ name.toList, Text.isBlank c = false := by
  obtain ⟨c, cs, hcs⟩ := List.exists_cons_of_ne_nil (mt String.toList_eq_nil_iff.1 hname.ne_empty)
  have hhead := head?_trim Text.isBlank name.toList
  have hsolid := List.head?_dropWhile_not Text.isBlank name.toList
  rw [hname.trimmed, hcs] at hhead
  rw [hcs, ← hhead] at hsolid
  exact ⟨c, hcs ▸ List.mem_cons_self, hsolid⟩

theorem wellFormed_ofPattern (hE : E.IsWritable) (h : p.IsWritable E) :
    (ofPattern E p).WellFormed E := by
  cases h with
  | term h =>
    rw [ofPattern_of_isTerm h]
    exact Term.wellFormed_ofPattern h
  | @group l options optional hne h =>
    refine ⟨?_, fun o ho => wellFormed_of_mem_groupOptions h ho⟩
    cases options <;> nofun
  | slot l l' optional hname => exact ⟨exists_solid hname, hname.plain, nofun⟩
  | @typed l name kind inner entry hname hentry hinner =>
    rw [ofPattern, Option.bind_some, hentry]
    refine ⟨exists_solid hname, hname.plain, fun e he => ?_⟩
    cases he
    rw [(hE kind entry hentry).trimmed, String.ofList_toList]
    exact ⟨(hE kind entry hentry).plain, hentry⟩

theorem pattern_ofPattern (hE : E.IsWritable) (h : p.IsWritable E) :
    (ofPattern E p).pattern = p.plain := by
  cases h with
  | term h =>
    rw [ofPattern_of_isTerm h]
    exact Term.pattern_ofPattern h
  | @group l options optional hne h =>
    have hoptions : (options.map optionTerms).map Term.optionPattern = options.map Pattern.plain := by
      rw [List.map_map]
      exact List.map_congr_left fun p hp => optionPattern_optionTerms (h p hp)
    rw [ofPattern, pattern, filter_groupOptions h, any_isEmpty_groupOptions h hne, hoptions,
      Pattern.plain, plainAll_eq, Bool.false_or]
  | slot l l' optional hname =>
    simp only [ofPattern, Option.bind_none, pattern, hname.trimmed, String.ofList_toList]
    rfl
  | @typed l name kind inner entry hname hentry hinner =>
    have hentity : (if inner.isOptional then entry.plain.optionally 0 else entry.plain) =
        inner.plain := by
      rw [← isOptional_plain]
      rcases hinner with hinner | hinner
      · rw [hinner, isOptional_plain, (hE kind entry hentry).required]
        rfl
      · rw [hinner, isOptional_plain, isOptional_optionally, if_pos rfl, plain_optionally]
    rw [ofPattern, Option.bind_some, hentry]
    simp only [Option.map_some, pattern, hname.trimmed, (hE kind entry hentry).trimmed,
      String.ofList_toList, hentity]
    rfl

end Part

/-- **Rendering and compiling.**  A body whose parts can be written in a template is rendered as a
template that compiles to it, without tags. -/
theorem compile_render {E : Entities} (hE : E.IsWritable) {parts : List Pattern}
    (h : ∀ p ∈ parts, p.IsWritable E) (l : Nat) (intent : Option String) :
    ∃ P, compile E intent (Pattern.series l parts).render = .ok P ∧
      P.body.plain = (Pattern.series l parts).plain ∧ P.tags = [] := by
  have hwf : ∀ part ∈ parts.map (Part.ofPattern E), part.WellFormed E :=
    List.forall_mem_map.2 fun p hp => Part.wellFormed_ofPattern hE (h p hp)
  have hwritten : Spaced (Part.Written Term.text) (parts.map (Part.ofPattern E))
      (Pattern.series l parts).render.toList := by
    rw [render, String.toList_intercalate, renderAll_eq, List.map_map]
    refine spaced_intercalate (List.forall₂_map_left_iff.2 (List.forall₂_map_right_iff.2 ?_))
    exact List.forall₂_same.2 fun p hp => Part.written_ofPattern hE (h p hp)
  have hitems : items E (Pattern.series l parts).render =
      .ok ((parts.map (Part.ofPattern E)).map Part.item) :=
    readAll_spaced hwf (spaced_braceAttached hwf hwritten) (Glyph.chars_number _ _)
  refine ⟨assemble E intent _ _, by rw [compile, hitems]; rfl, ?_, ?_⟩
  · have hpatterns : (parts.map (Part.ofPattern E)).map Part.pattern = parts.map Pattern.plain := by
      rw [List.map_map]
      exact List.map_congr_left fun p hp => Part.pattern_ofPattern hE (h p hp)
    have hpattern : Item.plain? ∘ Part.item = some ∘ Part.pattern := funext Part.plain?_item
    rw [assemble, Pattern.plain, Item.plainAll_buildAll, List.filterMap_map, hpattern,
      List.filterMap_eq_map, hpatterns, Pattern.plain, plainAll_eq]
  · have hassignments :
        ((parts.map (Part.ofPattern E)).map Part.item).flatMap Item.assignments = [] := by
      simp [List.flatMap_map, Part.assignments_item]
    rw [assemble, hassignments]
    rfl

/-- A type with one surface form. -/
def cityTypes : Entities := ⟨[("city", .choice 0 [.word 1 "Paris" false] false)], 2⟩

/-- An optional word, an optional group with a row of terms, and slots with and without a type. -/
def tripParts : List Pattern :=
  [.word 0 "go|walk" true,
    .choice 1 [.series 2 [.word 3 "by" false, .wildcard 4 true], .word 5 "fast" false] true,
    .slot 6 "to" (.choice 7 [.word 1 "Paris" false] true) (some "city"),
    .slot 8 "day" (.wildcard 9 false) none]

theorem isWritable_cityTypes : cityTypes.IsWritable := by
  intro kind entry hentry
  simp only [cityTypes, Table.get?] at hentry
  split at hentry
  · next hkind =>
    subst hkind
    cases hentry
    have hplain : ("city".toList.all fun c => !isBracket c) = true := rfl
    exact ⟨by decide, rfl, fun c hc => by simpa using List.all_eq_true.1 hplain c hc, rfl⟩
  · cases hentry

theorem isWritable_of_mem_tripParts : ∀ p ∈ tripParts, p.IsWritable cityTypes := by
  have hliteral {literal : String} (hne : literal ≠ "") (hstar : literal ≠ "*")
      (hplain : (literal.toList.all fun c => isPlain c && c != '?') = true) : IsLiteral literal :=
    ⟨hne, hstar, fun c hc => by simpa using List.all_eq_true.1 hplain c hc⟩
  have hword : IsLiteral "go|walk" := hliteral (by decide) (by decide) rfl
  have hby : IsLiteral "by" := hliteral (by decide) (by decide) rfl
  have hfast : IsLiteral "fast" := hliteral (by decide) (by decide) rfl
  have hname {name : String} (hne : name ≠ "")
      (htrim : Text.trim Text.isBlank name.toList = name.toList)
      (hplain : (name.toList.all fun c => c != ':' && c != '=' && !isBracket c) = true) :
      IsSlotName name :=
    ⟨hne, htrim, fun c hc => by simpa [and_assoc] using List.all_eq_true.1 hplain c hc⟩
  have hto : IsSlotName "to" := hname (by decide) rfl rfl
  have hday : IsSlotName "day" := hname (by decide) rfl rfl
  have hrow : (Pattern.series 2 [.word 3 "by" false, .wildcard 4 true]).IsOption :=
    .row 2 (by decide) (List.forall_mem_cons.2 ⟨⟨.word 3 false hby, by decide⟩,
      List.forall_mem_singleton.2 ⟨.wildcard 4 true, by decide⟩⟩)
  have hoptions := List.forall_mem_cons.2 ⟨hrow,
    List.forall_mem_singleton.2 (IsOption.term (.word 5 false hfast) (by decide))⟩
  exact List.forall_mem_cons.2 ⟨.term (.word 0 true hword),
    List.forall_mem_cons.2 ⟨.group 1 (.inr rfl) hoptions,
    List.forall_mem_cons.2 ⟨.typed 6 hto rfl (.inr rfl),
    List.forall_mem_singleton.2 (.slot 8 9 false hday)⟩⟩⟩

theorem compile_trip :
    ∃ P, compile cityTypes none "go|walk? (by *? | fast |) [to:city]? [day]" = .ok P ∧
      P.body.plain = (Pattern.series 0 tripParts).plain ∧ P.tags = [] := by
  have hrender : (Pattern.series 0 tripParts).render =
      "go|walk? (by *? | fast |) [to:city]? [day]" := by
    decide
  rw [← hrender]
  exact compile_render isWritable_cityTypes isWritable_of_mem_tripParts 0 none

end Template

end IntentGrammar
