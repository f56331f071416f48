import IntentGrammar.Proofs.Combinations
import IntentGrammar.Proofs.Template.Names
import IntentGrammar.Proofs.Template.Written
import Mathlib.Tactic.MkIffOfInductiveProp

/-!
# Tags as they are written

A tag block is a list of assignments with blanks between them, in braces or in square brackets; an
assignment is a name and a value around an equals sign (`Assigns`, `TagBlock.Written`).  Values have
no marks around them, and still each is read up to its end, also where it is empty or ends in words
that look like names (`readAssignments_assigns`).

* `compile_tagBlocks` : **a template of tag blocks compiles to the tags that are written in it**:
  a name that is given once stands for its value, a name that is given more often for the list of
  its values.
-/

namespace IntentGrammar

/-- The names of the tags are those that are given a text, in the order in which they first are. -/
theorem Tag.names_collect (assignments : List (String × String)) :
    (collect assignments).names = (assignments.map Prod.fst).eraseDups := by
  induction assignments using List.reverseRecOn with
  | nil => rfl
  | append_singleton assignments e ih =>
    have hgive : collect (assignments ++ [e]) = give (collect assignments) e.1 e.2 :=
      List.foldl_append
    rw [hgive, give, Table.names_put, ih, List.map_append, List.map_singleton,
      Pattern.eraseDups_concat]
    simp only [List.mem_eraseDups]

namespace Template

open Glyph (chars)

/-! ### Assignments -/

/-- The text assigns the value to the name: they stand around an equals sign, with any blanks
between. -/
def Assigns (e : String × String) (cs : List Char) : Prop :=
  ∃ before after, (∀ c ∈ before, Text.isBlank c = true) ∧ (∀ c ∈ after, Text.isBlank c = true) ∧
    cs = e.1.toList ++ (before ++ '=' :: (after ++ e.2.toList))

/-- Names are plain and not empty; values are on one line and hold no equals sign. -/
@[mk_iff]
structure Assignable (e : String × String) : Prop where
  nonempty : e.1 ≠ ""
  name : ∀ c ∈ e.1.toList, isNameChar c = true
  line : '\n' ∉ e.2.toList
  sign : '=' ∉ e.2.toList

-- said with `all`: the characters of a text are tried, and not all characters
instance (e : String × String) : Decidable (Assignable e) :=
  decidable_of_iff (e.1 ≠ "" ∧ e.1.toList.all isNameChar = true ∧ '\n' ∉ e.2.toList ∧
    '=' ∉ e.2.toList) (by rw [List.all_eq_true, assignable_iff])

/-- What is read of an assignment: the value is trimmed. -/
def trimmed (e : String × String) : String × String :=
  (e.1, String.ofList (Text.trim Text.isBlank e.2.toList))

theorem dedent_of_line {cs : List Char} (hline : '\n' ∉ Text.trim Text.isBlank cs) :
    dedent cs = Text.trim Text.isBlank cs := by
  have hsplit : (Text.trim Text.isBlank cs).splitOnP (· == '\n') = [Text.trim Text.isBlank cs] :=
    List.splitOnP_eq_singleton fun c hc => beq_eq_false_iff_ne.2 fun hbreak => hline (hbreak ▸ hc)
  rw [dedent, hsplit]
  exact List.intercalate_singleton

/-- The assignment that is read from what the cut makes of it. -/
def ofCut (e : List Glyph × List Glyph) : String × String :=
  (Glyph.text e.1, String.ofList (dedent (chars e.2)))

/-- The parts of an assignment as it is written. -/
theorem Assigns.exists_nameParts {e : String × String} (he : Assignable e) {piece : List Glyph}
    (h : Assigns e (chars piece)) :
    ∃ name blanks sign w, NameParts isNameChar piece [] name blanks sign w ∧
      Glyph.text name = e.1 ∧ '=' ∉ chars w ∧
      Text.trim Text.isBlank (chars w) = Text.trim Text.isBlank e.2.toList := by
  obtain ⟨before, after, hbefore, hafter, hpiece⟩ := h
  obtain ⟨name, gs₁, rfl, hname, hgs₁⟩ := chars_eq_append hpiece
  obtain ⟨blanks, gs₂, rfl, rfl, hgs₂⟩ := chars_eq_append hgs₁
  obtain ⟨sign, w, rfl, hsign, hw⟩ := chars_eq_cons hgs₂
  refine ⟨name, blanks, sign, w, ⟨rfl, ?_, ?_, ?_, ?_, hsign⟩, ?_, ?_, ?_⟩
  · exact fun g hg => absurd hg List.not_mem_nil
  · rintro rfl
    exact he.nonempty (String.toList_eq_nil_iff.1 hname.symm)
  · exact fun g hg => he.name _ (hname ▸ char_mem_chars hg)
  · exact fun g hg => hbefore _ (char_mem_chars hg)
  · rw [Glyph.text, hname, String.ofList_toList]
  · rw [hw, List.mem_append, not_or]
    exact ⟨fun hmem => ne_of_isBlank (hafter _ hmem) (by decide) rfl, he.sign⟩
  · rw [hw, Text.trim_of_forall_append hafter]

/-- An assignment is cut off in front of what follows, with its value trimmed. -/
theorem cutAtNames_assigns_append {e : String × String} (he : Assignable e) {piece : List Glyph}
    (h : Assigns e (chars piece)) {tail : List Glyph} (hhead : ∀ g ∈ tail.head?, g.isBlank = true)
    (htail : Tidy tail) :
    (cutAtNames (piece ++ tail)).2.map ofCut = trimmed e :: (cutAtNames tail).2.map ofCut ∧
      Tidy (piece ++ tail) := by
  obtain ⟨name, blanks, sign, w, hparts, hname, hsigns, hw⟩ := h.exists_nameParts he
  have hfound := (nameBefore?_eq_some_iff nameClass_isNameChar).2 ⟨_, _, _, hparts.append tail⟩
  obtain ⟨hmore, htrim⟩ := cutAtNames_value_append hsigns hhead htail
  have hvalue : Text.trim Text.isBlank (chars (cutAtNames (w ++ tail)).1) =
      Text.trim Text.isBlank e.2.toList := by
    rw [← Glyph.chars_trim, htrim, Glyph.chars_trim, hw]
  have hdedent : dedent (chars (cutAtNames (w ++ tail)).1) = Text.trim Text.isBlank e.2.toList := by
    rw [dedent_of_line (hvalue ▸ mt Text.mem_of_mem_trim he.line), hvalue]
  refine ⟨?_, tidy_of_name hfound⟩
  rw [cutAtNames_name hfound, List.map_cons, hmore, ofCut, hdedent, hname]
  rfl

/-- **What a block of assignments is cut into**: each assignment, with its value up to the next. -/
theorem cutAtNames_assigns {entries : List (String × String)} (hwf : ∀ e ∈ entries, Assignable e)
    {cs : List Char} (h : Spaced Assigns entries cs) {gs : List Glyph} (hgs : chars gs = cs) :
    (cutAtNames gs).2.map ofCut = entries.map trimmed ∧ Tidy gs := by
  induction h generalizing gs with
  | nil =>
    obtain rfl := List.map_eq_nil_iff.1 hgs
    rw [cutAtNames_nil]
    exact ⟨rfl, .nil⟩
  | blank hc h ih =>
    obtain ⟨g, gs', rfl, rfl, hgs'⟩ := chars_eq_cons hgs
    obtain ⟨hcut, htidy⟩ := ih hwf hgs'
    exact ⟨(@cutAtNames_blank g hc gs').1.symm ▸ hcut, htidy.blank hc⟩
  | last hx =>
    have hhead : ∀ g ∈ ([] : List Glyph).head?, g.isBlank = true := fun g hg =>
      absurd hg (Option.not_mem_none g)
    obtain ⟨hcut, htidy⟩ := cutAtNames_assigns_append (hwf _ List.mem_cons_self) (hgs ▸ hx)
      hhead .nil
    rw [List.append_nil] at hcut htidy
    rw [hcut, cutAtNames_nil]
    exact ⟨rfl, htidy⟩
  | cons hx hc h ih =>
    obtain ⟨piece, gs₁, rfl, hpiece, hgs₁⟩ := chars_eq_append hgs
    obtain ⟨g, gs₂, rfl, rfl, hgs₂⟩ := chars_eq_cons hgs₁
    obtain ⟨hmore, htidy⟩ := ih (fun e he => hwf e (List.mem_cons_of_mem _ he)) hgs₂
    have hhead : ∀ g' ∈ (g :: gs₂).head?, g'.isBlank = true := by
      rintro _ ⟨⟩
      exact hc
    obtain ⟨hcut, htidy'⟩ := cutAtNames_assigns_append (hwf _ List.mem_cons_self) (hpiece ▸ hx)
      hhead (htidy.blank hc)
    rw [hcut, (@cutAtNames_blank g hc gs₂).1, hmore]
    exact ⟨rfl, htidy'⟩

section

variable {entries : List (String × String)} (hne : entries ≠ []) (hwf : ∀ e ∈ entries, Assignable e)
  {gs : List Glyph} (h : Spaced Assigns entries (chars gs))
include hne hwf h

theorem cutAtNames_assigns_ne_nil : (cutAtNames gs).2 ≠ [] := by
  obtain ⟨hcut, -⟩ := cutAtNames_assigns hwf h rfl
  intro hnil
  rw [hnil] at hcut
  exact hne (List.map_eq_nil_iff.1 hcut.symm)

theorem readAssignments_assigns (opener closer : Glyph) (rest : List Glyph) :
    readAssignments opener ⟨gs, closer, rest⟩ = .ok (entries.map trimmed) := by
  obtain ⟨hcut, htidy⟩ := cutAtNames_assigns hwf h rfl
  have hsome : (cutAtNames gs).2.isEmpty = false :=
    List.isEmpty_eq_false_iff.2 (cutAtNames_assigns_ne_nil hne hwf h)
  simp only [readAssignments, hsome, List.dropWhile_eq_nil_iff.2 htidy.leading,
    Bool.false_eq_true, if_false]
  exact congrArg Except.ok hcut

/-- In square brackets, assignments are taken for a tag block. -/
theorem startsTags_assigns : Item.startsTags gs = true := by
  have htidy := (cutAtNames_assigns hwf h rfl).2
  obtain ⟨⟨name, value⟩, hfound⟩ := Option.isSome_iff_exists.1
    (isSome_nameBefore?_of_leading htidy.leading (cutAtNames_assigns_ne_nil hne hwf h))
  obtain ⟨before, after, sign, hparts⟩ := exists_nameParts hfound
  rw [startsTags_eq, nameBefore?_of_forall nameClass_isLeadChar hfound fun g hg =>
    isLeadChar_of_isNameChar (hparts.name g hg)]
  rfl

end

/-! ### Tag blocks -/

/-- A tag block: its brackets, and its assignments in order. -/
structure TagBlock where
  bracket : Bracket
  entries : List (String × String)

namespace TagBlock

/-- The text is a way to write the block. -/
def Written (t : TagBlock) (cs : List Char) : Prop :=
  ∃ inside, Spaced Assigns t.entries inside ∧
    cs = t.bracket.opener :: (inside ++ [t.bracket.closer])

/-- A block stands in braces or in square brackets and holds an assignment or more, without brackets
in their values. -/
@[mk_iff]
structure WellFormed (t : TagBlock) : Prop where
  bracket : t.bracket ≠ .round
  nonempty : t.entries ≠ []
  assignable : ∀ e ∈ t.entries, Assignable e
  plain : ∀ e ∈ t.entries, ∀ c ∈ e.2.toList, isBracket c = false

instance (t : TagBlock) : Decidable t.WellFormed :=
  decidable_of_iff (t.bracket ≠ .round ∧ t.entries ≠ [] ∧ (∀ e ∈ t.entries, Assignable e) ∧
    ∀ e ∈ t.entries, e.2.toList.all (!isBracket ·) = true) (by simp [wellFormed_iff])

variable {t : TagBlock} {cs : List Char}

theorem isBracket_of_mem_inside (hwf : t.WellFormed) {inside : List Char}
    (h : Spaced Assigns t.entries inside) : ∀ c ∈ inside, isBracket c = false := by
  intro c hc
  obtain hblank | ⟨e, he, piece, ⟨before, after, hbefore, hafter, rfl⟩, hc⟩ := h.of_mem hc
  · exact isBracket_of_isBlank hblank
  simp only [List.mem_append, List.mem_cons] at hc
  rcases hc with hc | hc | rfl | hc | hc
  · exact isBracket_of_isNameChar ((hwf.assignable e he).name c hc)
  · exact isBracket_of_isBlank (hbefore c hc)
  · rfl
  · exact isBracket_of_isBlank (hafter c hc)
  · exact hwf.plain e he c hc

/-- A block holds no parenthesis, so nothing in it is attached. -/
theorem round_not_mem (hwf : t.WellFormed) (h : t.Written cs) : '(' ∉ cs := by
  obtain ⟨inside, hinside, rfl⟩ := h
  have hmem : '(' ∉ inside :=
    not_mem_of_isBracket (isBracket_of_mem_inside hwf hinside) rfl
  have hbracket := hwf.bracket
  cases hb : t.bracket with
  | round => exact absurd hb hbracket
  | square => simp [Bracket.opener, Bracket.closer, hmem]
  | curly => simp [Bracket.opener, Bracket.closer, hmem]

/-- What is read of a block: its assignments, with trimmed values. -/
theorem readAll_written (E : Entities) (hwf : t.WellFormed) {gs : List Glyph}
    (h : t.Written (chars gs)) :
    Item.readAll E.table gs = .ok [.tags (t.entries.map trimmed)] := by
  obtain ⟨inside, hinside, hgs⟩ := h
  have hpasses : Passes inside := .of_isBracket (isBracket_of_mem_inside hwf hinside)
  obtain ⟨opener, b, gs', rfl, hopener, hsolid, rfl, hcloser, hrest, hb⟩ :=
    exists_block t.bracket hpasses hgs
  have hread := readAssignments_assigns hwf.nonempty hwf.assignable hinside opener b.closer
    b.rest
  have hstart : t.bracket = .curly ∨ t.bracket = .square ∧ Item.startsTags gs' = true := by
    cases ht : t.bracket with
    | round => exact absurd ht hwf.bracket
    | curly => exact .inl rfl
    | square =>
      rw [ht] at hcloser
      refine .inr ⟨rfl, ?_⟩
      rw [append_of_block hb, Item.startsTags_append (.inl hcloser),
        startsTags_assigns hwf.nonempty hwf.assignable hinside]
  refine readAll_one hsolid ?_
  rw [Item.read_tags _ hopener hb hstart, hread, List.map_eq_nil_iff.1 hrest]
  rfl

end TagBlock

/-- **A template of tag blocks compiles to the tags that are written in it.**  The phrase has no
parts.  A name that is given once stands for its trimmed value, a name that is given more often for
the list of its trimmed values in order, and there are no other names. -/
theorem compile_tagBlocks (E : Entities) (intent : Option String) {template : String}
    {blocks : List TagBlock} (hwf : ∀ t ∈ blocks, t.WellFormed)
    (h : Spaced TagBlock.Written blocks template.toList) :
    ∃ P, compile E intent template = .ok P ∧ P.body.plain = .series 0 [] ∧
      P.tags.names = ((blocks.flatMap TagBlock.entries).map Prod.fst).eraseDups ∧
      ∀ name, P.tags.get? name =
        Tag.ofTexts? (Tag.textsFor name ((blocks.flatMap TagBlock.entries).map trimmed)) := by
  have hround : '(' ∉ template.toList := by
    intro hmem
    obtain hblank | ⟨t, ht, piece, hpiece, hc⟩ := h.of_mem hmem
    · exact absurd hblank (by decide)
    · exact TagBlock.round_not_mem (hwf t ht) hpiece hc
  have hkept : braceAttached template.toList = template.toList :=
    (Rewrites.self hround).braceFrom_eq false
  have hitems : items E template =
      .ok (blocks.map fun t => .tags (t.entries.map trimmed)) := by
    rw [items, hkept]
    exact readAll_pieces (fun t ht gs hgs => t.readAll_written E (hwf t ht) hgs) h
      (Glyph.chars_number _ _)
  have hassignments : (blocks.map fun t => Item.tags (t.entries.map trimmed)).flatMap
      Item.assignments = (blocks.flatMap TagBlock.entries).map trimmed := by
    rw [List.flatMap_map, List.map_flatMap]
    rfl
  have hnames : ((blocks.flatMap TagBlock.entries).map trimmed).map Prod.fst =
      (blocks.flatMap TagBlock.entries).map Prod.fst := List.map_map
  refine ⟨assemble E intent template (blocks.map fun t => .tags (t.entries.map trimmed)),
    ?_, ?_, ?_, fun name => ?_⟩
  · rw [compile, hitems]
    rfl
  · have hparts : (blocks.map fun t => Item.tags (t.entries.map trimmed)).filterMap
        Item.plain? = [] := by
      rw [List.filterMap_map]
      exact List.filterMap_eq_nil_iff.2 fun t _ => rfl
    rw [assemble, Pattern.plain, Item.plainAll_buildAll, hparts]
  · rw [assemble, hassignments, Tag.names_collect, hnames]
  · rw [assemble, hassignments, Tag.get?_collect]

/-- A name that comes back within a block and in another, with values that are empty or end like a
name. -/
def moodBlocks : List TagBlock :=
  [⟨.square, [("mood", "calm tone")]⟩, ⟨.curly, [("mood", ""), ("tone-2", "x "), ("mood", "")]⟩]

theorem compile_mood_blocks :
    ∃ P, compile Entities.none none "[mood=calm tone]\t\x7b mood = tone-2 =x  mood=\x7d" = .ok P ∧
      P.body.plain = .series 0 [] ∧ P.tags.names = ["mood", "tone-2"] ∧
      P.tags.get? "mood" = some (.many ["calm tone", "", ""]) ∧
      P.tags.get? "tone-2" = some (.one "x") := by
  have hwf : ∀ t ∈ moodBlocks, t.WellFormed := by decide
  have hblank : ∀ c ∈ [' '], Text.isBlank c = true := List.forall_mem_singleton.2 rfl
  have hwritten : Spaced TagBlock.Written moodBlocks
      "[mood=calm tone]\t\x7b mood = tone-2 =x  mood=\x7d".toList := by
    show Spaced TagBlock.Written moodBlocks
      ("[mood=calm tone]".toList ++ '\t' :: "\x7b mood = tone-2 =x  mood=\x7d".toList)
    have hfirst : Spaced Assigns [("mood", "calm tone")] "mood=calm tone".toList :=
      .last ⟨[], [], nofun, nofun, rfl⟩
    have hsecond : Spaced Assigns [("mood", ""), ("tone-2", "x "), ("mood", "")]
        (' ' :: ("mood =".toList ++ ' ' :: ("tone-2 =x ".toList ++ ' ' :: "mood=".toList))) :=
      .blank rfl (.cons ⟨[' '], [], hblank, nofun, rfl⟩ rfl
        (.cons ⟨[' '], [], hblank, nofun, rfl⟩ rfl (.last ⟨[], [], nofun, nofun, rfl⟩)))
    exact .cons ⟨_, hfirst, rfl⟩ rfl (.last ⟨_, hsecond, rfl⟩)
  obtain ⟨P, hP, hbody, hnames, htags⟩ := compile_tagBlocks Entities.none none hwf hwritten
  refine ⟨P, hP, hbody, hnames.trans (by decide), ?_, ?_⟩
  · rw [htags]
    decide
  · rw [htags]
    decide

end Template

end IntentGrammar
