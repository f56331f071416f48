import IntentGrammar.Proofs.Template.Names
import IntentGrammar.Template.Compile

/-!
# The two readings of a tag

A square bracket is taken for a tag block when a name and an equals sign follow it, and the block is
then cut at its names.  The names of the first reading are made of the letters and digits of all
scripts (`isLeadChar`), those of the second of ASCII only (`isNameChar`), so the two do not always
see the same name.

* `read_lead_iff` : **the block assigns to the name that was seen in front of it just when that name
  is plain**; otherwise the block is refused for the text in it.
* `compile_accented_lead` : a tag whose name has an accent is refused.
-/

namespace IntentGrammar.Template

open Glyph (chars)

variable {gs key rest : List Glyph} {b : Block}

/-- The name that was seen lies inside the block. -/
theorem nameBefore?_inside {pos : Nat} (hb : block ⟨.square, pos⟩ [] gs = .ok b)
    (hlead : nameBefore? isLeadChar gs = some (key, rest)) :
    ∃ value, nameBefore? isLeadChar b.inside = some (key, value) := by
  have hcloser : b.closer.char = ']' := closer_of_block rfl hb
  have hblank : b.closer.isBlank = false := by
    rw [Glyph.isBlank, hcloser]
    decide
  have hlead' : isLeadChar b.closer.char = false := by
    rw [hcloser]
    decide
  have hsign : b.closer.char ≠ '=' := by
    rw [hcloser]
    decide
  rw [append_of_block hb, nameBefore?_append hblank hlead' hsign] at hlead
  obtain ⟨⟨name, value⟩, hinside, hfound⟩ := Option.map_eq_some_iff.1 hlead
  cases hfound
  exact ⟨value, hinside⟩

/-- A block that starts with a plain name and an equals sign assigns to that name first. -/
theorem readAssignments_of_plain {value : List Glyph}
    (hlead : nameBefore? isLeadChar b.inside = some (key, value))
    (hkey : ∀ g ∈ key, isNameChar g.char = true) (opener : Glyph) :
    ∃ text more, readAssignments opener b = .ok ((Glyph.text key, text) :: more) := by
  have hcut := cutAtNames_name (nameBefore?_of_forall nameClass_isNameChar hlead hkey)
  simp only [readAssignments, hcut, List.isEmpty_cons, Bool.false_eq_true, if_false,
    List.dropWhile_nil, List.map_cons]
  exact ⟨_, _, rfl⟩

/-- A block with text in front of its first assignment is refused. -/
theorem readAssignments_of_leading {g : Glyph} (hg : g ∈ (cutAtNames b.inside).1)
    (hsolid : g.isBlank = false) (opener : Glyph) :
    ∃ f, readAssignments opener b = .error f ∧
      (f.kind = .noParameters ∨ f.kind = .unexpectedText) := by
  obtain ⟨stray, more, hstray⟩ : ∃ stray more,
      (cutAtNames b.inside).1.dropWhile Glyph.isBlank = stray :: more := by
    refine List.exists_cons_of_ne_nil fun hnil => ?_
    cases hsolid.symm.trans (List.dropWhile_eq_nil_iff.1 hnil g hg)
  simp only [readAssignments, hstray]
  split
  · exact ⟨_, rfl, .inl rfl⟩
  · exact ⟨_, rfl, .inr rfl⟩

/-- A block that starts with any other name is refused: the cut passes over the characters of the
name that are not plain. -/
theorem readAssignments_of_not_plain {value : List Glyph}
    (hlead : nameBefore? isLeadChar b.inside = some (key, value)) {g : Glyph} (hg : g ∈ key)
    (hname : isNameChar g.char = false) (opener : Glyph) :
    ∃ f, readAssignments opener b = .error f ∧
      (f.kind = .noParameters ∨ f.kind = .unexpectedText) := by
  obtain ⟨before, after, sign, hinside, hbefore, -, hkey, -, -⟩ := exists_nameParts hlead
  obtain ⟨front, back, rfl⟩ := List.append_of_mem hg
  obtain ⟨hblank, hsign⟩ := nameClass_isLeadChar _ (hkey g hg)
  have hfront : '=' ∉ chars (before ++ front) := by
    intro hmem
    obtain ⟨g', hg', hchar⟩ := List.mem_map.1 hmem
    rcases List.mem_append.1 hg' with hg' | hg'
    · exact ne_of_isBlank (hbefore g' hg') (by decide) hchar
    · exact (nameClass_isLeadChar _ (hkey g' (List.mem_append_left _ hg'))).2 hchar
  have hsplit : b.inside = before ++ front ++ g :: (back ++ (after ++ sign :: value)) := by
    rw [hinside]
    simp
  have hmem : g ∈ (cutAtNames b.inside).1 := by
    rw [hsplit, cutAtNames_front hfront hblank hsign (nameBefore?_of_not hblank hname)]
    exact List.mem_append_right _ List.mem_cons_self
  exact readAssignments_of_leading hmem hblank opener

/-- **The two readings of a tag agree on plain names only.**  Where a name and an equals sign follow
a square bracket that is closed, the tag block is read, and its first assignment is to that name, if
all of the name is plain; otherwise the block is refused, as one without assignments or with text in
front of them. -/
theorem read_lead_iff (entities : Table Pattern) {opener : Glyph} (hopener : opener.char = '[')
    (hlead : nameBefore? isLeadChar gs = some (key, rest))
    (hb : block ⟨.square, opener.pos⟩ [] gs = .ok b) :
    ((∃ text more, Item.read entities opener gs =
        .ok (.tags ((Glyph.text key, text) :: more), b.rest)) ↔
      ∀ g ∈ key, isNameChar g.char = true) ∧
    ((∃ f, Item.read entities opener gs = .error f ∧
        (f.kind = .noParameters ∨ f.kind = .unexpectedText)) ↔
      ∃ g ∈ key, isNameChar g.char = false) := by
  have hread : Item.read entities opener gs =
      (readAssignments opener b).map (.tags ·, b.rest) := by
    have hsquare : Bracket.ofOpener? opener.char = some .square :=
      Bracket.ofOpener?_eq_some.2 hopener
    have hstart : Item.startsTags gs = true := by
      rw [startsTags_eq, hlead]
      rfl
    exact Item.read_tags _ hsquare hb (.inr ⟨rfl, hstart⟩)
  obtain ⟨value, hinside⟩ := nameBefore?_inside hb hlead
  by_cases hkey : ∀ g ∈ key, isNameChar g.char = true
  · obtain ⟨text, more, hok⟩ := readAssignments_of_plain hinside hkey opener
    rw [hread, hok]
    refine ⟨iff_of_true ⟨text, more, rfl⟩ hkey, iff_of_false ?_ ?_⟩
    · rintro ⟨f, hf, -⟩
      cases hf
    · rintro ⟨g, hg, hno⟩
      cases (hkey g hg).symm.trans hno
  · obtain ⟨g, hg, hno⟩ : ∃ g ∈ key, isNameChar g.char = false := by simpa using hkey
    obtain ⟨f, hf, hkind⟩ := readAssignments_of_not_plain hinside hg hno opener
    rw [hread, hf]
    refine ⟨iff_of_false ?_ hkey, iff_of_true ⟨f, rfl, hkind⟩ ⟨g, hg, hno⟩⟩
    rintro ⟨text, more, hok⟩
    cases hok

/-- What follows the bracket of `[ tone-1 = warm]`. -/
def toneText : List Glyph := Glyph.number 1 " tone-1 = warm]".toList

/-- A plain name is the name that the block assigns to. -/
theorem read_plain_lead :
    ∃ key rest b, nameBefore? isLeadChar toneText = some (key, rest) ∧
      Glyph.text key = "tone-1" ∧ block ⟨.square, 0⟩ [] toneText = .ok b ∧
      ∃ text more, Item.read [] ⟨'[', 0⟩ toneText =
        .ok (.tags (("tone-1", text) :: more), b.rest) := by
  have hlead : nameBefore? isLeadChar toneText =
      some (Glyph.number 2 "tone-1".toList, Glyph.number 10 " warm]".toList) := by
    rfl
  have hb : block ⟨.square, 0⟩ [] toneText =
      .ok ⟨Glyph.number 1 " tone-1 = warm".toList, ⟨']', 15⟩, []⟩ := by
    rfl
  have hplain : ∀ g ∈ Glyph.number 2 "tone-1".toList, isNameChar g.char = true :=
    List.all_eq_true.1 rfl
  exact ⟨_, _, _, hlead, rfl, hb, (read_lead_iff [] rfl hlead hb).1.2 hplain⟩

/-- A name with an accent is seen in front of the block and refused in it. -/
theorem compile_accented_lead :
    (nameBefore? isLeadChar (Glyph.number 1 "éa=v]".toList)).map (Glyph.text ·.1) = some "éa" ∧
      compile Entities.none none "[éa=v]" = .error ⟨1, .strayText "é"⟩ := by
  have hlead : (nameBefore? isLeadChar (Glyph.number 1 "éa=v]".toList)).map (Glyph.text ·.1) =
      some "éa" := by decide +kernel
  have hstart : Item.startsTags (Glyph.number 1 "éa=v]".toList) = true := by
    rw [startsTags_eq, ← Option.isSome_map, hlead]
    rfl
  have hb : block ⟨.square, 0⟩ [] (Glyph.number 1 "éa=v]".toList) =
      .ok ⟨Glyph.number 1 "éa=v".toList, ⟨']', 5⟩, []⟩ := by
    rfl
  have hread : Item.read Entities.none.table ⟨'[', 0⟩ (Glyph.number 1 "éa=v]".toList) =
      .error ⟨1, .strayText "é"⟩ := by
    rw [Item.read_tags _ rfl hb (.inr ⟨rfl, hstart⟩)]
    with_unfolding_all rfl
  have hgs : (Glyph.number 0 (braceAttached "[éa=v]".toList)).dropWhile Glyph.isBlank =
      ⟨'[', 0⟩ :: Glyph.number 1 "éa=v]".toList := by
    rfl
  refine ⟨hlead, ?_⟩
  rw [compile, items, Item.readAll_fault Entities.none.table hgs hread]
  rfl

end IntentGrammar.Template
