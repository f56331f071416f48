import IntentGrammar.Proofs.Template.Built
import IntentGrammar.Proofs.Template.Places
import IntentGrammar.Proofs.Template.Seams

/-!
# Templates side by side

Two templates with blanks between them are one template, and neither changes what the other means:
the parts of the whole are those of the front and then those of the back, and a tag collects the
texts of both.  A fault in the back stays the same fault and moves by the length of what stands in
front of it.

* `compile_beside` : **compiling the whole is compiling its two halves**, when the front can be
  compiled.
-/

namespace IntentGrammar

/-- The parts of a series. -/
def Pattern.parts : Pattern → List Pattern
  | .series _ ps => ps
  | _ => []

/-- The texts of a tag of a phrase, in order. -/
def Phrase.textsOf (P : Phrase) (name : String) : List String :=
  (P.tags.get? name).elim [] Tag.texts

/-- The phrase `R` says what `P` says and then what `Q` says. -/
structure Phrase.Joins (P Q R : Phrase) : Prop where
  body : R.body.plain =
    .series 0 (Pattern.plainAll P.body.parts ++ Pattern.plainAll Q.body.parts)
  tags : ∀ name, R.tags.get? name = Tag.ofTexts? (P.textsOf name ++ Q.textsOf name)

namespace Template

variable {E : Entities} {intent : Option String}

theorem textsFor_append (name : String) (es fs : List (String × String)) :
    Tag.textsFor name (es ++ fs) = Tag.textsFor name es ++ Tag.textsFor name fs := by
  rw [Tag.textsFor, List.filter_append, List.map_append]
  rfl

theorem textsOf_assemble (source : String) (as : List Item) (name : String) :
    (assemble E intent source as).textsOf name =
      Tag.textsFor name (as.flatMap Item.assignments) := by
  rw [Phrase.textsOf, assemble, Tag.get?_collect, Tag.texts_ofTexts?]

/-- A phrase made of items and more items. -/
theorem joins_assemble (A C R : String) (as cs : List Item) :
    (assemble E intent A as).Joins (assemble E intent C cs)
      (assemble E intent R (as ++ cs)) where
  body := by
    simp only [assemble, Pattern.plain, Pattern.parts, Item.plainAll_buildAll,
      List.filterMap_append]
  tags name := by
    rw [textsOf_assemble, textsOf_assemble, ← textsFor_append, ← List.flatMap_append]
    exact Tag.get?_collect _ name

theorem isBlank_of_mem_number {start : Nat} {cs : List Char}
    (h : ∀ c ∈ cs, Text.isBlank c = true) : ∀ g ∈ Glyph.number start cs, g.isBlank = true := by
  intro g hg
  have hmem : g.char ∈ Glyph.chars (Glyph.number start cs) := List.mem_map_of_mem hg
  rw [Glyph.chars_number] at hmem
  exact h _ hmem

/-- The glyphs of two texts with blanks between them. -/
theorem number_beside (cs ds : List Char) (blank : Char) (more : List Char) :
    Glyph.number 0 (cs ++ blank :: (more ++ ds)) =
      Glyph.number 0 cs ++ ⟨blank, cs.length⟩ :: (Glyph.number (cs.length + 1) more ++
        (Glyph.number 0 ds).map (Glyph.move (· + (cs.length + (more.length + 1))))) := by
  have hlength : cs.length + 1 + more.length = 0 + (cs.length + (more.length + 1)) := by omega
  rw [Glyph.number_append, Nat.zero_add, Glyph.number, Glyph.number_append, hlength,
    Glyph.number_add 0]

/-- The items of two templates with blanks between them. -/
theorem items_beside {A blanks : String} {as : List Item} (hA : items E A = .ok as)
    (hne : blanks ≠ "") (hblanks : ∀ c ∈ blanks.toList, Text.isBlank c = true) (C : String) :
    items E (A ++ blanks ++ C) =
      ((items E C).mapError (Fault.move (· + (A.length + blanks.length)))).map (as ++ ·) := by
  obtain ⟨blank, more, hsplit⟩ := List.exists_cons_of_ne_nil (mt String.toList_eq_nil_iff.1 hne)
  have hlength : blanks.length = more.length + 1 := by
    rw [← String.length_toList, hsplit, List.length_cons]
  rw [hsplit] at hblanks
  have hblank : Text.isBlank blank = true := hblanks blank List.mem_cons_self
  have hmore : ∀ c ∈ more, Text.isBlank c = true := fun c hc =>
    hblanks c (List.mem_cons_of_mem _ hc)
  have htext : braceAttached (A ++ blanks ++ C).toList =
      braceAttached A.toList ++ blank :: (more ++ braceAttached C.toList) := by
    rw [String.toList_append, String.toList_append, hsplit, List.append_assoc, List.cons_append,
      braceAttached_seam hblank, braceAttached_blanks (List.all_eq_true.2 hmore)]
  have hback := Item.readAll_move (· + (A.length + blanks.length)) E.table
    (Glyph.number 0 (braceAttached C.toList))
  have hsep : Glyph.isBlank ⟨blank, (braceAttached A.toList).length⟩ = true := hblank
  have hfront (hs : List Glyph) := Item.readAll_seam hsep hA hs
  rw [items, htext, number_beside, hfront, Item.readAll_blanks (isBlank_of_mem_number hmore),
    length_braceAttached, String.length_toList, ← hlength, hback, items]

/-- **Templates compose at blanks.**  If the front can be compiled, the whole can be compiled just
when the back can, and says what the two say one after the other; a fault of the back is the fault
of the whole, behind the front and the blanks. -/
theorem compile_beside {A blanks : String} {P : Phrase} (hA : compile E intent A = .ok P)
    (hne : blanks ≠ "") (hblanks : ∀ c ∈ blanks.toList, Text.isBlank c = true) (C : String) :
    (∀ Q, compile E intent C = .ok Q →
      ∃ R, compile E intent (A ++ blanks ++ C) = .ok R ∧ P.Joins Q R) ∧
    ∀ f, compile E intent C = .error f →
      compile E intent (A ++ blanks ++ C) =
        .error ⟨A.length + blanks.length + f.position, f.cause⟩ := by
  cases has : items E A with
  | error f =>
    rw [compile, has] at hA
    cases hA
  | ok as =>
    rw [compile, has] at hA
    cases hA
    have hitems := items_beside has hne hblanks C
    constructor
    · intro Q hC
      cases hcs : items E C with
      | error f =>
        rw [compile, hcs] at hC
        cases hC
      | ok cs =>
        rw [compile, hcs] at hC
        cases hC
        rw [compile, hitems, hcs]
        exact ⟨_, rfl, joins_assemble A C _ as cs⟩
    · intro f hC
      cases hcs : items E C with
      | error f' =>
        rw [compile, hcs] at hC
        cases hC
        rw [compile, hitems, hcs, Nat.add_comm _ f.position]
        rfl
      | ok cs =>
        rw [compile, hcs] at hC
        cases hC

/-- A tag in front and behind collects both texts, and a fault behind keeps its cause. -/
theorem compile_pages_beside :
    ∃ P Q R, compile Entities.none none "[k=a] page(s)" = .ok P ∧
      compile Entities.none none "[k=b] *?" = .ok Q ∧
      compile Entities.none none ("[k=a] page(s)" ++ " \t" ++ "[k=b] *?") = .ok R ∧
      R.tags.get? "k" = some (.many ["a", "b"]) ∧
      compile Entities.none none ("[k=a] page(s)" ++ " \t" ++ "no)") =
        .error ⟨17, .unmatched ')'⟩ := by
  have hA : compile Entities.none none "[k=a] page(s)" =
      .ok (assemble Entities.none none "[k=a] page(s)"
        [.tags [("k", "a")], .atom (.variants "page" "pages" false)]) := by
    with_unfolding_all rfl
  have hQ : compile Entities.none none "[k=b] *?" =
      .ok (assemble Entities.none none "[k=b] *?" [.tags [("k", "b")], .atom (.wildcard true)]) := by
    with_unfolding_all rfl
  have hf : compile Entities.none none "no)" = .error ⟨2, .unmatched ')'⟩ := by
    with_unfolding_all rfl
  have hne : " \t" ≠ "" := by decide
  have hbeside := compile_beside hA hne (List.all_eq_true.1 rfl)
  obtain ⟨R, hR, hjoins⟩ := (hbeside "[k=b] *?").1 _ hQ
  exact ⟨_, _, R, hA, hQ, hR, hjoins.tags "k", (hbeside "no)").2 _ hf⟩

end Template

end IntentGrammar
