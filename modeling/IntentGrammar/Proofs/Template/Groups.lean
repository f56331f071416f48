import IntentGrammar.Proofs.Template.Beside
import IntentGrammar.Proofs.Template.Blame
import IntentGrammar.Proofs.Template.Compiled
import IntentGrammar.Proofs.Template.Nesting
import IntentGrammar.Proofs.Template.Written

/-!
# Groups inside groups

A group holds no other group: a parenthesis inside one is refused where it stands.  A parenthesis
that is attached is none, though, but opens a fragment, and inside a group one can be attached
without a word in front of it: to the parenthesis of the group, or to a bar.

* `compile_nested_group_iff` : **a group inside a group is refused just when its parenthesis is not
  attached**.
-/

namespace IntentGrammar.Template

open Glyph (chars)

/-! ### Words with one fragment -/

/-- The glyph opens a bracket. -/
def Glyph.opens (g : Glyph) : Bool := (Bracket.ofOpener? g.char).isSome

theorem Glyph.opens_eq_true {g : Glyph} {b : Bracket} (h : Bracket.ofOpener? g.char = some b) :
    g.opens = true := by
  rw [opens, h]
  rfl

/-- No bracket is opened but a brace, and at most one of these. -/
structure OneBrace (gs : List Glyph) : Prop where
  eq_curly : ∀ g ∈ gs, ∀ b, Bracket.ofOpener? g.char = some b → b = .curly
  countP_le : gs.countP Glyph.opens ≤ 1

theorem OneBrace.sublist {gs hs : List Glyph} (h : OneBrace hs) (hsub : gs.Sublist hs) :
    OneBrace gs where
  eq_curly g hg := h.eq_curly g (hsub.subset hg)
  countP_le := hsub.countP_le.trans h.countP_le

theorem OneBrace.not_mem {gs : List Glyph} (h : OneBrace gs) {b : Bracket} (hb : b ≠ .curly) :
    ∀ c ∈ chars gs, c ≠ b.opener := by
  rintro _ hc rfl
  obtain ⟨g, hg, hchar⟩ := List.mem_map.1 hc
  exact hb (h.eq_curly g hg b (Bracket.ofOpener?_eq_some.2 hchar))

/-- A word has no misplaced bracket in it if none is opened in it but one brace, the one that may be
open already included. -/
theorem kind_of_strands {opened : Option (Nat × List Char)} {gs : List Glyph} {f : Fault}
    (hcurly : ∀ g ∈ gs, ∀ b, Bracket.ofOpener? g.char = some b → b = .curly)
    (hcount : opened.isSome.toNat + gs.countP Glyph.opens ≤ 1)
    (h : strands opened gs = .error f) : f.kind ≠ .nested := by
  have hmore (g : Glyph) (gs : List Glyph) (n : Nat) (h : n + (g :: gs).countP Glyph.opens ≤ 1) :
      n + gs.countP Glyph.opens ≤ 1 :=
    (Nat.add_le_add_left (List.sublist_cons_self g gs).countP_le n).trans h
  fun_induction strands opened gs with
  | case1 => cases h
  | case2 pos cs =>
    cases h
    rintro ⟨⟩
  | case3 g gs hcloser hopener ih =>
    exact ih (List.forall_mem_cons.1 hcurly).2 (hmore g gs 0 hcount) (map_eq_error h)
  | case4 g gs pos cs hcloser hopener ih =>
    exact ih (List.forall_mem_cons.1 hcurly).2 (hmore g gs 1 hcount) h
  | case5 g gs hopener ih =>
    rw [List.countP_cons_of_pos (Glyph.opens_eq_true hopener)] at hcount
    refine ih (List.forall_mem_cons.1 hcurly).2 ?_ h
    rwa [Option.isSome_some, Bool.toNat_true, Nat.add_comm, ← Nat.zero_add (_ + 1)]
  | case6 g gs pos cs hcloser hopener ih =>
    have hclosed : 0 + gs.countP Glyph.opens ≤ 1 :=
      (Nat.add_le_add_right (Nat.zero_le 1) _).trans (hmore g gs 1 hcount)
    exact ih (List.forall_mem_cons.1 hcurly).2 hclosed (map_eq_error h)
  | case7 opened g gs b hopener hno =>
    -- a brace is misplaced inside another only
    have hb : b = .curly := (List.forall_mem_cons.1 hcurly).1 b hopener
    rw [List.countP_cons_of_pos (Glyph.opens_eq_true hopener)] at hcount
    cases opened with
    | none => exact absurd hb (hno rfl)
    | some o =>
      rw [Option.isSome_some, Bool.toNat_true] at hcount
      omega
  | case8 opened g gs b hcloser hopener hno =>
    cases h
    rintro ⟨⟩

namespace Atom

theorem kind_of_read {g : Glyph} {gs : List Glyph} {f : Fault} (hone : OneBrace (g :: gs))
    (h : read g gs = .error f) : f.kind ≠ .nested := by
  obtain ⟨-, hread⟩ | ⟨optional, hread⟩ | ⟨stem, optional, -, hstem, hread⟩ := read_cases g gs
  · cases hread.symm.trans h
    rintro ⟨⟩
  · cases hread.symm.trans h
  · have hstemOne := hone.sublist hstem
    refine kind_of_strands hstemOne.eq_curly ?_ (map_eq_error (hread.symm.trans h))
    rw [Option.isSome_none, Bool.toNat_false, Nat.zero_add]
    exact hstemOne.countP_le

end Atom

/-- A group in which no bracket is opened but one brace has no misplaced one. -/
theorem Item.kind_of_readGroup {opener : Glyph} {b : Block} {f : Fault} (hone : OneBrace b.inside)
    (h : readGroup opener b = .error f) : f.kind ≠ .nested := by
  have hrefuse : refuse [.round, .square] opener b.inside = .ok () := by
    refine refuse_eq_ok fun c hc kind hkind => hone.not_mem ?_ c hc
    rintro rfl
    simp at hkind
  obtain hr | ⟨g, word, hword, hread⟩ := readGroup_eq_error h
  · cases hrefuse.symm.trans hr
  · exact Atom.kind_of_read (hone.sublist hword) hread

theorem Item.refuse_eq_error {openers : List Bracket} {opener : Glyph} {front : List Glyph}
    (hfront : ∀ c ∈ chars front, ∀ b ∈ openers, c ≠ b.opener) {b : Bracket} (hb : b ∈ openers)
    {g : Glyph} (hg : g.char = b.opener) (back : List Glyph) :
    refuse openers opener (front ++ g :: back) =
      .error ⟨g.pos, .insideConstruct g.char opener.char⟩ := by
  have hfind : ((g :: back).find? fun g => openers.any fun b => g.char == b.opener) = some g :=
    List.find?_cons_of_pos (List.any_eq_true.2 ⟨b, hb, beq_iff_eq.2 hg⟩)
  rw [refuse, List.find?_append, find?_opener_eq_none hfront, Option.none_or, hfind]

/-! ### Groups -/

/-- A template that is one group is read as what is inside. -/
theorem items_group (E : Entities) {template : String} {inside : List Char}
    (htext : braceAttached template.toList = '(' :: (inside ++ [')'])) (hpasses : Passes inside) :
    items E template = (Item.readGroup ⟨'(', 0⟩
      ⟨Glyph.number 1 inside, ⟨')', 1 + inside.length⟩, []⟩).map ([·]) := by
  have hgs : Glyph.number 0 (braceAttached template.toList) =
      ⟨'(', 0⟩ :: (Glyph.number 1 inside ++ [⟨')', 1 + inside.length⟩]) := by
    rw [htext, Glyph.number, Glyph.number_append]
    rfl
  have hdrop : (Glyph.mk '(' 0 :: (Glyph.number 1 inside ++ [⟨')', 1 + inside.length⟩])).dropWhile
      Glyph.isBlank = _ := List.dropWhile_cons_of_neg (by decide)
  have hb : block ⟨.round, 0⟩ [] (Glyph.number 1 inside ++ [⟨')', 1 + inside.length⟩]) =
      .ok ⟨Glyph.number 1 inside, ⟨')', 1 + inside.length⟩, []⟩ :=
    block_of_passes .round (by rwa [Glyph.chars_number]) rfl 0 []
  have hread := Item.read_group E.table (g := ⟨'(', 0⟩) rfl hb
  rw [items, hgs]
  generalize Item.readGroup _ _ = group at hread ⊢
  cases group with
  | error f => exact Item.readAll_fault _ hdrop hread
  | ok item =>
    rw [Item.readAll_item _ hdrop hread, Item.takeMark, Item.readAll_blank _ rfl]
    rfl

/-- A group around a group. -/
def nestedGroup (X Y Z : String) : String := "(" ++ X ++ "(" ++ Y ++ ")" ++ Z ++ ")"

/-- A parenthesis around `Y` that stands behind `X` is not attached: there is a blank in front of it
or in it, or nothing in it. -/
def Detached (X Y : String) : Prop :=
  (∃ c ∈ X.toList.getLast?, Text.isBlank c = true) ∨ Y = "" ∨
    ∃ c ∈ Y.toList, Text.isBlank c = true

variable {E : Entities} {intent : Option String} {X Y Z : String}

/-- The items of a template behind nothing, or behind another one and blanks. -/
theorem items_behind {A blanks : String} {as : List Item} (hA : items E A = .ok as)
    (hblanks : ∀ c ∈ blanks.toList, Text.isBlank c = true) (hfront : A = "" ∨ blanks ≠ "")
    (C : String) :
    items E (A ++ blanks ++ C) =
      ((items E C).mapError (Fault.move (· + (A ++ blanks).length))).map (as ++ ·) := by
  rw [String.length_append]
  by_cases hne : blanks = ""
  · obtain rfl := hfront.resolve_right (not_not.2 hne)
    subst hne
    have hnone : items E "" = .ok [] := Item.readAll_blank _ rfl
    cases hnone.symm.trans hA
    rw [String.append_empty, String.empty_append]
    cases items E C <;> rfl
  · exact items_beside hA hne hblanks C

theorem not_detached_iff :
    ¬Detached X Y ↔ (X.toList.getLast?.elim true fun c => !Text.isBlank c) = true ∧ Y ≠ "" ∧
      ∀ c ∈ Y.toList, Text.isBlank c = false := by
  cases hlast : X.toList.getLast? <;> simp [Detached, hlast]

theorem toList_nestedGroup :
    (nestedGroup X Y Z).toList =
      '(' :: (X.toList ++ '(' :: (Y.toList ++ ')' :: (Z.toList ++ [')']))) := by
  simp [nestedGroup]

section

variable (hX : ∀ c ∈ X.toList, isBracket c = false) (hY : ∀ c ∈ Y.toList, isBracket c = false)
  (hZ : ∀ c ∈ Z.toList, isBracket c = false)
include hX hY hZ

/-- The inner parenthesis of a nested group stays what it is. -/
theorem braceAttached_of_detached (h : Detached X Y) :
    braceAttached (nestedGroup X Y Z).toList =
      '(' :: (X.toList ++ '(' :: (Y.toList ++ ')' :: Z.toList) ++ [')']) := by
  have hround {cs : List Char} (h : ∀ c ∈ cs, isBracket c = false) : '(' ∉ cs :=
    not_mem_of_isBracket h rfl
  have hclosed : ')' ∉ Y.toList := not_mem_of_isBracket hY rfl
  have hrest : '(' ∉ Y.toList ++ ')' :: (Z.toList ++ [')']) := by
    simp [hround hY, hround hZ]
  have hnone : (X.toList.getLast?.elim true fun c => !Text.isBlank c) = true →
      attachedLength? (Y.toList ++ ')' :: (Z.toList ++ [')'])) = none := by
    intro hsolid
    rw [attachedLength?_closed hclosed]
    refine if_pos ?_
    obtain ⟨c, hc, hblank⟩ | rfl | ⟨c, hc, hblank⟩ := h
    · rw [Option.mem_def.1 hc, Option.elim_some, hblank] at hsolid
      cases hsolid
    · rfl
    · rw [List.any_eq_true.2 ⟨c, hc, hblank⟩, Bool.or_true]
  rw [toList_nestedGroup, braceAttached_round, braceFrom_plain (hround hX),
    braceFrom_round hnone, (Rewrites.self hrest).braceFrom_eq]
  simp

/-- The inner parentheses of a nested group become braces. -/
theorem braceAttached_of_not_detached (h : ¬Detached X Y) :
    braceAttached (nestedGroup X Y Z).toList =
      '(' :: (X.toList ++ '\x7b' :: (Y.toList ++ '\x7d' :: Z.toList) ++ [')']) := by
  obtain ⟨hsolid, hne, hinside⟩ := not_detached_iff.1 h
  have hplain : ∀ c ∈ Y.toList, isPlain c = true := fun c hc =>
    isPlain_iff.2 ⟨hinside c hc, hY c hc⟩
  have hround : '(' ∉ Z.toList := not_mem_of_isBracket hZ rfl
  have hend : '(' ∉ Z.toList ++ [')'] := by simp [hround]
  rw [toList_nestedGroup, braceAttached_round, braceFrom_plain (not_mem_of_isBracket hX rfl),
    hsolid, braceFrom_attached hplain (mt String.toList_eq_nil_iff.1 hne),
    (Rewrites.self hend).braceFrom_eq]
  simp

theorem oneBrace_number (start : Nat) :
    OneBrace (Glyph.number start (X.toList ++ '\x7b' :: (Y.toList ++ '\x7d' :: Z.toList))) where
  eq_curly g hg b hb := by
    have hmem := char_mem_chars hg
    rw [Glyph.chars_number] at hmem
    have hno {cs : List Char} (h : ∀ c ∈ cs, isBracket c = false) : g.char ∉ cs :=
      not_mem_of_isBracket h (by simp [isBracket, hb])
    simp only [List.mem_append, List.mem_cons, hno hX, hno hY, hno hZ, false_or, or_false] at hmem
    rcases hmem with hchar | hchar
    · cases (hchar ▸ hb : Bracket.ofOpener? '\x7b' = some b)
      rfl
    · cases (hchar ▸ hb : Bracket.ofOpener? '\x7d' = some b)
  countP_le := by
    have hzero {cs : List Char} (h : ∀ c ∈ cs, isBracket c = false) :
        cs.countP (fun c => (Bracket.ofOpener? c).isSome) = 0 :=
      List.countP_eq_zero.2 fun c hc => by simp [(isBracket_eq_false (h c hc)).1]
    have hchars (gs : List Glyph) :
        gs.countP Glyph.opens = (chars gs).countP fun c => (Bracket.ofOpener? c).isSome := by
      rw [chars, List.countP_map]
      rfl
    rw [hchars, Glyph.chars_number, List.countP_append, List.countP_cons, List.countP_append,
      List.countP_cons, hzero hX, hzero hY, hzero hZ]
    decide

/-- A nested group is refused at its inner parenthesis if this is not attached, and has no misplaced
bracket otherwise. -/
theorem items_nestedGroup (E : Entities) :
    (Detached X Y ∧
      items E (nestedGroup X Y Z) = .error ⟨1 + X.length, .insideConstruct '(' '('⟩) ∨
    (¬Detached X Y ∧ ∀ f, items E (nestedGroup X Y Z) = .error f → f.kind ≠ .nested) := by
  have hpasses (b : Bracket) :
      Passes (X.toList ++ b.opener :: (Y.toList ++ b.closer :: Z.toList)) := by
    rw [bracketed_append]
    exact Passes.append (.of_isBracket hX)
      (((Passes.of_isBracket hY).brackets b).append (.of_isBracket hZ))
  by_cases hdetached : Detached X Y
  · refine .inl ⟨hdetached, ?_⟩
    have htext := braceAttached_of_detached hX hY hZ hdetached
    have hfront : ∀ c ∈ chars (Glyph.number 1 X.toList), ∀ b ∈ [Bracket.round, .square],
        c ≠ b.opener := by
      intro c hc b _
      rw [Glyph.chars_number] at hc
      exact ne_of_isBracket (hX c hc) (by cases b <;> rfl)
    have hrefuse : Item.refuse [.round, .square] ⟨'(', 0⟩
        (Glyph.number 1 (X.toList ++ '(' :: (Y.toList ++ ')' :: Z.toList))) =
          .error ⟨1 + X.length, .insideConstruct '(' '('⟩ := by
      rw [Glyph.number_append, String.length_toList]
      exact Item.refuse_eq_error hfront List.mem_cons_self rfl _
    rw [items_group E htext (hpasses .round), Item.readGroup, hrefuse]
    rfl
  · refine .inr ⟨hdetached, fun f hf => ?_⟩
    have htext := braceAttached_of_not_detached hX hY hZ hdetached
    rw [items_group E htext (hpasses .curly)] at hf
    exact Item.kind_of_readGroup (oneBrace_number hX hY hZ 1) (map_eq_error hf)

/-- **A group inside a group is refused at its parenthesis**, whatever can be compiled in front of
the two, just when the parenthesis is not attached.  In front stands nothing, or a template with
blanks behind it. -/
theorem compile_nested_group_iff {A blanks : String} {P : Phrase}
    (hA : compile E intent A = .ok P) (hblanks : ∀ c ∈ blanks.toList, Text.isBlank c = true)
    (hfront : A = "" ∨ blanks ≠ "") :
    (∃ f, compile E intent (A ++ blanks ++ nestedGroup X Y Z) = .error f ∧ f.kind = .nested ∧
      f.position = (A ++ blanks).length + 1 + X.length) ↔ Detached X Y := by
  obtain ⟨as, has, rfl⟩ := Item.exists_of_map_eq_ok hA
  have hitems := items_behind has hblanks hfront (nestedGroup X Y Z)
  obtain ⟨hdetached, hN⟩ | ⟨hattached, hN⟩ := items_nestedGroup hX hY hZ E
  · refine iff_of_true ⟨⟨1 + X.length + (A ++ blanks).length, .insideConstruct '(' '('⟩, ?_, rfl, ?_⟩
      hdetached
    · rw [compile, hitems, hN]
      rfl
    · show 1 + X.length + (A ++ blanks).length = _
      omega
  · refine iff_of_false ?_ hattached
    rintro ⟨f, hf, hkind, -⟩
    cases hC : items E (nestedGroup X Y Z) with
    | error f' =>
      rw [compile, hitems, hC] at hf
      cases hf
      exact hN f' hC hkind
    | ok cs =>
      rw [compile, hitems, hC] at hf
      cases hf

end

/-- Behind a template and behind a bar, with a blank in front of it and one in it. -/
theorem compile_nested_option :
    ∃ f, compile Entities.none none ("find" ++ " " ++ nestedGroup "a | " "b c" "") = .error f ∧
      f.kind = .nested ∧ f.position = 10 := by
  have hA : compile Entities.none none "find" =
      .ok (assemble Entities.none none "find" [.atom (.word "find" false)]) := by
    with_unfolding_all rfl
  have hplain {cs : List Char} (h : (cs.all fun c => !isBracket c) = true) :
      ∀ c ∈ cs, isBracket c = false := by simpa using h
  have hblank : ∀ c ∈ " ".toList, Text.isBlank c = true := List.all_eq_true.1 rfl
  exact (compile_nested_group_iff (hplain (by decide)) (hplain (by decide)) (hplain (by decide))
    hA hblank (.inr (by decide))).2 (.inl ⟨' ', rfl, rfl⟩)

/-- A group in a group that is attached to the parenthesis in front of it is one optional word. -/
theorem compile_attached_group :
    ∃ P, compile Entities.none none (nestedGroup "" "a" "") = .ok P ∧
      P.body.plain = .series 0 [.choice 0 [.word 0 "a" true] false] := by
  have hP : compile Entities.none none (nestedGroup "" "a" "") =
      .ok (assemble Entities.none none "((a))" [.group [[.word "a" true]] false]) := by
    with_unfolding_all rfl
  exact ⟨_, hP, rfl⟩

end IntentGrammar.Template
