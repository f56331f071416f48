import IntentGrammar.Proofs.Template.Assignments
import IntentGrammar.Proofs.Template.Nesting

/-!
# Values of tags

A tag block with one assignment, `name = value`, whose value is nested text on one line.  The value
is read as it stands, with its brackets, but parentheses that are attached have been written as
braces before: also inside a value, where they stand for nothing but themselves.

* `compile_value_iff` : **the tag holds the trimmed value just when no parenthesis of the value is
  attached.**
-/

namespace IntentGrammar

/-- The phrase has no parts, and `name` is its only tag, with one text. -/
structure Phrase.OnlyTag (P : Phrase) (name text : String) : Prop where
  body : P.body.plain = .series 0 []
  tags : P.tags = [(name, .one text)]

namespace Template

open Glyph (chars)

/-! ### Attached parentheses -/

/-- A parenthesis of the text is attached: something other than a blank stands in front of it, and
behind it a run without blanks that is closed.  `solid` says what stands in front of the text. -/
def HoldsAttached (solid : Bool) (cs : List Char) : Prop :=
  ∃ front run back, cs = front ++ '(' :: (run ++ ')' :: back) ∧
    front.getLast?.elim solid (fun c => !Text.isBlank c) = true ∧ run ≠ [] ∧ run.all isAttachable

theorem holdsAttached_cons {solid : Bool} {c : Char} {cs : List Char} :
    HoldsAttached solid (c :: cs) ↔
      (solid = true ∧ c = '(' ∧ (attachedLength? cs).isSome) ∨
        HoldsAttached (!Text.isBlank c) cs := by
  constructor
  · rintro ⟨front, run, back, hcs, hfront, hne, hrun⟩
    cases front with
    | nil =>
      obtain ⟨rfl, rfl⟩ := List.cons.inj hcs
      exact .inl ⟨hfront, rfl, Option.isSome_iff_exists.2
        ⟨_, attachedLength?_eq_some.2 ⟨run, back, rfl, hne, rfl, hrun⟩⟩⟩
    | cons d front =>
      obtain ⟨rfl, rfl⟩ := List.cons.inj hcs
      rw [elim_getLast?_cons] at hfront
      exact .inr ⟨front, run, back, rfl, hfront, hne, hrun⟩
  · rintro (⟨rfl, rfl, hattached⟩ | ⟨front, run, back, rfl, hfront, hne, hrun⟩)
    · obtain ⟨n, hn⟩ := Option.isSome_iff_exists.1 hattached
      obtain ⟨run, back, rfl, hne, -, hrun⟩ := attachedLength?_eq_some.1 hn
      exact ⟨[], run, back, rfl, rfl, hne, hrun⟩
    · exact ⟨c :: front, run, back, rfl, (elim_getLast?_cons c front solid).trans hfront, hne, hrun⟩

/-- A text without attached parentheses is kept, and in any other the first of them is opened by a
brace. -/
theorem braceFrom_cases (solid : Bool) (cs : List Char) :
    (¬HoldsAttached solid cs ∧ braceFrom solid 0 cs = cs) ∨
      (HoldsAttached solid cs ∧ ∃ front back back', cs = front ++ '(' :: back ∧
        braceFrom solid 0 cs = front ++ '\x7b' :: back') := by
  induction cs generalizing solid with
  | nil =>
    refine .inl ⟨?_, rfl⟩
    rintro ⟨front, run, back, hcs, -⟩
    cases front <;> cases hcs
  | cons c cs ih =>
    by_cases hhead : solid = true ∧ c = '(' ∧ (attachedLength? cs).isSome
    · obtain ⟨rfl, rfl, hattached⟩ := hhead
      obtain ⟨n, hn⟩ := Option.isSome_iff_exists.1 hattached
      refine .inr ⟨holdsAttached_cons.2 (.inl ⟨rfl, rfl, hattached⟩), [], cs,
        braceFrom true (n + 1) cs, rfl, ?_⟩
      rw [braceFrom, hn]
      rfl
    · have hnone : (if solid && c == '(' then attachedLength? cs else none) = none := by
        split
        · next h =>
          obtain ⟨hsolid, hc⟩ := Bool.and_eq_true_iff.1 h
          exact Option.not_isSome_iff_eq_none.1 fun hsome => hhead ⟨hsolid, beq_iff_eq.1 hc, hsome⟩
        · rfl
      have hkeep : braceFrom solid 0 (c :: cs) = c :: braceFrom (!Text.isBlank c) 0 cs := by
        rw [braceFrom, hnone]
      rw [holdsAttached_cons, hkeep]
      obtain ⟨hno, hcs⟩ | ⟨hholds, front, back, back', rfl, hcs⟩ := ih (!Text.isBlank c)
      · exact .inl ⟨not_or.2 ⟨hhead, hno⟩, congrArg (c :: ·) hcs⟩
      · exact .inr ⟨.inr hholds, c :: front, back, back', rfl, congrArg (c :: ·) hcs⟩

/-- Only attached parentheses are written as braces. -/
theorem braceAttached_eq_self_iff {cs : List Char} :
    braceAttached cs = cs ↔ ¬HoldsAttached false cs := by
  obtain ⟨hno, hkept⟩ | ⟨hholds, front, back, back', rfl, hbrace⟩ := braceFrom_cases false cs
  · exact iff_of_true hkept hno
  · refine iff_of_false (fun hkept => ?_) (not_not.2 hholds)
    rw [braceAttached, hbrace, List.append_cancel_left_eq] at hkept
    cases (List.cons.inj hkept).1

theorem exists_of_concat_eq {α : Type} {xs front back : List α} {x y : α} (hxy : x ≠ y)
    (h : xs ++ [x] = front ++ y :: back) :
    ∃ back', xs = front ++ y :: back' ∧ back = back' ++ [x] := by
  obtain rfl | ⟨back, z, rfl⟩ := List.eq_nil_or_concat' back
  · exact absurd (List.cons.inj (List.append_inj_right' h rfl)).1 hxy
  · rw [← List.cons_append, ← List.append_assoc] at h
    obtain ⟨rfl, hz⟩ := List.append_inj' h rfl
    exact ⟨back, rfl, by rw [hz]⟩

/-- A character behind the text that closes no parenthesis does not attach one. -/
theorem holdsAttached_concat {solid : Bool} {cs : List Char} {c : Char} (hc : c ≠ ')') :
    HoldsAttached solid (cs ++ [c]) ↔ HoldsAttached solid cs := by
  constructor
  · rintro ⟨front, run, back, hcs, h⟩
    rw [← List.cons_append, ← List.append_assoc] at hcs
    obtain ⟨back, rfl, -⟩ := exists_of_concat_eq hc hcs
    exact ⟨front, run, back, by rw [List.append_assoc, List.cons_append], h⟩
  · rintro ⟨front, run, back, rfl, h⟩
    exact ⟨front, run, back ++ [c], by simp, h⟩

/-! ### Trimming -/

theorem filter_dropWhile {α : Type} (p : α → Bool) (xs : List α) :
    (xs.dropWhile p).filter (!p ·) = xs.filter (!p ·) := by
  induction xs with
  | nil => rfl
  | cons x xs ih => cases hx : p x <;> simp [hx, ih]

/-- Trimming keeps what is no blank. -/
theorem filter_trim {α : Type} (p : α → Bool) (xs : List α) :
    (Text.trim p xs).filter (!p ·) = xs.filter (!p ·) := by
  rw [Text.trim, List.filter_reverse, filter_dropWhile, ← List.filter_reverse, List.reverse_reverse,
    filter_dropWhile]

/-- A text that starts like a value, but for a brace in the place of a parenthesis, is not trimmed
to the same as the value. -/
theorem trim_ne_of_brace {front back back' w rest value : List Char}
    (hw : front ++ '\x7b' :: back' = w ++ '\x7d' :: rest)
    (hvalue : value = front ++ '(' :: back) :
    Text.trim Text.isBlank w ≠ Text.trim Text.isBlank value := by
  intro htrim
  have hfilter := congrArg (List.filter (!Text.isBlank ·)) htrim
  rw [filter_trim, filter_trim, hvalue] at hfilter
  obtain ⟨bs, rfl, hbs⟩ | ⟨as, rfl, -⟩ := List.append_eq_append_iff.1 hw
  · cases bs with
    | nil => cases (List.cons.inj hbs).1
    | cons b bs =>
      obtain ⟨rfl, -⟩ := List.cons.inj hbs
      rw [List.filter_append, List.filter_append, List.append_cancel_left_eq,
        List.filter_cons_of_pos (by decide), List.filter_cons_of_pos (by decide)] at hfilter
      cases (List.cons.inj hfilter).1
  · -- the text ends in front of the parenthesis
    have hlength := congrArg List.length hfilter
    rw [List.append_assoc, List.filter_append, List.filter_append,
      List.filter_cons_of_pos (by decide), List.length_append, List.length_append,
      List.length_cons] at hlength
    omega

/-! ### Blocks with one assignment -/

theorem Nested.passes {cs : List Char} (h : Nested cs) : Passes cs := by
  induction h with
  | nil => exact .nil
  | char hc h ih => exact Passes.append (.of_isBracket (List.forall_mem_singleton.2 hc)) ih
  | pair b hinside h ihinside ih =>
    rw [bracketed_append]
    exact (ihinside.brackets b).append ih

/-! ### Templates with one assignment -/

/-- The tag block `{key = value}`. -/
def tagBlock (key value : String) : String := "\x7b" ++ key ++ " = " ++ value ++ "\x7d"

section

variable {E : Entities} {intent : Option String} {key value : String}

theorem braceAttached_tagBlock (hname : ∀ c ∈ key.toList, isNameChar c = true) :
    braceAttached (tagBlock key value).toList =
      '\x7b' :: (key.toList ++ ' ' :: '=' :: ' ' :: braceAttached (value.toList ++ ['\x7d'])) := by
  have htext : (tagBlock key value).toList =
      ('\x7b' :: key.toList) ++ ' ' :: (['='] ++ ' ' :: (value.toList ++ ['\x7d'])) := by
    simp [tagBlock]
  have hround : '(' ∉ '\x7b' :: key.toList := by
    rw [List.mem_cons, not_or]
    exact ⟨by decide, fun hmem => ne_of_isNameChar (hname _ hmem) (by decide) rfl⟩
  rw [htext, braceAttached_seam (by decide), braceAttached_seam (by decide), braceAttached,
    (Rewrites.self hround).braceFrom_eq]
  rfl

/-- A block with one assignment is the tag that it assigns. -/
theorem read_assignment {w : List Char} (hkey : key ≠ "")
    (hname : ∀ c ∈ key.toList, isNameChar c = true) (hline : '\n' ∉ w) (hsign : '=' ∉ w)
    {opener : Glyph} (hopener : opener.char = '\x7b') {gs : List Glyph} {b : Block}
    (hb : block ⟨.curly, opener.pos⟩ [] gs = .ok b)
    (hinside : chars b.inside = key.toList ++ ' ' :: '=' :: ' ' :: w) :
    Item.read E.table opener gs =
      .ok (.tags [(key, String.ofList (Text.trim Text.isBlank w))], b.rest) := by
  have hcurly : Bracket.ofOpener? opener.char = some .curly := Bracket.ofOpener?_eq_some.2 hopener
  have hentry : ∀ e ∈ [(key, String.ofList w)], Assignable e :=
    List.forall_mem_singleton.2
      ⟨hkey, hname, String.toList_ofList ▸ hline, String.toList_ofList ▸ hsign⟩
  have hblank : ∀ c ∈ [' '], Text.isBlank c = true := List.forall_mem_singleton.2 rfl
  have hwritten : Spaced Assigns [(key, String.ofList w)] (chars b.inside) :=
    .last ⟨[' '], [' '], hblank, hblank, by rw [hinside, String.toList_ofList]; rfl⟩
  rw [Item.read_tags _ hcurly hb (.inl rfl),
    readAssignments_assigns (List.cons_ne_nil _ _) hentry hwritten, List.map_singleton, trimmed,
    String.toList_ofList]
  rfl

theorem compile_of_not_holdsAttached (hkey : key ≠ "")
    (hname : ∀ c ∈ key.toList, isNameChar c = true) (hline : '\n' ∉ value.toList)
    (hsign : '=' ∉ value.toList) (hnested : Nested value.toList)
    (hno : ¬HoldsAttached false value.toList) :
    ∃ P, compile E intent (tagBlock key value) = .ok P ∧
      P.OnlyTag key (String.ofList (Text.trim Text.isBlank value.toList)) := by
  have hkept : braceAttached (value.toList ++ ['\x7d']) = value.toList ++ ['\x7d'] :=
    braceAttached_eq_self_iff.2 (mt (holdsAttached_concat (by decide)).1 hno)
  have hpasses : Passes (key.toList ++ ' ' :: '=' :: ' ' :: value.toList) := by
    have hchar {c : Char} (hc : isBracket c = false) : Passes [c] :=
      .of_isBracket (List.forall_mem_singleton.2 hc)
    have hsigns : Passes [' ', '=', ' '] := (hchar rfl).append ((hchar rfl).append (hchar rfl))
    exact Passes.append (.of_isBracket fun c hc => isBracket_of_isNameChar (hname c hc))
      (hsigns.append hnested.passes)
  have htext : chars (Glyph.number 0 (braceAttached (tagBlock key value).toList)) =
      '\x7b' :: (key.toList ++ ' ' :: '=' :: ' ' :: value.toList ++ '\x7d' :: []) := by
    rw [Glyph.chars_number, braceAttached_tagBlock hname, hkept]
    simp
  obtain ⟨opener, b, gs, hgs, hopener, hsolid, hinside, -, hrest, hb⟩ :=
    exists_block .curly hpasses htext
  have hread := read_assignment (E := E) hkey hname hline hsign
    (Bracket.ofOpener?_eq_some.1 hopener) hb hinside
  have hitems : items E (tagBlock key value) =
      .ok [.tags [(key, String.ofList (Text.trim Text.isBlank value.toList))]] := by
    rw [List.map_eq_nil_iff.1 hrest] at hread
    rw [items, hgs, readAll_one hsolid hread]
  rw [compile, hitems]
  exact ⟨_, rfl, rfl, rfl⟩

/-- What is behind a prefix that `x` does not occur in comes before `x`. -/
theorem exists_of_append_eq {α : Type} {pre xs ys zs : List α} {x : α} (hx : x ∉ pre)
    (h : pre ++ ys = xs ++ x :: zs) : ∃ ws, xs = pre ++ ws ∧ ys = ws ++ x :: zs := by
  induction pre generalizing xs with
  | nil => exact ⟨xs, rfl, h⟩
  | cons p pre ih =>
    obtain ⟨hp, hpre⟩ := not_or.1 (mt List.mem_cons.2 hx)
    cases xs with
    | nil => exact absurd (List.cons.inj h).1.symm hp
    | cons y xs =>
      obtain ⟨rfl, htail⟩ := List.cons.inj h
      obtain ⟨ws, rfl, hys⟩ := ih hpre htail
      exact ⟨ws, rfl, hys⟩

/-- A block that opens like a tag block holds the name and some text up to a brace. -/
theorem exists_inside_of_block (hname : ∀ c ∈ key.toList, isNameChar c = true) {start : Nat}
    {text : List Char} {b : Block}
    (hb : block ⟨.curly, 0⟩ []
      (Glyph.number start (key.toList ++ ' ' :: '=' :: ' ' :: text)) = .ok b) :
    ∃ w, text = w ++ '\x7d' :: chars b.rest ∧
      chars b.inside = key.toList ++ ' ' :: '=' :: ' ' :: w := by
  have hcloser : b.closer.char = '\x7d' := closer_of_block rfl hb
  have hchars : key.toList ++ ' ' :: '=' :: ' ' :: text =
      chars b.inside ++ '\x7d' :: chars b.rest := by
    rw [← Glyph.chars_number start (key.toList ++ _), append_of_block hb, Glyph.chars_append,
      ← hcloser]
    rfl
  have hbrace : '\x7d' ∉ key.toList ++ [' ', '=', ' '] := by
    have hmem : '\x7d' ∉ key.toList := fun hmem => ne_of_isNameChar (hname _ hmem) (by decide) rfl
    simp [hmem]
  obtain ⟨w, hinside, htext⟩ :=
    exists_of_append_eq hbrace ((List.append_assoc _ _ _).trans hchars)
  exact ⟨w, htext, hinside.trans (List.append_assoc _ _ _)⟩

/-- The text that a template with one assignment gives to its tag first. -/
theorem exists_text_of_compile {P : Phrase} (hkey : key ≠ "")
    (hname : ∀ c ∈ key.toList, isNameChar c = true) (hline : '\n' ∉ value.toList)
    (hsign : '=' ∉ value.toList) (h : compile E intent (tagBlock key value) = .ok P) :
    ∃ w rest more, braceAttached (value.toList ++ ['\x7d']) = w ++ '\x7d' :: rest ∧
      P.tags = Tag.collect ((key, String.ofList (Text.trim Text.isBlank w)) :: more) := by
  cases hitems : items E (tagBlock key value) with
  | error f =>
    rw [compile, hitems] at h
    cases h
  | ok as =>
    rw [compile, hitems] at h
    cases h
    have hsolid : ¬Glyph.isBlank ⟨'\x7b', 0⟩ = true := by decide
    rw [items, braceAttached_tagBlock hname, Glyph.number] at hitems
    generalize hgs : Glyph.number (0 + 1) _ = gs at hitems
    have hdrop := List.dropWhile_cons_of_neg (l := gs) hsolid
    cases hb : block ⟨.curly, 0⟩ [] gs with
    | error f => cases (Item.readAll_fault _ hdrop (Item.read_unclosed _ rfl hb)).symm.trans hitems
    | ok b =>
      obtain ⟨w, hw, hinside⟩ := exists_inside_of_block hname (hgs ▸ hb)
      have hmem {c : Char} (hc : c ∉ value.toList) (hopen : c ≠ '\x7b') (hclose : c ≠ '\x7d') :
          c ∉ w := by
        intro hcw
        have hcv := of_mem_braceFrom (hw ▸ List.mem_append_left _ hcw)
        simp [hc, hopen, hclose] at hcv
      have hopener : Glyph.char ⟨'\x7b', 0⟩ = '\x7b' := rfl
      have hread := read_assignment (E := E) hkey hname (hmem hline (by decide) (by decide))
        (hmem hsign (by decide) (by decide)) hopener hb hinside
      rw [Item.readAll_item _ hdrop hread] at hitems
      cases hmore : Item.readAll E.table b.rest with
      | error f =>
        rw [hmore] at hitems
        cases hitems
      | ok more =>
        rw [hmore] at hitems
        cases hitems
        exact ⟨w, chars b.rest, more.flatMap Item.assignments, hw, rfl⟩

/-- **A value is kept as it stands just when no parenthesis in it is attached.**  The template
`{key = value}`, for a value on one line whose brackets are nested and that holds no equals sign,
compiles to a phrase without parts whose only tag is `key`, with the trimmed value. -/
theorem compile_value_iff (E : Entities) (intent : Option String) (hkey : key ≠ "")
    (hname : ∀ c ∈ key.toList, isNameChar c = true) (hline : '\n' ∉ value.toList)
    (hsign : '=' ∉ value.toList) (hnested : Nested value.toList) :
    (∃ P, compile E intent (tagBlock key value) = .ok P ∧
      P.OnlyTag key (String.ofList (Text.trim Text.isBlank value.toList))) ↔
        ¬HoldsAttached false value.toList := by
  refine ⟨?_, compile_of_not_holdsAttached hkey hname hline hsign hnested⟩
  rintro ⟨P, hP, -, htags⟩ hholds
  obtain ⟨w, rest, more, hw, hcollect⟩ := exists_text_of_compile hkey hname hline hsign hP
  obtain ⟨hno, -⟩ | ⟨-, front, back, back', hvalue, hbrace⟩ :=
    braceFrom_cases false (value.toList ++ ['\x7d'])
  · exact hno ((holdsAttached_concat (by decide)).2 hholds)
  · obtain ⟨back, hvalue, -⟩ := exists_of_concat_eq (by decide) hvalue
    have hget := Tag.get?_collect
      ((key, String.ofList (Text.trim Text.isBlank w)) :: more) key
    rw [← hcollect, htags, Table.get?, if_pos rfl, Tag.textsFor, List.filter_cons_of_pos (by simp),
      List.map_cons] at hget
    have htext : String.ofList (Text.trim Text.isBlank value.toList) =
        String.ofList (Text.trim Text.isBlank w) := by
      generalize List.map Prod.snd _ = texts at hget
      cases texts with
      | nil => exact (Tag.one.inj (Option.some.inj hget))
      | cons t ts => cases hget
    exact trim_ne_of_brace (hbrace.symm.trans hw) hvalue (String.ofList_injective htext).symm

end

/-- A parenthesis with a blank in it is kept, and so is a square one. -/
theorem compile_nested_value :
    ∃ P, compile Entities.none none (tagBlock "expr" "f(x, y) [y] ") = .ok P ∧
      P.OnlyTag "expr" "f(x, y) [y]" := by
  have hsquare : Nested [' ', '[', 'y', ']', ' '] :=
    .char rfl (@Nested.pair ['y'] [' '] .square (.char rfl .nil) (.char rfl .nil))
  have hround : Nested ['x', ',', ' ', 'y'] := .char rfl (.char rfl (.char rfl (.char rfl .nil)))
  have hvalue : Nested "f(x, y) [y] ".toList := .char rfl (.pair .round hround hsquare)
  have hname : ∀ c ∈ "expr".toList, isNameChar c = true := List.all_eq_true.1 rfl
  exact (compile_value_iff Entities.none none (by decide) hname (by decide) (by decide) hvalue).2
    (braceAttached_eq_self_iff.1 rfl)

/-- A call without blanks is not kept: its parentheses are read as braces. -/
theorem compile_attached_value :
    ∃ P, compile Entities.none none (tagBlock "expr" "f(x)") = .ok P ∧
      P.OnlyTag "expr" "f\x7bx\x7d" ∧ ¬P.OnlyTag "expr" "f(x)" := by
  have hP : compile Entities.none none (tagBlock "expr" "f(x)") =
      .ok (assemble Entities.none none "\x7bexpr = f(x)\x7d" [.tags [("expr", "f\x7bx\x7d")]]) := by
    with_unfolding_all rfl
  refine ⟨_, hP, ⟨rfl, rfl⟩, fun h => ?_⟩
  exact absurd h.tags (by decide)

end Template

end IntentGrammar
