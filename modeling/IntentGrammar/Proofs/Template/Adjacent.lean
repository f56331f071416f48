import IntentGrammar.Proofs.Template.Beside
import IntentGrammar.Proofs.Template.Braces
import IntentGrammar.Proofs.Template.Compiled

/-!
# Groups without a blank in front

A group may stand right behind another part: an opening parenthesis ends a word, and a part in
brackets ends where it is closed.  Only the shorthand for fragments looks behind it, and takes a
parenthesis that holds a run without blanks for a fragment of what stands in front
(`StartsFragment`).

In a template that can be read every parenthesis is closed (`closesRound_of_readAll`), so the
shorthand finds the same fragments in it whatever follows (`braceAttached_append`).

* `compile_adjacent` : **a blank in front of a group changes nothing**, unless the parenthesis of
  the group has the form of a fragment.
-/

namespace IntentGrammar.Template

open Glyph (chars)

/-! ### Closed parentheses -/

/-- Behind every opening parenthesis there is a closing one. -/
def ClosesRound : List Char → Prop
  | [] => True
  | c :: cs => (c = '(' → ')' ∈ cs) ∧ ClosesRound cs

namespace ClosesRound

variable {cs ds : List Char}

theorem append (h : ClosesRound cs) (h' : ClosesRound ds) : ClosesRound (cs ++ ds) := by
  induction cs with
  | nil => exact h'
  | cons c cs ih => exact ⟨fun hc => List.mem_append_left _ (h.1 hc), ih h.2⟩

theorem of_not_mem (h : '(' ∉ cs) : ClosesRound cs := by
  induction cs with
  | nil => trivial
  | cons c cs ih =>
    obtain ⟨hc, hcs⟩ := not_or.1 (mt List.mem_cons.2 h)
    exact ⟨fun heq => absurd heq.symm hc, ih hcs⟩

end ClosesRound

/-- Where a run up to a closing parenthesis ends is decided in front of the first one. -/
theorem attachedLength?_append {cs : List Char} (h : ')' ∈ cs) (ds : List Char) :
    attachedLength? (cs ++ ds) = attachedLength? cs := by
  obtain ⟨front, back, rfl⟩ := List.append_of_mem h
  have hstop : isAttachable ')' = false := rfl
  rw [List.append_assoc, List.cons_append, attachedLength?_eq, attachedLength?_eq,
    takeWhile_seam hstop, takeWhile_seam hstop, dropWhile_seam hstop, dropWhile_seam hstop]
  cases front.dropWhile isAttachable <;> rfl

/-- Fragments are found in a text whatever follows it, if every parenthesis that is kept is closed.
What stands in front of the rest is then all that the rest depends on. -/
theorem braceFrom_append {solid : Bool} {left : Nat} {cs : List Char} (hleft : left ≤ cs.length)
    (h : ClosesRound (braceFrom solid left cs)) (ds : List Char) :
    ∃ solid', braceFrom solid left (cs ++ ds) =
      braceFrom solid left cs ++ braceFrom solid' 0 ds := by
  fun_induction braceFrom solid left cs with
  | case1 solid left =>
    obtain rfl := Nat.le_zero.1 hleft
    exact ⟨solid, rfl⟩
  | case2 solid c cs ih =>
    obtain ⟨solid', hrest⟩ := ih (Nat.zero_le _) h.2
    exact ⟨solid', by rw [List.cons_append, braceFrom, hrest, List.cons_append]⟩
  | case3 solid left c cs ih =>
    obtain ⟨solid', hrest⟩ := ih (Nat.le_of_succ_le_succ hleft) h.2
    exact ⟨solid', by rw [List.cons_append, braceFrom, hrest, List.cons_append]⟩
  | case4 solid c cs n hsome ih =>
    -- the run is closed inside the text
    split at hsome
    · next hopen =>
      have hn := lt_length_of_attachedLength? hsome
      obtain ⟨run, back, hcs, -⟩ := attachedLength?_eq_some.1 hsome
      have hclosed : ')' ∈ cs := hcs ▸ List.mem_append_right run List.mem_cons_self
      obtain ⟨solid', hrest⟩ := ih hn h.2
      refine ⟨solid', ?_⟩
      rw [List.cons_append, braceFrom, if_pos hopen, attachedLength?_append hclosed, hsome]
      exact congrArg _ hrest
    · cases hsome
  | case5 solid c cs hnone ih =>
    obtain ⟨solid', hrest⟩ := ih (Nat.zero_le _) h.2
    refine ⟨solid', ?_⟩
    have hkeep : (if solid && c == '(' then attachedLength? (cs ++ ds) else none) = none := by
      split at hnone
      · next hopen =>
        -- a parenthesis that is kept is closed, and so nothing behind the text closes it
        have hc : c = '(' := eq_of_beq (Bool.and_eq_true_iff.1 hopen).2
        have hclosed : ')' ∈ cs := by
          obtain hmem | hbrace | hbrace := of_mem_braceFrom (h.1 hc)
          · exact hmem
          · cases hbrace
          · cases hbrace
        rw [if_pos hopen, attachedLength?_append hclosed, hnone]
      · next hopen => rw [if_neg hopen]
    rw [List.cons_append, braceFrom, hkeep]
    exact congrArg _ hrest

/-! ### Templates that can be read -/

/-- In a block every parenthesis is closed, and so are the brackets that are open in front of it. -/
theorem closesRound_of_block {o : Opening} {outer : List Opening} {gs : List Glyph} {b : Block}
    (h : block o outer gs = .ok b) :
    ClosesRound (chars (b.inside ++ [b.closer])) ∧
      ∀ x ∈ o :: outer, x.bracket.closer ∈ chars (b.inside ++ [b.closer]) := by
  fun_induction block o outer gs generalizing b with
  | case1 => cases h
  | case2 => cases h
  | case3 o outer g gs hstep =>
    cases h
    obtain ⟨b, -, hb⟩ | hb | ⟨x, hx, hclose⟩ := Opening.step_eq_ok _ hstep
    · cases hb
    · cases hb
    · cases hx
      have hround : '(' ∉ [g.char] := by
        rw [hclose]
        cases o.bracket <;> decide
      exact ⟨.of_not_mem hround, List.forall_mem_singleton.2 (List.mem_singleton.2 hclose.symm)⟩
  | case4 => cases h
  | case5 o outer g gs o' outer' hstep b' hblock ih =>
    cases h
    obtain ⟨hround, hcloses⟩ := ih hblock
    refine ⟨⟨fun hg => ?_, hround⟩, fun x hx => ?_⟩
    · have hopener : Bracket.ofOpener? g.char = some .round := Bracket.ofOpener?_eq_some.2 hg
      cases hstep.symm.trans (Opening.step_opener _ hopener)
      exact hcloses _ List.mem_cons_self
    · obtain ⟨b, -, hb⟩ | hb | ⟨y, hy, hclose⟩ := Opening.step_eq_ok _ hstep
      · exact List.mem_cons_of_mem _ (hcloses x (hb ▸ List.mem_cons_of_mem _ hx))
      · exact List.mem_cons_of_mem _ (hcloses x (hb ▸ hx))
      · rw [hy] at hx
        rcases List.mem_cons.1 hx with rfl | hx
        · exact List.mem_cons.2 (.inl hclose.symm)
        · exact List.mem_cons_of_mem _ (hcloses x hx)

/-- Every parenthesis is closed from the opening bracket of a block on, if it is behind the block. -/
theorem closesRound_of_block_at {kind : Bracket} {g : Glyph} {gs : List Glyph} {b : Block}
    (hopener : Bracket.ofOpener? g.char = some kind) (hb : block ⟨kind, g.pos⟩ [] gs = .ok b)
    (hrest : ClosesRound (chars b.rest)) : ClosesRound (chars (g :: gs)) := by
  obtain ⟨hround, hcloses⟩ := closesRound_of_block hb
  have hgs : gs = b.inside ++ [b.closer] ++ b.rest := by
    rw [List.append_assoc]
    exact append_of_block hb
  rw [hgs, ← List.cons_append, Glyph.chars_append]
  refine ClosesRound.append ⟨fun hg => ?_, hround⟩ hrest
  have hkind : Bracket.ofOpener? g.char = some .round := Bracket.ofOpener?_eq_some.2 hg
  cases hopener.symm.trans hkind
  exact hcloses _ List.mem_cons_self

namespace Item

variable {entities : Table Pattern}

theorem round_not_mem_of_isBlank {gs : List Glyph} (h : ∀ g ∈ gs, g.isBlank = true) :
    '(' ∉ chars gs := by
  intro hmem
  obtain ⟨g, hg, hchar⟩ := List.mem_map.1 hmem
  exact ne_of_isBlank (h g hg) (by decide) hchar

theorem round_not_mem_word {g : Glyph} (hopener : Bracket.ofOpener? g.char = none)
    (gs : List Glyph) : '(' ∉ chars (g :: gs.takeWhile (!endsWord ·)) := by
  intro hmem
  obtain hfirst | hmore := List.mem_cons.1 hmem
  · have hkind : Bracket.ofOpener? g.char = some .round := Bracket.ofOpener?_eq_some.2 hfirst.symm
    cases hopener.symm.trans hkind
  · obtain ⟨g', hg', hchar⟩ := List.mem_map.1 hmore
    have hends := List.mem_takeWhile_imp hg'
    simp [endsWord, hchar] at hends

theorem closesRound_takeMark {gs : List Glyph} (h : ClosesRound (chars (takeMark gs).2)) :
    ClosesRound (chars gs) := by
  cases gs with
  | nil => trivial
  | cons g gs =>
    rw [takeMark] at h
    split at h
    · next hg => exact ⟨fun hround => absurd (hg.symm.trans hround) (by decide), h⟩
    · exact h

/-- In an item every parenthesis is closed. -/
theorem closesRound_of_read {g : Glyph} {gs left : List Glyph} {item : Item}
    (h : read entities g gs = .ok (item, left)) (hleft : ClosesRound (chars left)) :
    ClosesRound (chars (g :: gs)) := by
  obtain ⟨hopener, hread⟩ | ⟨kind, f, -, -, hread⟩ | ⟨kind, b, hopener, hb, -, hread⟩ |
    ⟨b, hopener, hb, -, hread⟩ | ⟨b, hopener, hb, hread⟩ := read_cases entities g gs
  all_goals rw [hread] at h
  · cases snd_eq_of_map h
    have hword := round_not_mem_word hopener gs
    rw [← List.takeWhile_append_dropWhile (p := (!endsWord ·)) (l := gs), ← List.cons_append,
      Glyph.chars_append]
    exact (ClosesRound.of_not_mem hword).append hleft
  · cases h
  · cases snd_eq_of_map h
    exact closesRound_of_block_at hopener hb hleft
  · cases snd_eq_of_map h
    exact closesRound_of_block_at hopener hb (closesRound_takeMark hleft)
  · cases snd_eq_of_map h
    exact closesRound_of_block_at hopener hb (closesRound_takeMark hleft)

/-- In a template that can be read every parenthesis is closed. -/
theorem closesRound_of_readAll {gs : List Glyph} {items : List Item}
    (h : readAll entities gs = .ok items) : ClosesRound (chars gs) := by
  have hsplit (gs : List Glyph) (hrest : ClosesRound (chars (gs.dropWhile Glyph.isBlank))) :
      ClosesRound (chars gs) := by
    rw [← List.takeWhile_append_dropWhile (p := Glyph.isBlank) (l := gs), Glyph.chars_append]
    exact (ClosesRound.of_not_mem (round_not_mem_of_isBlank fun g => List.mem_takeWhile_imp)).append
      hrest
  fun_induction readAll entities gs generalizing items with
  | case1 gs hgs => exact hsplit gs (hgs ▸ trivial)
  | case2 gs g rest hgs f hr => cases h
  | case3 gs g rest hgs item left hr ih =>
    cases hleft : readAll entities left with
    | error f =>
      rw [hleft] at h
      cases h
    | ok more => exact hsplit gs (hgs ▸ closesRound_of_read hr (ih hleft))

end Item

/-! ### Groups behind a template -/

/-- The text starts with a parenthesis in the form of a fragment: a run without blanks, closed. -/
def StartsFragment (cs : List Char) : Prop :=
  ∃ run back, cs = '(' :: (run ++ ')' :: back) ∧ run ≠ [] ∧ run.all isAttachable

theorem startsFragment_iff {cs : List Char} :
    StartsFragment ('(' :: cs) ↔ (attachedLength? cs).isSome := by
  rw [Option.isSome_iff_exists]
  constructor
  · rintro ⟨run, back, hcs, hne, hall⟩
    obtain ⟨-, rfl⟩ := List.cons.inj hcs
    exact ⟨_, attachedLength?_eq_some.2 ⟨run, back, rfl, hne, rfl, hall⟩⟩
  · rintro ⟨n, hn⟩
    obtain ⟨run, back, rfl, hne, -, hall⟩ := attachedLength?_eq_some.1 hn
    exact ⟨run, back, rfl, hne, hall⟩

variable {E : Entities} {intent : Option String} {A C : String}

/-- Whatever stands in front, a parenthesis that has not the form of a fragment stays one. -/
theorem braceFrom_group {cs : List Char} (hround : cs.head? = some '(') (hfree : ¬StartsFragment cs)
    (solid : Bool) : braceFrom solid 0 cs = braceAttached cs := by
  obtain ⟨cs, rfl⟩ := List.head?_eq_some_iff.1 hround
  have hnone : attachedLength? cs = none :=
    Option.not_isSome_iff_eq_none.1 (mt startsFragment_iff.2 hfree)
  rw [braceAttached, braceFrom_round fun _ => hnone, braceFrom_round fun _ => hnone]

/-- The items of two templates one right behind the other, where the second starts with a group. -/
theorem items_adjacent {as : List Item} (hA : items E A = .ok as)
    (hround : C.toList.head? = some '(') (hfree : ¬StartsFragment C.toList) :
    items E (A ++ C) = ((items E C).mapError (Fault.move (· + A.length))).map (as ++ ·) := by
  have hclosed : ClosesRound (braceAttached A.toList) := by
    rw [← Glyph.chars_number 0 (braceAttached A.toList)]
    exact Item.closesRound_of_readAll hA
  obtain ⟨solid, htext⟩ := braceFrom_append (Nat.zero_le _) hclosed C.toList
  rw [← braceAttached, ← braceAttached, ← String.toList_append,
    braceFrom_group hround hfree solid] at htext
  obtain ⟨ds, hds⟩ : ∃ ds, braceAttached C.toList = '(' :: ds := by
    obtain ⟨cs, hcs⟩ := List.head?_eq_some_iff.1 hround
    exact ⟨_, by rw [hcs]; rfl⟩
  have hends : Item.endsWord ⟨'(', 0 + A.length⟩ = true := rfl
  have hfront := Item.readAll_front hends hA (Glyph.number (0 + A.length + 1) ds)
  have hback := Item.readAll_move (· + A.length) E.table (Glyph.number 0 (braceAttached C.toList))
  rw [← Glyph.number_add, hds] at hback
  rw [items, htext, Glyph.number_append, length_braceAttached, String.length_toList, hds,
    Glyph.number, hfront, ← Glyph.number, hback, items, hds]

/-- **A blank in front of a group changes nothing.**  If two templates can be compiled and the
second starts with a parenthesis that has not the form of a fragment, they say the same one right
behind the other as with a blank between them. -/
theorem compile_adjacent {P Q : Phrase} (hA : compile E intent A = .ok P)
    (hC : compile E intent C = .ok Q) (hround : C.toList.head? = some '(')
    (hfree : ¬StartsFragment C.toList) :
    ∃ R S, compile E intent (A ++ C) = .ok R ∧ compile E intent (A ++ " " ++ C) = .ok S ∧
      R.body = S.body ∧ R.tags = S.tags := by
  obtain ⟨as, has, rfl⟩ := Item.exists_of_map_eq_ok hA
  obtain ⟨cs, hcs, rfl⟩ := Item.exists_of_map_eq_ok hC
  have hblank : ∀ c ∈ " ".toList, Text.isBlank c = true := List.all_eq_true.1 rfl
  have hadjacent : items E (A ++ C) = .ok (as ++ cs) := by
    rw [items_adjacent has hround hfree, hcs]
    rfl
  have hbeside : items E (A ++ " " ++ C) = .ok (as ++ cs) := by
    rw [items_beside has (by decide) hblank, hcs]
    rfl
  refine ⟨assemble E intent (A ++ C) (as ++ cs), assemble E intent (A ++ " " ++ C) (as ++ cs),
    ?_, ?_, rfl, rfl⟩
  · rw [compile, hadjacent]
    rfl
  · rw [compile, hbeside]
    rfl

/-- Blanks inside the parenthesis keep it a group behind a word with a fragment. -/
theorem compile_pages_choice :
    ∃ R S, compile Entities.none none ("page(s)" ++ "( c | d)?") = .ok R ∧
      compile Entities.none none ("page(s)" ++ " " ++ "( c | d)?") = .ok S ∧
      R.body = S.body ∧ R.tags = S.tags := by
  have hA : compile Entities.none none "page(s)" =
      .ok (assemble Entities.none none "page(s)" [.atom (.variants "page" "pages" false)]) := by
    with_unfolding_all rfl
  have hC : compile Entities.none none "( c | d)?" =
      .ok (assemble Entities.none none "( c | d)?"
        [.group [[.word "c" false], [.word "d" false]] true]) := by
    with_unfolding_all rfl
  exact compile_adjacent hA hC rfl (mt startsFragment_iff.1 (by decide))

/-- Without blanks in it the parenthesis is one more fragment of the word in front of it. -/
theorem compile_pages_fragment :
    ∃ P Q R S, compile Entities.none none "page(s)" = .ok P ∧
      compile Entities.none none "(c)" = .ok Q ∧
      compile Entities.none none ("page(s)" ++ "(c)") = .ok R ∧
      compile Entities.none none ("page(s)" ++ " " ++ "(c)") = .ok S ∧
      R.body.plain = .series 0 [.choice 0 [.word 0 "page" false, .word 0 "pagesc" false] false] ∧
      R.body.plain ≠ S.body.plain := by
  have hA : compile Entities.none none "page(s)" =
      .ok (assemble Entities.none none "page(s)" [.atom (.variants "page" "pages" false)]) := by
    with_unfolding_all rfl
  have hC : compile Entities.none none "(c)" =
      .ok (assemble Entities.none none "(c)" [.group [[.word "c" false]] false]) := by
    with_unfolding_all rfl
  have hR : compile Entities.none none ("page(s)" ++ "(c)") =
      .ok (assemble Entities.none none "page(s)(c)" [.atom (.variants "page" "pagesc" false)]) := by
    with_unfolding_all rfl
  have hS : compile Entities.none none ("page(s)" ++ " " ++ "(c)") =
      .ok (assemble Entities.none none "page(s) (c)"
        [.atom (.variants "page" "pages" false), .group [[.word "c" false]] false]) := by
    with_unfolding_all rfl
  refine ⟨_, _, _, _, hA, hC, hR, hS, rfl, fun hplain => ?_⟩
  have hparts := congrArg (fun p : Pattern => p.parts.length) hplain
  cases hparts

end IntentGrammar.Template
