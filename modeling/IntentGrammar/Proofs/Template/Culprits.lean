import IntentGrammar.Proofs.Template.Blame
import Mathlib.Data.List.Forall2

/-!
# Culprits

A template is read with its attached parentheses written as braces, and a fault is reported in the
template as it was written.  `Attaches` says what becomes of a character: a parenthesis may become
a brace of the same side, and everything else stays.  So the character that a fault points at is of
the kind that the fault is about, also where it was rewritten.

* `compile_culprit` : **every fault points at its culprit**.
-/

namespace IntentGrammar.Template

/-- What a character may become where parentheses are written as braces. -/
inductive Attaches (c : Char) : Char → Prop
  | same : Attaches c c
  | opener (h : c = '(') : Attaches c '\x7b'
  | closer (h : c = ')') : Attaches c '\x7d'

theorem attaches_braceFrom {solid : Bool} {left : Nat} {cs : List Char}
    (hleft : ∀ n, left = n + 1 → cs[n]? = some ')') :
    List.Forall₂ Attaches cs (braceFrom solid left cs) := by
  -- as long as a fragment is open, `left` counts the characters up to its closing parenthesis
  fun_induction braceFrom solid left cs with
  | case1 => exact .nil
  | case2 solid c cs ih =>
    have hc : c = ')' := by simpa using hleft 0 rfl
    exact .cons (.closer hc) (ih fun n hn => by cases hn)
  | case3 solid left c cs ih =>
    refine .cons .same (ih fun n hn => ?_)
    rw [← hleft (n + 1) (by omega)]
    rfl
  | case4 solid c cs n h ih =>
    split at h
    · next hopen =>
      obtain ⟨run, rest, rfl, -, rfl, -⟩ := attachedLength?_eq_some.1 h
      refine .cons (.opener (by simpa using (Bool.and_eq_true_iff.1 hopen).2)) (ih fun n hn => ?_)
      rw [← Nat.succ.inj hn]
      simp
    · cases h
  | case5 solid c cs h ih => exact .cons .same (ih fun n hn => by cases hn)

/-- The template as it is read, character by character. -/
theorem attaches_braceAttached (cs : List Char) : List.Forall₂ Attaches cs (braceAttached cs) :=
  attaches_braceFrom nofun

namespace Attaches

variable {c d : Char}

theorem eq_of_no_bracket (h : Attaches c d) (hopener : Bracket.ofOpener? d = none)
    (hcloser : Bracket.ofCloser? d = none) : c = d := by
  cases h with
  | same => rfl
  | opener => cases hopener
  | closer => cases hcloser

theorem eq_of_square (h : Attaches c d) (hd : d = '[' ∨ d = ']') : c = d := by
  cases h with
  | same => rfl
  | opener => rcases hd with h | h <;> cases h
  | closer => rcases hd with h | h <;> cases h

theorem fits (h : Attaches c d) {kind : FaultKind} (hd : kind.Fits d) : kind.Fits c := by
  cases h with
  | same => exact hd
  | opener h =>
    subst h
    cases kind with
    | unbalanced =>
      obtain ⟨b, hb⟩ := hd
      cases b <;> exact absurd hb (by decide)
    | unterminated | nested | noParameters => exact ⟨.round, rfl⟩
    | emptySlot => exact absurd (show '\x7b' = '[' from hd) (by decide)
    | unexpectedText | unknownEntity => exact (by decide : Text.isBlank '(' = false)
  | closer h =>
    subst h
    cases kind with
    | unbalanced => exact ⟨.round, rfl⟩
    | unterminated | nested | noParameters =>
      obtain ⟨b, hb⟩ := hd
      cases b <;> exact absurd hb (by decide)
    | emptySlot => exact absurd (show '\x7d' = '[' from hd) (by decide)
    | unexpectedText | unknownEntity => exact (by decide : Text.isBlank ')' = false)

end Attaches

section

variable {cs ds : List Char}

theorem getElem?_of_attaches (h : List.Forall₂ Attaches cs ds) {i : Nat} {d : Char}
    (hd : ds[i]? = some d) : ∃ c, cs[i]? = some c ∧ Attaches c d := by
  induction h generalizing i with
  | nil => cases hd
  | cons hc _ ih =>
    cases i with
    | zero =>
      cases hd
      exact ⟨_, rfl, hc⟩
    | succ i => exact ih hd

theorem append_of_attaches {ds₁ ds₂ : List Char} (h : List.Forall₂ Attaches cs (ds₁ ++ ds₂)) :
    ∃ cs₁ cs₂, cs = cs₁ ++ cs₂ ∧ List.Forall₂ Attaches cs₁ ds₁ ∧ List.Forall₂ Attaches cs₂ ds₂ :=
  ⟨cs.take ds₁.length, cs.drop ds₁.length, (List.take_append_drop _ _).symm,
    List.forall₂_take_append cs ds₁ ds₂ h, List.forall₂_drop_append cs ds₁ ds₂ h⟩

theorem eq_of_attaches (h : List.Forall₂ Attaches cs ds)
    (hplain : ∀ d ∈ ds, Bracket.ofOpener? d = none ∧ Bracket.ofCloser? d = none) : cs = ds := by
  induction h with
  | nil => rfl
  | cons hc _ ih =>
    obtain ⟨hopener, hcloser⟩ := hplain _ List.mem_cons_self
    rw [hc.eq_of_no_bracket hopener hcloser, ih fun d hd => hplain d (List.mem_cons_of_mem _ hd)]

/-- A typed slot stands in the template as it stands in the text that is read. -/
theorem TypedSlot.exists_of_attaches (s : TypedSlot) (h : List.Forall₂ Attaches cs s.text) :
    ∃ s' : TypedSlot, s'.text = cs ∧ s'.type = s.type ∧ s'.typePos = s.typePos := by
  obtain ⟨before, cs₁, rfl, hbefore, h₁⟩ := append_of_attaches h
  obtain ⟨opener, cs₂, hopener, h₂, rfl⟩ := List.forall₂_cons_right_iff.1 h₁
  obtain ⟨name, cs₃, rfl, hname, h₃⟩ := append_of_attaches h₂
  obtain ⟨colon, cs₄, hcolon, h₄, rfl⟩ := List.forall₂_cons_right_iff.1 h₃
  obtain ⟨kind, cs₅, rfl, hkind, h₅⟩ := append_of_attaches h₄
  obtain ⟨closer, after, hcloser, -, rfl⟩ := List.forall₂_cons_right_iff.1 h₅
  obtain rfl := hopener.eq_of_square (.inl rfl)
  obtain rfl := hcolon.eq_of_no_bracket rfl rfl
  obtain rfl := hcloser.eq_of_square (.inr rfl)
  obtain rfl := eq_of_attaches hname fun d hd => s.no_bracket d (List.mem_append_left _ hd)
  obtain rfl := eq_of_attaches hkind fun d hd => s.no_bracket d (List.mem_append_right _ hd)
  refine ⟨⟨before, s.name, s.kind, after, s.colon_not_mem, s.no_bracket⟩, rfl, rfl, ?_⟩
  rw [TypedSlot.typePos, TypedSlot.typePos, hbefore.length_eq]

end

theorem getElem?_number {start i : Nat} {cs : List Char} {g : Glyph}
    (h : (Glyph.number start cs)[i]? = some g) : g.pos = start + i ∧ cs[i]? = some g.char := by
  induction cs generalizing start i with
  | nil => cases h
  | cons c cs ih =>
    cases i with
    | zero =>
      cases h
      exact ⟨rfl, rfl⟩
    | succ i =>
      obtain ⟨hpos, hchar⟩ := ih h
      exact ⟨by omega, hchar⟩

/-- The fault is at the character `c` of a template, which fits it.  An entity type that is not
known is the type of a slot of the template, and `c` is where its name starts; if the slot has
blanks in place of the name, `c` is its closing bracket. -/
structure Fault.HasCulprit (E : Entities) (template : List Char) (f : Fault) (c : Char) : Prop where
  getElem? : template[f.position]? = some c
  fits : f.kind.Fits c
  type : f.kind = .unknownEntity → ∃ s : TypedSlot, s.text = template ∧
    f.cause = .unknownEntity s.type ∧ E.table.get? s.type = none ∧
    f.position = s.typePos ∧ c = s.typeStart

variable {E : Entities} {intent : Option String} {template : String} {f : Fault}

theorem exists_culprit (h : items E template = .error f) :
    ∃ c, f.HasCulprit E template.toList c := by
  have hread := attaches_braceAttached template.toList
  obtain ⟨hkind, g, hg, hpos, hfits⟩ | ⟨s, g, htext, hg, hnone, rfl⟩ := Item.blames_of_readAll h
  · obtain ⟨i, hi⟩ := List.mem_iff_getElem?.1 hg
    obtain ⟨hplace, hchar⟩ := getElem?_number hi
    obtain ⟨c, hc, hattaches⟩ := getElem?_of_attaches hread hchar
    refine ⟨c, ?_, hattaches.fits hfits, fun hunknown => absurd hunknown hkind⟩
    rwa [hpos, hplace, Nat.zero_add]
  · -- no parenthesis of the slot was rewritten, so it is a slot of the template as well
    obtain ⟨hplace, -⟩ := getElem?_number hg
    rw [Glyph.chars_number] at htext
    rw [← htext] at hread
    obtain ⟨s', hs', htype, hpos⟩ := s.exists_of_attaches hread
    have hplace' : g.pos = s'.typePos := by rw [hplace, Nat.zero_add, hpos]
    refine ⟨s'.typeStart, ?_, s'.isBlank_typeStart, fun _ => ⟨s', hs', ?_, ?_, hplace', rfl⟩⟩
    · rw [hplace', ← hs']
      exact s'.getElem?_typePos
    · rw [htype]
    · rw [htype, hnone]

/-- **Every fault points at its culprit** in the template as it was written: a closing bracket that
closes nothing, an opening bracket that is never closed, is not allowed or opens no tags, the
opening bracket of a slot without a name, text where there should be none, or the name of an
entity type that is not known. -/
theorem compile_culprit (h : compile E intent template = .error f) :
    f.position < template.length ∧ ∃ c, f.HasCulprit E template.toList c := by
  obtain ⟨c, hc⟩ := exists_culprit (map_eq_error h)
  obtain ⟨hlt, -⟩ := List.getElem?_eq_some_iff.1 hc.getElem?
  exact ⟨String.length_toList ▸ hlt, c, hc⟩

/-- The type of a slot is found behind a parenthesis that is read as a brace. -/
theorem compile_culprit_town :
    ∃ f, compile Entities.none none "page(s) [to: town]" = .error f ∧
      f.cause = .unknownEntity "town" ∧
      ∃ s : TypedSlot, s.text = "page(s) [to: town]".toList ∧ f.position = s.typePos ∧
        s.typeStart = 't' := by
  have h : compile Entities.none none "page(s) [to: town]" =
      .error ⟨13, .unknownEntity "town"⟩ := by
    with_unfolding_all rfl
  obtain ⟨-, c, hc, -, htype⟩ := compile_culprit h
  obtain ⟨s, htext, -, -, hpos, hstart⟩ := htype rfl
  cases hc
  exact ⟨_, h, rfl, s, htext, hpos, hstart.symm⟩

end IntentGrammar.Template
