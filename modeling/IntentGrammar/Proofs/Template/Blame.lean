import IntentGrammar.Proofs.Template.Places
import IntentGrammar.Proofs.Template.Seams
import Mathlib.Data.List.TakeDrop
import Mathlib.Data.List.TakeWhile

/-!
# Whom a reader blames

A fault is reported at a place, and every reader of templates takes the place from a glyph that it
was given: the one that does not fit.  `FaultKind.Fits` says which characters these are, and
`Fault.PointsAt` that a fault points at such a glyph.  An entity type that is not known is pointed
at inside its slot, `TypedSlot` keeps the parts of the slot for that.

* `Item.blames_of_readAll` : the faults of a template.
-/

namespace IntentGrammar.Template

/-- The characters that a fault of a kind can be found at. -/
def FaultKind.Fits (c : Char) : FaultKind → Prop
  | .unbalanced => ∃ b : Bracket, c = b.closer
  | .unterminated | .nested | .noParameters => ∃ b : Bracket, c = b.opener
  | .emptySlot => c = '['
  | .unexpectedText | .unknownEntity => Text.isBlank c = false

/-- The fault has nothing to do with entity types and is at one of the glyphs, which fits it. -/
def Fault.PointsAt (f : Fault) (gs : List Glyph) : Prop :=
  f.kind ≠ .unknownEntity ∧ ∃ g ∈ gs, f.position = g.pos ∧ f.kind.Fits g.char

theorem Fault.PointsAt.mono {f : Fault} {gs hs : List Glyph} (h : f.PointsAt gs) (hsub : gs ⊆ hs) :
    f.PointsAt hs := by
  obtain ⟨hkind, g, hg, hfits⟩ := h
  exact ⟨hkind, g, hsub hg, hfits⟩

section

variable {ε α β : Type}

theorem map_eq_error {r : Except ε α} {f : α → β} {e : ε} (h : r.map f = .error e) :
    r = .error e := by
  cases r with
  | error e' =>
    cases h
    rfl
  | ok a => cases h

theorem mapM_eq_error {f : α → Except ε β} {xs : List α} {e : ε} (h : xs.mapM f = .error e) :
    ∃ x ∈ xs, f x = .error e := by
  induction xs with
  | nil => cases h
  | cons x xs ih =>
    rw [List.mapM_cons] at h
    cases hx : f x with
    | error e' =>
      rw [hx] at h
      cases h
      exact ⟨x, List.mem_cons_self, hx⟩
    | ok y =>
      rw [hx] at h
      obtain ⟨x', hx', he⟩ := ih (map_eq_error (f := (y :: ·)) h)
      exact ⟨x', List.mem_cons_of_mem _ hx', he⟩

theorem exists_of_mem_mapM {f : α → Except ε β} {xs : List α} {ys : List β}
    (h : xs.mapM f = .ok ys) : ∀ y ∈ ys, ∃ x ∈ xs, f x = .ok y := by
  induction xs generalizing ys with
  | nil =>
    cases h
    exact fun y hy => absurd hy List.not_mem_nil
  | cons x xs ih =>
    rw [List.mapM_cons] at h
    cases hx : f x with
    | error e =>
      rw [hx] at h
      cases h
    | ok y =>
      rw [hx] at h
      cases hxs : xs.mapM f with
      | error e =>
        rw [hxs] at h
        cases h
      | ok zs =>
        rw [hxs] at h
        cases h
        refine List.forall_mem_cons.2 ⟨⟨x, List.mem_cons_self, hx⟩, fun z hz => ?_⟩
        obtain ⟨x', hx', hz⟩ := ih hxs z hz
        exact ⟨x', List.mem_cons_of_mem _ hx', hz⟩

theorem sublist_of_mem_splitOnP {p : α → Bool} {xs piece : List α} (h : piece ∈ xs.splitOnP p) :
    piece.Sublist xs := by
  induction xs generalizing piece with
  | nil =>
    obtain rfl := List.mem_singleton.1 h
    exact List.nil_sublist _
  | cons x xs ih =>
    rw [List.splitOnP_cons_eq_if_modifyHead] at h
    split at h
    · rcases List.mem_cons.1 h with rfl | h
      · exact List.nil_sublist _
      · exact (ih h).cons x
    · obtain ⟨first, more, hsplit⟩ := List.exists_cons_of_ne_nil (List.splitOnP_ne_nil p xs)
      rw [hsplit] at h ih
      rcases List.mem_cons.1 h with rfl | h
      · exact (ih List.mem_cons_self).cons_cons x
      · exact (ih (List.mem_cons_of_mem _ h)).cons x

end

/-! ### Words -/

/-- A word is refused at one of its brackets, or where the brace was opened that is open still. -/
theorem blames_of_strands {opened : Option (Nat × List Char)} {gs : List Glyph} {f : Fault}
    (h : strands opened gs = .error f) :
    f.PointsAt gs ∨ ∃ o ∈ opened, f = ⟨o.1, .unclosed '\x7d'⟩ := by
  fun_induction strands opened gs with
  | case1 => cases h
  | case2 pos cs =>
    cases h
    exact .inr ⟨_, rfl, rfl⟩
  | case3 g gs hcloser hopener ih =>
    exact (ih (map_eq_error h)).imp_left (·.mono (List.subset_cons_self _ _))
  | case4 g gs pos cs hcloser hopener ih =>
    obtain hat | ⟨_, ⟨⟩, rfl⟩ := ih h
    · exact .inl (hat.mono (List.subset_cons_self _ _))
    · exact .inr ⟨_, rfl, rfl⟩
  | case5 g gs hopener ih =>
    obtain hat | ⟨_, ⟨⟩, rfl⟩ := ih h
    · exact .inl (hat.mono (List.subset_cons_self _ _))
    · exact .inl ⟨by rintro ⟨⟩, g, List.mem_cons_self, rfl, _, Bracket.ofOpener?_eq_some.1 hopener⟩
  | case6 g gs pos cs hcloser hopener ih =>
    obtain hat | ⟨_, ⟨⟩, -⟩ := ih (map_eq_error h)
    exact .inl (hat.mono (List.subset_cons_self _ _))
  | case7 opened g gs b hopener =>
    cases h
    exact .inl ⟨by rintro ⟨⟩, g, List.mem_cons_self, rfl, _, Bracket.ofOpener?_eq_some.1 hopener⟩
  | case8 opened g gs b hcloser hopener =>
    cases h
    exact .inl ⟨by rintro ⟨⟩, g, List.mem_cons_self, rfl, _, Bracket.ofCloser?_eq_some.1 hcloser⟩

namespace Atom

/-- What reading a word can do: it is a question mark alone, or a star, or it is taken apart without
the question mark at its end. -/
theorem read_cases (g : Glyph) (gs : List Glyph) :
    (g.char = '?' ∧ read g gs = .error ⟨g.pos, .loneQuestionMark⟩) ∨
      (∃ optional, read g gs = .ok (.wildcard optional)) ∨
      ∃ stem optional, stem ≠ [] ∧ stem.Sublist (g :: gs) ∧
        read g gs = (strands none stem).map (ofStrands · optional) := by
  simp only [read]
  generalize hmark : ((g :: gs).getLast?.map (·.char) == some '?') = optional
  have hstem : (if optional then (g :: gs).dropLast else g :: gs).Sublist (g :: gs) := by
    cases optional
    · exact List.Sublist.refl _
    · exact List.dropLast_sublist _
  split
  · next hnil =>
    refine .inl ⟨?_, rfl⟩
    cases optional with
    | false => cases hnil
    | true =>
      cases gs with
      | nil => simpa using hmark
      | cons g' gs => cases hnil
  · exact .inr (.inl ⟨optional, rfl⟩)
  · next hne _ => exact .inr (.inr ⟨_, optional, fun hnil => hne (by rw [hnil]; rfl), hstem, rfl⟩)

theorem blames_of_read {g : Glyph} {gs : List Glyph} {f : Fault} (h : read g gs = .error f) :
    f.PointsAt (g :: gs) := by
  obtain ⟨hmark, hread⟩ | ⟨optional, hread⟩ | ⟨stem, optional, -, hstem, hread⟩ := read_cases g gs
  · cases hread.symm.trans h
    refine ⟨by rintro ⟨⟩, g, List.mem_cons_self, rfl, ?_⟩
    show Text.isBlank g.char = false
    rw [hmark]
    decide
  · cases hread.symm.trans h
  · obtain hat | ⟨_, ⟨⟩, -⟩ := blames_of_strands (map_eq_error (hread.symm.trans h))
    exact hat.mono hstem.subset

theorem exists_of_readAll_eq_error {words : List (List Glyph)} {f : Fault}
    (h : readAll words = .error f) : ∃ g gs, g :: gs ∈ words ∧ read g gs = .error f := by
  induction words with
  | nil => cases h
  | cons word words ih =>
    have hmore (h : readAll words = .error f) :
        ∃ g gs, g :: gs ∈ word :: words ∧ read g gs = .error f := by
      obtain ⟨g, gs, hword, hread⟩ := ih h
      exact ⟨g, gs, List.mem_cons_of_mem _ hword, hread⟩
    cases word with
    | nil => exact hmore h
    | cons g gs =>
      rw [readAll] at h
      cases hr : read g gs with
      | error f' =>
        rw [hr] at h
        cases h
        exact ⟨g, gs, List.mem_cons_self, hr⟩
      | ok a =>
        rw [hr] at h
        exact hmore (map_eq_error h)

/-- Words between blanks are refused for one of them. -/
theorem exists_of_readRun_eq_error {gs : List Glyph} {f : Fault} (h : readRun gs = .error f) :
    ∃ g word, (g :: word).Sublist gs ∧ read g word = .error f := by
  obtain ⟨g, word, hword, hread⟩ := exists_of_readAll_eq_error h
  exact ⟨g, word, sublist_of_mem_splitOnP hword, hread⟩

end Atom

/-! ### Blocks -/

/-- A block is refused at a closing bracket, or where a bracket was opened that is open still. -/
theorem blames_of_block {o : Opening} {outer : List Opening} {gs : List Glyph} {f : Fault}
    (h : block o outer gs = .error f) :
    f.PointsAt gs ∨ ∃ o' ∈ o :: outer, f = ⟨o'.pos, .unclosed o'.bracket.closer⟩ := by
  fun_induction block o outer gs with
  | case1 o outer =>
    cases h
    exact .inr ⟨o, List.mem_cons_self, rfl⟩
  | case2 o outer g gs f' hstep =>
    cases h
    obtain ⟨hclose, hpos, hkind⟩ := Opening.step_eq_error _ hstep
    refine .inl ⟨?_, g, List.mem_cons_self, hpos, ?_⟩
    · rw [hkind]
      rintro ⟨⟩
    · rw [hkind]
      exact hclose
  | case3 => cases h
  | case4 o outer g gs o' outer' hstep f' hblock ih =>
    cases h
    obtain hat | ⟨o₁, ho₁, rfl⟩ := ih hblock
    · exact .inl (hat.mono (List.subset_cons_self _ _))
    · obtain ⟨b, hopen, hpush⟩ | hpass | ⟨o₂, hpop, -⟩ := Opening.step_eq_ok _ hstep
      · rw [hpush] at ho₁
        rcases List.mem_cons.1 ho₁ with rfl | ho₁
        · exact .inl ⟨by rintro ⟨⟩, g, List.mem_cons_self, rfl, b, hopen⟩
        · exact .inr ⟨o₁, ho₁, rfl⟩
      · exact .inr ⟨o₁, hpass ▸ ho₁, rfl⟩
      · exact .inr ⟨o₁, hpop ▸ List.mem_cons_of_mem _ ho₁, rfl⟩
  | case5 => cases h

/-- A block that starts at a glyph. -/
theorem blames_of_block_at {kind : Bracket} {g : Glyph} {gs : List Glyph} {f : Fault}
    (hopener : Bracket.ofOpener? g.char = some kind) (h : block ⟨kind, g.pos⟩ [] gs = .error f) :
    f.PointsAt (g :: gs) := by
  obtain hat | ⟨o, ho, rfl⟩ := blames_of_block h
  · exact hat.mono (List.subset_cons_self _ _)
  · rw [List.mem_singleton.1 ho]
    exact ⟨by rintro ⟨⟩, g, List.mem_cons_self, rfl, kind, Bracket.ofOpener?_eq_some.1 hopener⟩

/-! ### Tag blocks -/

theorem leading_subset (gs : List Glyph) : (cutAtNames gs).1 ⊆ gs := by
  fun_induction cutAtNames gs with
  | case1 => exact List.nil_subset _
  | case2 => exact List.nil_subset _
  | case3 g gs h value more heq ih =>
    rw [heq] at ih
    exact List.cons_subset_cons _ ih

theorem isBlank_of_dropWhile {gs rest : List Glyph} {g : Glyph}
    (h : gs.dropWhile Glyph.isBlank = g :: rest) : Text.isBlank g.char = false := by
  have hhead := List.head?_dropWhile_not Glyph.isBlank gs
  rw [h] at hhead
  exact hhead

theorem blames_of_readAssignments {opener : Glyph} {b : Block} {f : Fault} {kind : Bracket}
    (hopener : opener.char = kind.opener) (h : readAssignments opener b = .error f) :
    f.PointsAt (opener :: b.inside) := by
  simp only [readAssignments] at h
  split at h
  · cases h
    exact ⟨by rintro ⟨⟩, opener, List.mem_cons_self, rfl, kind, hopener⟩
  · split at h
    · cases h
    · next g rest hdrop =>
      cases h
      have hmem : g ∈ (cutAtNames b.inside).1 :=
        (List.dropWhile_sublist Glyph.isBlank).subset (by rw [hdrop]; exact List.mem_cons_self)
      exact ⟨by rintro ⟨⟩, g, List.mem_cons_of_mem _ (leading_subset _ hmem), rfl,
        isBlank_of_dropWhile hdrop⟩

/-! ### Slots -/

section

variable {α : Type} (p : α → Bool)

theorem getElem?_first (xs rest : List α) (last : α) :
    (xs ++ last :: rest)[(xs.takeWhile p).length]? = some ((xs.dropWhile p).headD last) := by
  induction xs with
  | nil => rfl
  | cons x xs ih =>
    cases hx : p x with
    | false => simp [hx]
    | true => simpa [hx] using ih

theorem getElem?_behind_two (front middle back : List α) (a b : α) (n : Nat) :
    (front ++ a :: (middle ++ b :: back))[front.length + (middle.length + (n + 2))]? =
      back[n]? := by
  rw [List.getElem?_append_right (Nat.le_add_right _ _), Nat.add_sub_cancel_left,
    ← Nat.add_assoc _ _ 1, List.getElem?_cons_succ,
    List.getElem?_append_right (Nat.le_add_right _ _), Nat.add_sub_cancel_left,
    List.getElem?_cons_succ]

theorem headD_trim (xs : List α) (d : α) :
    (Text.trim p xs).headD d = (xs.dropWhile p).headD d := by
  rw [List.headD_eq_head?_getD, head?_trim, ← List.headD_eq_head?_getD]

end

/-- A text with a slot that has an entity type. -/
structure TypedSlot where
  before : List Char
  name : List Char
  kind : List Char
  after : List Char
  colon_not_mem : ':' ∉ name
  no_bracket : ∀ c ∈ name ++ kind, Bracket.ofOpener? c = none ∧ Bracket.ofCloser? c = none

namespace TypedSlot

variable (s : TypedSlot)

/-- The text as a whole. -/
def text : List Char := s.before ++ '[' :: (s.name ++ ':' :: (s.kind ++ ']' :: s.after))

/-- The name of the entity type. -/
def type : String := String.ofList (Text.trim Text.isBlank s.kind)

/-- Where the name of the entity type starts; the end of the slot if the name is blank. -/
def typePos : Nat :=
  s.before.length + (s.name.length + ((s.kind.takeWhile Text.isBlank).length + 2))

/-- What stands there: the first character of the name, or the closing bracket. -/
def typeStart : Char := (Text.trim Text.isBlank s.kind).headD ']'

/-- The slot with more text in front. -/
def behind (front : List Char) : TypedSlot where
  before := front ++ s.before
  name := s.name
  kind := s.kind
  after := s.after
  colon_not_mem := s.colon_not_mem
  no_bracket := s.no_bracket

theorem getElem?_typePos : s.text[s.typePos]? = some s.typeStart := by
  rw [text, typePos, getElem?_behind_two, getElem?_first, typeStart, headD_trim]

theorem isBlank_typeStart : Text.isBlank s.typeStart = false := by
  rw [typeStart, headD_trim]
  have hhead := List.head?_dropWhile_not Text.isBlank s.kind
  cases hkind : s.kind.dropWhile Text.isBlank with
  | nil => decide
  | cons c cs => rwa [hkind] at hhead

theorem text_behind (front : List Char) : (s.behind front).text = front ++ s.text :=
  List.append_assoc _ _ _

theorem typePos_behind (front : List Char) :
    (s.behind front).typePos = front.length + s.typePos := by
  simp only [typePos, behind, List.length_append]
  omega

end TypedSlot

/-- The fault is an entity type that is not known, and is at its name in a slot. -/
def Fault.PointsIntoSlot (entities : Table Pattern) (f : Fault) (gs : List Glyph) : Prop :=
  ∃ (s : TypedSlot) (g : Glyph), s.text = Glyph.chars gs ∧ gs[s.typePos]? = some g ∧
    entities.get? s.type = none ∧ f = ⟨g.pos, .unknownEntity s.type⟩

/-- The fault is at a glyph, which fits it. -/
def Fault.Blames (entities : Table Pattern) (f : Fault) (gs : List Glyph) : Prop :=
  f.PointsAt gs ∨ f.PointsIntoSlot entities gs

theorem Fault.Blames.behind {entities : Table Pattern} {f : Fault} {gs : List Glyph}
    (h : f.Blames entities gs) (front : List Glyph) : f.Blames entities (front ++ gs) := by
  obtain h | ⟨s, g, htext, hg, hnone, rfl⟩ := h
  · exact .inl (h.mono (List.subset_append_right _ _))
  · refine .inr ⟨s.behind (Glyph.chars front), g, ?_, ?_, hnone, rfl⟩
    · rw [s.text_behind, htext, Glyph.chars, Glyph.chars, Glyph.chars, List.map_append]
    · rw [s.typePos_behind, Glyph.chars, List.length_map, ← hg]
      rw [List.getElem?_append_right (Nat.le_add_right _ _), Nat.add_sub_cancel_left]

theorem closer_not_mem_inside {o : Opening} {gs : List Glyph} {b : Block}
    (h : block o [] gs = .ok b) (hopener : ∀ g ∈ b.inside, Bracket.ofOpener? g.char = none) :
    ∀ g ∈ b.inside, Bracket.ofCloser? g.char = none := by
  generalize houter : ([] : List Opening) = outer at h
  fun_induction block o outer gs generalizing b with
  | case1 => cases h
  | case2 => cases h
  | case3 =>
    cases h
    intro g hg
    cases hg
  | case4 => cases h
  | case5 o outer g gs o' outer' hstep b' hblock ih =>
    cases h
    subst houter
    have hg := hopener g List.mem_cons_self
    have hmore : ∀ g ∈ b'.inside, Bracket.ofOpener? g.char = none := fun g' hg' =>
      hopener g' (List.mem_cons_of_mem _ hg')
    -- A closing bracket would have ended the block.
    cases hcloser : Bracket.ofCloser? g.char with
    | some k =>
      rw [Opening.step_closer hg hcloser] at hstep
      split at hstep <;> cases hstep
    | none =>
      rw [Opening.step_plain _ hg hcloser] at hstep
      cases hstep
      intro g' hg'
      rcases List.mem_cons.1 hg' with rfl | hg'
      · exact hcloser
      · exact ih hmore rfl hblock g' hg'

namespace Item

theorem blames_of_refuse {openers : List Bracket} {opener : Glyph} {inside : List Glyph}
    {f : Fault} (h : refuse openers opener inside = .error f) : f.PointsAt inside := by
  rw [refuse] at h
  split at h
  · next g hfind =>
    cases h
    have hany := List.find?_some hfind
    obtain ⟨b, -, hchar⟩ := List.any_eq_true.1 hany
    exact ⟨by rintro ⟨⟩, g, List.mem_of_find?_eq_some hfind, rfl, b, eq_of_beq hchar⟩
  · cases h

theorem not_opener_of_refuse {openers : List Bracket} {opener : Glyph} {inside : List Glyph}
    {u : Unit} (h : refuse openers opener inside = .ok u) :
    ∀ g ∈ inside, ∀ b ∈ openers, g.char ≠ b.opener := by
  rw [refuse] at h
  split at h
  · cases h
  · next hfind =>
    intro g hg b hb hchar
    have hnone := List.find?_eq_none.1 hfind g hg
    exact hnone (List.any_eq_true.2 ⟨b, hb, beq_iff_eq.2 hchar⟩)

/-- A group is refused for a bracket inside it, or for one of its words. -/
theorem readGroup_eq_error {opener : Glyph} {b : Block} {f : Fault}
    (h : readGroup opener b = .error f) :
    refuse [.round, .square] opener b.inside = .error f ∨
      ∃ g word, (g :: word).Sublist b.inside ∧ Atom.read g word = .error f := by
  rw [readGroup] at h
  cases hr : refuse [.round, .square] opener b.inside with
  | error f' =>
    rw [hr] at h
    cases h
    exact .inl rfl
  | ok u =>
    rw [hr] at h
    cases hm : (b.inside.splitOnP (·.char == '|')).mapM Atom.readRun with
    | error f' =>
      rw [hm] at h
      cases h
      obtain ⟨run, hrun, hf⟩ := mapM_eq_error hm
      obtain ⟨g, word, hword, hread⟩ := Atom.exists_of_readRun_eq_error hf
      exact .inr ⟨g, word, hword.trans (sublist_of_mem_splitOnP hrun), hread⟩
    | ok options =>
      rw [hm] at h
      cases h

theorem blames_of_readGroup {opener : Glyph} {b : Block} {f : Fault}
    (h : readGroup opener b = .error f) : f.PointsAt b.inside := by
  obtain hr | ⟨g, word, hword, hread⟩ := readGroup_eq_error h
  · exact blames_of_refuse hr
  · exact (Atom.blames_of_read hread).mono hword.subset

/-- The text of a slot in front of its rest, with the first glyph of its entity type. -/
theorem pointsIntoSlot {entities : Table Pattern} {opener colon closer : Glyph}
    {name kind rest : List Glyph} (hopener : opener.char = '[') (hcolon : colon.char = ':')
    (hcloser : closer.char = ']') (hname : ∀ g ∈ name, g.char ≠ ':')
    (hplain : ∀ g ∈ name ++ kind,
      Bracket.ofOpener? g.char = none ∧ Bracket.ofCloser? g.char = none)
    (hnone : entities.get? (Glyph.text (Text.trim Glyph.isBlank kind)) = none) :
    Fault.PointsIntoSlot entities
      ⟨((kind.dropWhile Glyph.isBlank).headD closer).pos,
        .unknownEntity (Glyph.text (Text.trim Glyph.isBlank kind))⟩
      (opener :: (name ++ colon :: (kind ++ closer :: rest))) := by
  have hblanks : (Glyph.chars kind).takeWhile Text.isBlank =
      Glyph.chars (kind.takeWhile Glyph.isBlank) := (Glyph.chars_takeWhile Text.isBlank kind).symm
  refine ⟨⟨[], Glyph.chars name, Glyph.chars kind, Glyph.chars rest, ?_, ?_⟩,
    (kind.dropWhile Glyph.isBlank).headD closer, ?_, ?_, ?_, ?_⟩
  · intro hmem
    obtain ⟨g, hg, hchar⟩ := List.mem_map.1 hmem
    exact hname g hg hchar
  · intro c hc
    rw [← Glyph.chars_append] at hc
    obtain ⟨g, hg, rfl⟩ := List.mem_map.1 hc
    exact hplain g hg
  · simp [TypedSlot.text, Glyph.chars, hopener, hcolon, hcloser]
  · simp only [TypedSlot.typePos, hblanks, Glyph.length_chars]
    exact (getElem?_behind_two [] name _ opener colon _).trans (getElem?_first _ kind rest closer)
  · rwa [TypedSlot.type, ← Glyph.chars_trim]
  · rw [TypedSlot.type, ← Glyph.chars_trim]
    rfl

theorem blames_of_readSlot {entities : Table Pattern} {opener : Glyph} {gs : List Glyph}
    {b : Block} {f : Fault} (hopener : opener.char = '[')
    (hblock : block ⟨.square, opener.pos⟩ [] gs = .ok b) (h : readSlot entities opener b = .error f) :
    f.Blames entities (opener :: gs) := by
  rw [readSlot] at h
  have hgs := append_of_block hblock
  cases hr : refuse [.round, .square, .curly] opener b.inside with
  | error f' =>
    rw [hr] at h
    cases h
    refine .inl ((blames_of_refuse hr).mono ?_)
    rw [hgs]
    exact List.subset_cons_of_subset _ (List.subset_append_left _ _)
  | ok u =>
    rw [hr] at h
    have hopeners : ∀ g ∈ b.inside, Bracket.ofOpener? g.char = none := by
      intro g hg
      refine Option.eq_none_iff_forall_ne_some.2 fun k hk => ?_
      exact not_opener_of_refuse hr g hg k (by cases k <;> decide) (Bracket.ofOpener?_eq_some.1 hk)
    have hclosers := closer_not_mem_inside hblock hopeners
    have hsplit := List.takeWhile_append_dropWhile (p := (·.char != ':')) (l := b.inside)
    have hcloser : b.closer.char = ']' := closer_of_block rfl hblock
    simp only [List.span_eq_takeWhile_dropWhile] at h
    change (if _ then _ else _) = _ at h
    split at h
    · cases h
      exact .inl ⟨by rintro ⟨⟩, opener, List.mem_cons_self, rfl, hopener⟩
    · split at h
      · cases h
      · next colon kind hbehind =>
        split at h
        · cases h
        · next hnone =>
          cases h
          rw [hbehind] at hsplit
          have hcolon : colon.char = ':' := by
            have hhead := List.head?_dropWhile_not (fun g : Glyph => g.char != ':') b.inside
            rw [hbehind] at hhead
            simpa using hhead
          have hname : ∀ g ∈ b.inside.takeWhile (·.char != ':'), g.char ≠ ':' := fun g hg => by
            simpa using List.mem_takeWhile_imp hg
          refine .inr ?_
          rw [hgs, ← hsplit, List.append_assoc, List.cons_append]
          refine pointsIntoSlot hopener hcolon hcloser hname (fun g hg => ?_) hnone
          have hmem : g ∈ b.inside := by
            rw [← hsplit]
            rcases List.mem_append.1 hg with hg | hg
            · exact List.mem_append_left _ hg
            · exact List.mem_append_right _ (List.mem_cons_of_mem _ hg)
          exact ⟨hopeners g hmem, hclosers g hmem⟩

theorem blames_of_read {entities : Table Pattern} {g : Glyph} {gs : List Glyph} {f : Fault}
    (h : read entities g gs = .error f) : f.Blames entities (g :: gs) := by
  have hinside {kind : Bracket} {b : Block} (hb : block ⟨kind, g.pos⟩ [] gs = .ok b) :
      b.inside ⊆ gs := by
    rw [append_of_block hb]
    exact List.subset_append_left _ _
  obtain ⟨-, hread⟩ | ⟨kind, f', hopener, hb, hread⟩ | ⟨kind, b, hopener, hb, -, hread⟩ |
    ⟨b, hopener, hb, -, hread⟩ | ⟨b, -, hb, hread⟩ := read_cases entities g gs
  all_goals rw [hread] at h
  · refine .inl ((Atom.blames_of_read (map_eq_error h)).mono ?_)
    exact List.cons_subset_cons _ (List.takeWhile_subset _)
  · cases h
    exact .inl (blames_of_block_at hopener hb)
  · have hat := blames_of_readAssignments (Bracket.ofOpener?_eq_some.1 hopener) (map_eq_error h)
    exact .inl (hat.mono (List.cons_subset_cons _ (hinside hb)))
  · exact blames_of_readSlot (Bracket.ofOpener?_eq_some.1 hopener) hb (map_eq_error h)
  · have hat := blames_of_readGroup (map_eq_error h)
    exact .inl (hat.mono (List.subset_cons_of_subset _ (hinside hb)))

/-- **The faults of a template** are at one of its glyphs each. -/
theorem blames_of_readAll {entities : Table Pattern} {gs : List Glyph} {f : Fault}
    (h : readAll entities gs = .error f) : f.Blames entities gs := by
  fun_induction readAll entities gs with
  | case1 => cases h
  | case2 gs g rest hgs f' hr =>
    cases h
    have hsplit := List.takeWhile_append_dropWhile (p := Glyph.isBlank) (l := gs)
    rw [← hsplit, hgs]
    exact (blames_of_read hr).behind _
  | case3 gs g rest hgs item left hr ih =>
    obtain ⟨front, hfront⟩ := suffix_of_read hr
    have hsplit := List.takeWhile_append_dropWhile (p := Glyph.isBlank) (l := gs)
    rw [← hsplit, hgs, ← hfront, List.append_cons, ← List.append_assoc]
    exact (ih (map_eq_error h)).behind _

end Item

end IntentGrammar.Template
