import IntentGrammar.Proofs.Template.Braces
import IntentGrammar.Proofs.Template.Places
import IntentGrammar.Proofs.Template.Terms
import IntentGrammar.Proofs.Trimming
import Mathlib.Data.List.TakeDrop

/-!
# Reading templates as they are written

A template that is written in the surface language is read part by part, and each part is read as
what it stands for: the options of a group are cut at its bars, and the name of a slot ends at its
colon or at its closing bracket.  Every bracket inside a part is closed inside it (`Passes`), so a
block ends where the part does.

* `compile_written` : **every template of the surface language compiles to the patterns of its
  parts**, without tags.
-/

namespace IntentGrammar.Template

open Glyph (chars)

/-! ### Blocks -/

/-- A block reads on behind a text of these characters as if it were not there: every bracket in it
is closed in it. -/
def Passes (cs : List Char) : Prop :=
  ∀ gs, chars gs = cs → ∀ o outer rest,
    block o outer (gs ++ rest) = (block o outer rest).map fun b => { b with inside := gs ++ b.inside }

namespace Passes

variable {cs ds : List Char}

theorem nil : Passes [] := by
  intro gs hgs o outer rest
  obtain rfl := List.map_eq_nil_iff.1 hgs
  rw [List.nil_append]
  cases block o outer rest <;> rfl

theorem append (h : Passes cs) (h' : Passes ds) : Passes (cs ++ ds) := by
  intro gs hgs o outer rest
  obtain ⟨gs₁, gs₂, rfl, hgs₁, hgs₂⟩ := chars_eq_append hgs
  rw [List.append_assoc, h gs₁ hgs₁, h' gs₂ hgs₂]
  cases block o outer rest with
  | error f => rfl
  | ok b => simp only [Except.map, List.append_assoc]

theorem of_isBracket (h : ∀ c ∈ cs, isBracket c = false) : Passes cs := by
  induction cs with
  | nil => exact nil
  | cons c cs ih =>
    intro gs hgs o outer rest
    obtain ⟨g, gs', rfl, rfl, hgs'⟩ := chars_eq_cons hgs
    obtain ⟨hopener, hcloser⟩ := isBracket_eq_false (h _ List.mem_cons_self)
    rw [List.cons_append, block_step (Opening.step_plain _ hopener hcloser),
      ih (fun c hc => h c (List.mem_cons_of_mem _ hc)) gs' hgs']
    cases block o outer rest <;> rfl

/-- A text in brackets that passes. -/
theorem brackets (b : Bracket) (h : Passes cs) : Passes (b.opener :: (cs ++ [b.closer])) := by
  intro gs hgs o outer rest
  obtain ⟨opener, gs₁, rfl, hopener, hgs₁⟩ := chars_eq_cons hgs
  obtain ⟨gs₂, gs₃, rfl, hgs₂, hgs₃⟩ := chars_eq_append hgs₁
  obtain ⟨closer, rfl, hcloser⟩ := List.map_eq_singleton_iff.1 hgs₃
  have hopen : Bracket.ofOpener? opener.char = some b := Bracket.ofOpener?_eq_some.2 hopener
  have hno : Bracket.ofOpener? closer.char = none := by rw [hcloser, Bracket.ofOpener?_closer]
  have hclose : Bracket.ofCloser? closer.char = some b := Bracket.ofCloser?_eq_some.2 hcloser
  have hstep := Opening.step_closer hno hclose ⟨b, opener.pos⟩ (o :: outer)
  rw [if_pos rfl] at hstep
  rw [List.cons_append, List.append_assoc, block_step (Opening.step_opener _ hopen),
    h gs₂ hgs₂, List.singleton_append, block_step hstep]
  cases block o outer rest with
  | error f => rfl
  | ok b => simp [Except.map]

end Passes

theorem Term.passes {t : Term} (h : t.form.WellFormed) : Passes t.read := by
  have hplain {cs : List Char} (h : ∀ c ∈ cs, isPlain c = true) : Passes cs :=
    .of_isBracket fun c hc => (isPlain_iff.1 (h c hc)).2
  have hmark : Passes (mark t.optional) := .of_isBracket fun c hc => by
    rw [eq_of_mem_mark hc]
    rfl
  refine Passes.append ?_ hmark
  obtain ⟨form, optional⟩ := t
  match form with
  | .word cs => exact hplain h.2.2.2
  | .wildcard =>
    show Passes ['*']
    exact .of_isBracket (List.forall_mem_singleton.2 rfl)
  | .variants _ pre fragment post =>
    obtain ⟨-, -, -, h⟩ := h
    simp only [List.mem_append] at h
    have hfragment : Passes fragment := hplain fun c hc => h c (.inr (.inl hc))
    have hpost : Passes post := hplain fun c hc => h c (.inr (.inr hc))
    have htail := (hfragment.brackets .curly).append hpost
    rw [List.cons_append, List.append_assoc] at htail
    exact (hplain fun c hc => h c (.inl hc)).append htail

theorem passes_spaced {ts : List Term} {cs : List Char} (hwf : ∀ t ∈ ts, t.form.WellFormed)
    (h : Spaced (fun t cs => t.read = cs) ts cs) : Passes cs := by
  induction h with
  | nil => exact .nil
  | @blank _ _ c hc h ih =>
    have hblank : Passes [c] :=
      .of_isBracket (List.forall_mem_singleton.2 (isBracket_of_isBlank hc))
    exact hblank.append (ih hwf)
  | last ht =>
    subst ht
    exact Term.passes (hwf _ List.mem_cons_self)
  | @cons _ _ _ _ c ht hc h ih =>
    subst ht
    have hblank : Passes [c] :=
      .of_isBracket (List.forall_mem_singleton.2 (isBracket_of_isBlank hc))
    exact (Term.passes (hwf _ List.mem_cons_self)).append
      (hblank.append (ih fun t ht => hwf t (List.mem_cons_of_mem _ ht)))

theorem passes_options {options : List (List Term)} {texts : List (List Char)}
    (hwf : ∀ o ∈ options, ∀ t ∈ o, t.form.WellFormed)
    (h : List.Forall₂ (Spaced fun t cs => t.read = cs) options texts) :
    Passes (['|'].intercalate texts) := by
  induction h with
  | nil => exact .nil
  | @cons o cs options texts ho h ih =>
    have hfirst := passes_spaced (hwf o List.mem_cons_self) ho
    have hmore := ih fun o ho => hwf o (List.mem_cons_of_mem _ ho)
    cases texts with
    | nil => rwa [List.intercalate_singleton]
    | cons ds texts =>
      have hbar : Passes ['|'] := .of_isBracket (List.forall_mem_singleton.2 rfl)
      rw [List.intercalate_cons_cons]
      exact (hfirst.append hbar).append hmore

/-- A text that passes is what is inside the brackets around it. -/
theorem block_of_passes (kind : Bracket) {inside : List Glyph} (h : Passes (chars inside))
    {closer : Glyph} (hcloser : closer.char = kind.closer) (pos : Nat) (rest : List Glyph) :
    block ⟨kind, pos⟩ [] (inside ++ closer :: rest) = .ok ⟨inside, closer, rest⟩ := by
  have hno : Bracket.ofOpener? closer.char = none := by rw [hcloser, Bracket.ofOpener?_closer]
  have hclose : Bracket.ofCloser? closer.char = some kind := Bracket.ofCloser?_eq_some.2 hcloser
  have hstep := Opening.step_closer hno hclose ⟨kind, pos⟩ []
  rw [if_pos rfl] at hstep
  rw [h inside rfl, block_close hstep, Except.map, List.append_nil]

/-- A text that passes and stands in brackets is a block, and what stands behind it is its rest. -/
theorem exists_block (kind : Bracket) {cs behind : List Char} (h : Passes cs) {gs : List Glyph}
    (hgs : chars gs = kind.opener :: (cs ++ kind.closer :: behind)) :
    ∃ opener b gs', gs = opener :: gs' ∧ Bracket.ofOpener? opener.char = some kind ∧
      opener.isBlank = false ∧ chars b.inside = cs ∧ b.closer.char = kind.closer ∧
        chars b.rest = behind ∧ block ⟨kind, opener.pos⟩ [] gs' = .ok b := by
  obtain ⟨opener, gs₁, rfl, hopener, hgs₁⟩ := chars_eq_cons hgs
  obtain ⟨inside, gs₂, rfl, rfl, hgs₂⟩ := chars_eq_append hgs₁
  obtain ⟨closer, rest, rfl, hcloser, hrest⟩ := chars_eq_cons hgs₂
  have hsolid : opener.isBlank = false := by
    rw [Glyph.isBlank, hopener]
    cases kind <;> decide
  exact ⟨opener, _, _, rfl, Bracket.ofOpener?_eq_some.2 hopener, hsolid, rfl, hcloser, hrest,
    block_of_passes kind h hcloser opener.pos rest⟩

/-! ### Parts -/

variable {E : Entities}

theorem takeMark_mark {gs : List Glyph} {optional : Bool} (h : chars gs = mark optional) :
    Item.takeMark gs = (optional, []) := by
  cases optional with
  | false =>
    obtain rfl := List.map_eq_nil_iff.1 h
    rfl
  | true =>
    obtain ⟨g, rfl, hg⟩ := List.map_eq_singleton_iff.1 h
    simp [Item.takeMark, hg]

theorem find?_opener_eq_none {openers : List Bracket} {gs : List Glyph}
    (h : ∀ c ∈ chars gs, ∀ b ∈ openers, c ≠ b.opener) :
    (gs.find? fun g => openers.any fun b => g.char == b.opener) = none := by
  refine List.find?_eq_none.2 fun g hg hany => ?_
  obtain ⟨b, hb, hchar⟩ := List.any_eq_true.1 hany
  exact h _ (char_mem_chars hg) b hb (eq_of_beq hchar)

theorem refuse_eq_ok {openers : List Bracket} {opener : Glyph} {inside : List Glyph}
    (h : ∀ c ∈ chars inside, ∀ b ∈ openers, c ≠ b.opener) :
    Item.refuse openers opener inside = .ok () := by
  rw [Item.refuse, find?_opener_eq_none h]

theorem of_mem_intercalate {texts : List (List Char)} {bar c : Char}
    (h : c ∈ [bar].intercalate texts) : c = bar ∨ ∃ text ∈ texts, c ∈ text := by
  induction texts with
  | nil => cases h
  | cons text texts ih =>
    cases texts with
    | nil => exact .inr ⟨text, List.mem_cons_self, by rwa [List.intercalate_singleton] at h⟩
    | cons text' texts =>
      rw [List.intercalate_cons_cons, List.mem_append, List.mem_append, List.mem_singleton] at h
      rcases h with (h | h) | h
      · exact .inr ⟨text, List.mem_cons_self, h⟩
      · exact .inl h
      · exact (ih h).imp_right fun ⟨t, ht, hc⟩ => ⟨t, List.mem_cons_of_mem _ ht, hc⟩

/-- The characters of options are blanks and the characters of their terms. -/
theorem of_mem_options {options : List (List Term)} {texts : List (List Char)}
    (h : List.Forall₂ (Spaced fun t cs => t.read = cs) options texts) {text : List Char}
    (htext : text ∈ texts) {c : Char} (hc : c ∈ text) :
    Text.isBlank c = true ∨ ∃ o ∈ options, ∃ t ∈ o, c ∈ t.read := by
  induction h with
  | nil => cases htext
  | cons ho _ ih =>
    rcases List.mem_cons.1 htext with rfl | htext
    · refine (ho.of_mem hc).imp_right ?_
      rintro ⟨t, ht, _, rfl, hc⟩
      exact ⟨_, List.mem_cons_self, t, ht, hc⟩
    · exact (ih htext).imp_right fun ⟨o, ho, ht⟩ => ⟨o, List.mem_cons_of_mem _ ho, ht⟩

theorem mapM_readRun {options : List (List Term)} {pieces : List (List Glyph)}
    (hwf : ∀ o ∈ options, ∀ t ∈ o, t.form.WellFormed)
    (h : List.Forall₂ (fun o gs => Spaced (fun t cs => t.read = cs) o (chars gs)) options pieces) :
    pieces.mapM Atom.readRun = .ok (options.map (List.map Term.atom)) := by
  induction h with
  | nil => rfl
  | cons ho _ ih =>
    rw [List.mapM_cons, readRun_spaced (hwf _ List.mem_cons_self) ho rfl,
      ih fun o ho => hwf o (List.mem_cons_of_mem _ ho)]
    rfl

theorem bar_not_mem_read {t : Term} (h : '|' ∉ t.form.text) : '|' ∉ t.read := by
  obtain ⟨form, optional⟩ := t
  have hmark : '|' ∉ mark optional := fun hmem => absurd (eq_of_mem_mark hmem) (by decide)
  have hform : '|' ∉ form.read := by
    match form with
    | .word cs => exact h
    | .wildcard => exact h
    | .variants true pre fragment post => simpa [Form.text, Form.read] using h
    | .variants false pre fragment post => exact h
  rw [Term.read, List.mem_append, not_or]
  exact ⟨hform, hmark⟩

theorem readGroup_written {options : List (List Term)} {texts : List (List Char)}
    (hwf : ∀ o ∈ options, ∀ t ∈ o, t.form.WellFormed ∧ '|' ∉ t.form.text) (hne : options ≠ [])
    (h : List.Forall₂ (Spaced fun t cs => t.read = cs) options texts) {opener : Glyph} {b : Block}
    (hinside : chars b.inside = ['|'].intercalate texts) {optional : Bool}
    (hrest : chars b.rest = mark optional) :
    Item.readGroup opener b = .ok (Part.group options optional).item := by
  have hterms : ∀ o ∈ options, ∀ t ∈ o, t.form.WellFormed := fun o ho t ht => (hwf o ho t ht).1
  have hbars : ∀ text ∈ texts, '|' ∉ text := by
    intro text htext hmem
    obtain hblank | ⟨o, ho, t, ht, hc⟩ := of_mem_options h htext hmem
    · exact absurd hblank (by decide)
    · exact bar_not_mem_read (hwf o ho t ht).2 hc
  have hpieces : (b.inside.splitOnP (·.char == '|')).map chars = texts := by
    have hsplit := List.splitOn_intercalate '|' hbars (by rintro rfl; cases h; exact hne rfl)
    rw [← hinside, List.splitOn_eq_splitOnP] at hsplit
    rw [← hsplit]
    exact (splitOnP_map Glyph.char (· == '|') b.inside).symm
  have hoptions := mapM_readRun hterms (List.forall₂_map_right_iff.1 (hpieces.symm ▸ h))
  -- no other construct starts inside the group: only fragments in braces do
  have hrefuse : Item.refuse [.round, .square] opener b.inside = .ok () := by
    refine refuse_eq_ok fun c hc k hk hopener => ?_
    subst hopener
    rw [hinside] at hc
    obtain hbar | ⟨text, htext, hc⟩ := of_mem_intercalate hc
    · cases k <;> exact absurd hbar (by decide)
    obtain hblank | ⟨o, ho, t, ht, hc⟩ := of_mem_options h htext hc
    · cases k <;> exact absurd hblank (by decide)
    cases k with
    | round | square =>
      exact Term.not_mem_read (hterms o ho t ht) rfl (by decide) (by decide) hc
    | curly => exact absurd hk (by decide)
  rw [Item.readGroup, hrefuse, takeMark_mark hrest]
  show ((b.inside.splitOnP (·.char == '|')).mapM Atom.readRun >>= _) = _
  rw [hoptions]
  rfl

theorem readSlot_written {name : List Char} {entity : Option (List Char × Pattern)} {optional : Bool}
    (hwf : (Part.slot name entity optional).WellFormed E) {opener : Glyph} {b : Block}
    (hinside : chars b.inside = Part.slotText name entity)
    (hrest : chars b.rest = mark optional) :
    Item.readSlot E.table opener b = .ok (Part.slot name entity optional).item := by
  have hinsideChars := hinside ▸ Part.isBracket_of_mem_slotText hwf
  obtain ⟨hname, hchars, hentity⟩ := hwf
  have hrefuse : Item.refuse [.round, .square, .curly] opener b.inside = .ok () := by
    refine refuse_eq_ok fun c hc k hk hopener => ?_
    have hbracket := hinsideChars c hc
    subst hopener
    cases k <;> exact absurd hbracket (by decide)
  have hnameEnd {gs : List Glyph} (hgs : chars gs = name) : ∀ g ∈ gs, (g.char != ':') = true :=
    fun g hg => bne_iff_ne.2 (hchars _ (hgs ▸ char_mem_chars hg)).1
  have htrim {gs : List Glyph} (hgs : chars gs = name) :
      (Text.trim Glyph.isBlank gs).isEmpty = false := by
    obtain ⟨c, hc, hblank⟩ := hname
    obtain ⟨g, hg, rfl⟩ := List.mem_map.1 (hgs ▸ hc)
    exact List.isEmpty_eq_false_iff.2 (Text.trim_ne_nil ⟨g, hg, hblank⟩)
  have htext (gs : List Glyph) : Glyph.text (Text.trim Glyph.isBlank gs) =
      String.ofList (Text.trim Text.isBlank (chars gs)) := by
    rw [Glyph.text, Glyph.chars_trim]
  rw [Item.readSlot, hrefuse, takeMark_mark hrest, List.span_eq_takeWhile_dropWhile]
  cases entity with
  | none =>
    rw [List.takeWhile_eq_self_iff.2 (hnameEnd hinside),
      List.dropWhile_eq_nil_iff.2 (hnameEnd hinside)]
    simp only [bind, Except.bind, htrim hinside, htext, hinside]
    rfl
  | some e =>
    obtain ⟨gs, behind, hsplit, hgs, hbehind⟩ := chars_eq_append hinside
    obtain ⟨colon, gs', rfl, hcolon, hkind⟩ := chars_eq_cons hbehind
    have hstop : (colon.char != ':') = false := by simp [hcolon]
    have htake := takeWhile_seam (p := fun g : Glyph => g.char != ':') (x := colon) hstop gs gs'
    have hdrop := dropWhile_seam (p := fun g : Glyph => g.char != ':') (x := colon) hstop gs gs'
    rw [hsplit, htake, hdrop, List.takeWhile_eq_self_iff.2 (hnameEnd hgs),
      List.dropWhile_eq_nil_iff.2 (hnameEnd hgs)]
    simp only [bind, Except.bind, htrim hgs, htext, hgs, hkind, List.nil_append,
      (hentity e rfl).2]
    rfl

theorem nameBefore?_eq_none {p : Char → Bool} {gs : List Glyph} (h : ∀ c ∈ chars gs, c ≠ '=') :
    nameBefore? p gs = none := by
  simp only [nameBefore?]
  split
  · rfl
  · rfl
  · next sign value hbehind _ =>
    have hmem : sign ∈ gs := by
      refine (List.dropWhile_sublist Glyph.isBlank).subset ?_
      refine (List.dropWhile_sublist fun g : Glyph => p g.char).subset ?_
      refine (List.dropWhile_sublist Glyph.isBlank).subset ?_
      rw [hbehind]
      exact List.mem_cons_self
    rw [if_neg (h _ (char_mem_chars hmem))]

/-- A slot is no tag block: no equals sign follows its name. -/
theorem startsTags_slot {name : List Char} {entity : Option (List Char × Pattern)}
    (hname : ∀ c ∈ name, c ≠ '=') {inside : List Glyph} (hinside : chars inside = Part.slotText name entity)
    {closer : Glyph} (hcloser : closer.char = ']') (rest : List Glyph) :
    Item.startsTags (inside ++ closer :: rest) = false := by
  have hstart {gs : List Glyph} (hgs : chars gs = name) : Item.startsTags gs = false := by
    rw [Item.startsTags, nameBefore?_eq_none (hgs ▸ hname)]
    rfl
  cases entity with
  | none => rw [Item.startsTags_append (.inl hcloser), hstart hinside]
  | some e =>
    obtain ⟨gs, behind, rfl, hgs, hbehind⟩ := chars_eq_append hinside
    obtain ⟨colon, gs', rfl, hcolon, -⟩ := chars_eq_cons hbehind
    rw [List.append_assoc, List.cons_append, Item.startsTags_append (.inr hcolon), hstart hgs]

theorem readAll_one {g : Glyph} {gs : List Glyph} {item : Item} (hg : g.isBlank = false)
    (h : Item.read E.table g gs = .ok (item, [])) : Item.readAll E.table (g :: gs) = .ok [item] := by
  have hfront : (g :: gs).dropWhile Glyph.isBlank = g :: gs := by simp [hg]
  rw [Item.readAll_item _ hfront h, Item.readAll_blank _ rfl]
  rfl

theorem read_term {t : Term} (h : t.form.WellFormed) {g : Glyph} {gs : List Glyph}
    (hgs : chars (g :: gs) = t.read) (hg : isPlain g.char = true) :
    Item.read E.table g gs = .ok (.atom t.atom, []) := by
  have hword : ∀ g' ∈ gs, (!Item.endsWord g') = true := by
    intro g' hg'
    have hmem : g'.char ∈ t.read := hgs ▸ char_mem_chars (List.mem_cons_of_mem _ hg')
    have hblank : g'.isBlank = false := Term.isBlank_of_mem_read h hmem
    have hround : g'.char ≠ '(' := fun hc =>
      Term.not_mem_read h rfl (by decide) (by decide) (hc ▸ hmem)
    have hsquare : g'.char ≠ '[' := fun hc =>
      Term.not_mem_read h rfl (by decide) (by decide) (hc ▸ hmem)
    simp [Item.endsWord, hblank, hround, hsquare]
  obtain ⟨hopener, -⟩ := isBracket_eq_false (isPlain_iff.1 hg).2
  rw [Item.read_word _ hopener, List.takeWhile_eq_self_iff.2 hword,
    List.dropWhile_eq_nil_iff.2 hword, Term.atom_read h hgs]
  rfl

/-- A part is read as what it stands for, up to its end. -/
theorem readAll_written {part : Part} {cs : List Char} (hwf : part.WellFormed E)
    (h : part.Written Term.read cs) {gs : List Glyph} (hgs : chars gs = cs) :
    Item.readAll E.table gs = .ok [part.item] := by
  cases h with
  | term t =>
    obtain ⟨g, gs', rfl, hg⟩ := Term.exists_first hwf hgs
    exact readAll_one (isPlain_iff.1 hg).1 (read_term hwf hgs hg)
  | @group options texts optional h =>
    have hpasses := passes_options (fun o ho t ht => (hwf.2 o ho t ht).1) h
    obtain ⟨opener, b, gs', rfl, hopen, hsolid, hinside, -, hrest, hblock⟩ :=
      exists_block .round hpasses hgs
    refine readAll_one hsolid ?_
    rw [Item.read_group _ hopen hblock, readGroup_written hwf.2 hwf.1 h hinside hrest,
      takeMark_mark hrest]
    rfl
  | slot name entity optional =>
    have hpasses : Passes (Part.slotText name entity) :=
      .of_isBracket (Part.isBracket_of_mem_slotText hwf)
    obtain ⟨opener, b, gs', rfl, hopen, hsolid, hinside, hcloser, hrest, hblock⟩ :=
      exists_block .square hpasses hgs
    have hstart := startsTags_slot (fun c hc => (hwf.2.1 c hc).2.1) hinside hcloser b.rest
    rw [← append_of_block hblock] at hstart
    refine readAll_one hsolid ?_
    rw [Item.read_slot _ hopen hblock hstart, readSlot_written hwf hinside hrest,
      takeMark_mark hrest]
    rfl

/-- What is written piece by piece, with blanks between the pieces, is read piece by piece. -/
theorem readAll_pieces {α : Type} {R : α → List Char → Prop} {item : α → Item} {xs : List α}
    {cs : List Char}
    (hread : ∀ x ∈ xs, ∀ gs, R x (chars gs) → Item.readAll E.table gs = .ok [item x])
    (h : Spaced R xs cs) {gs : List Glyph} (hgs : chars gs = cs) :
    Item.readAll E.table gs = .ok (xs.map item) := by
  induction h generalizing gs with
  | nil =>
    obtain rfl := List.map_eq_nil_iff.1 hgs
    exact Item.readAll_blank _ rfl
  | blank hc h ih =>
    obtain ⟨g, gs', rfl, rfl, hgs'⟩ := chars_eq_cons hgs
    rw [← ih hread hgs']
    exact Item.readAll_blanks (List.forall_mem_singleton.2 hc) gs'
  | last hx => exact hread _ List.mem_cons_self gs (hgs ▸ hx)
  | cons hx hc h ih =>
    obtain ⟨gs₁, gs₂, rfl, hgs₁, hgs₂⟩ := chars_eq_append hgs
    obtain ⟨g, gs₃, rfl, rfl, hgs₃⟩ := chars_eq_cons hgs₂
    have hfirst := hread _ List.mem_cons_self gs₁ (hgs₁ ▸ hx)
    have hmore := ih (fun x hx => hread x (List.mem_cons_of_mem _ hx)) hgs₃
    have hsep : g.isBlank = true := hc
    rw [Item.readAll_seam hsep hfirst, hmore]
    rfl

theorem readAll_spaced {parts : List Part} {cs : List Char}
    (hwf : ∀ part ∈ parts, part.WellFormed E) (h : Spaced (Part.Written Term.read) parts cs)
    {gs : List Glyph} (hgs : chars gs = cs) :
    Item.readAll E.table gs = .ok (parts.map Part.item) :=
  readAll_pieces (fun part hpart _ hx => readAll_written (hwf part hpart) hx rfl) h hgs

/-- **Templates of the surface language.**  Parts with blanks between them compile to a series of
their patterns, in order, and to no tags. -/
theorem compile_written {intent : Option String} {template : String} {parts : List Part}
    (hwf : ∀ part ∈ parts, part.WellFormed E)
    (h : Spaced (Part.Written Term.text) parts template.toList) :
    ∃ P, compile E intent template = .ok P ∧ P.tags = [] ∧
      P.body.plain = .series 0 (parts.map Part.pattern) := by
  have hitems : items E template = .ok (parts.map Part.item) :=
    readAll_spaced hwf (spaced_braceAttached hwf h) (Glyph.chars_number _ _)
  refine ⟨assemble E intent template (parts.map Part.item), ?_, ?_, ?_⟩
  · rw [compile, hitems]
    rfl
  · have hassignments : (parts.map Part.item).flatMap Item.assignments = [] := by
      simp [List.flatMap_map, Part.assignments_item]
    rw [assemble, hassignments]
    rfl
  · rw [assemble, Pattern.plain, Item.plainAll_buildAll, List.filterMap_map]
    have hpattern : Item.plain? ∘ Part.item = some ∘ Part.pattern := funext Part.plain?_item
    rw [hpattern, List.filterMap_eq_map]

/-- A word with a fragment, a group with an empty option and a typed slot. -/
def townParts : List Part :=
  [.term ⟨.variants true "page".toList "s".toList [], true⟩,
    .group [[⟨.word "a".toList, false⟩], []] false,
    .slot "to ".toList (some ("town".toList, .wildcard 0 false)) true]

theorem compile_town_parts :
    ∃ P, compile ⟨[("town", .wildcard 0 false)], 1⟩ none "page(s)? (a|)\t[to :town]?" = .ok P ∧
      P.tags = [] ∧
      P.body.plain = .series 0
        [.choice 0 [.word 0 "page" false, .word 0 "pages" false] true,
          .choice 0 [.word 0 "a" false] true, .slot 0 "to" (.wildcard 0 true) (some "town")] := by
  have hwf : ∀ part ∈ townParts, part.WellFormed ⟨[("town", .wildcard 0 false)], 1⟩ := by
    intro part hpart
    rcases List.mem_cons.1 hpart with rfl | hpart
    · exact ⟨by decide, by decide, by decide, List.all_eq_true.1 rfl⟩
    rcases List.mem_cons.1 hpart with rfl | hpart
    · refine ⟨nofun, fun o ho t ht => ?_⟩
      rcases List.mem_cons.1 ho with rfl | ho
      · obtain rfl := List.mem_singleton.1 ht
        exact ⟨⟨by decide, by decide, by decide, List.all_eq_true.1 rfl⟩, by decide⟩
      · cases List.mem_singleton.1 ho
        cases ht
    · obtain rfl := List.mem_singleton.1 hpart
      have hname : "to ".toList.all
          (fun c => decide (c ≠ ':' ∧ c ≠ '=' ∧ isBracket c = false)) = true := rfl
      have hkind : "town".toList.all (fun c => decide (isBracket c = false)) = true := rfl
      refine ⟨⟨'t', by decide, by decide⟩, ?_, fun e he => ?_⟩
      · exact fun c hc => of_decide_eq_true (List.all_eq_true.1 hname c hc)
      · cases he
        exact ⟨fun c hc => of_decide_eq_true (List.all_eq_true.1 hkind c hc), rfl⟩
  have hwritten : Spaced (Part.Written Term.text) townParts
      ("page(s)?".toList ++ ' ' :: ("(a|)".toList ++ '\t' :: "[to :town]?".toList)) :=
    .cons (.term _) rfl
      (.cons (.group false (.cons (.last rfl) (.cons .nil .nil))) rfl (.last (.slot _ _ true)))
  exact compile_written hwf hwritten

end IntentGrammar.Template
