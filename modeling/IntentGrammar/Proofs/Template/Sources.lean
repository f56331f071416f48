import IntentGrammar.Proofs.Template.Nesting
import IntentGrammar.Proofs.Template.Seams
import IntentGrammar.Template.Lines

/-!
# Sources and their lines

What a source of templates looks like, without a scan.  It is a row of pieces with line breaks
between them; a `Piece` is a comment or an unbroken line.  Where a source is none, it has the form
up to a closing bracket that does not fit (`Misfit`), or it ends while brackets are open
(`LeftOpen`).

* `lines_exact` : **a source is cut into the pieces it consists of, and a source that consists of
  none is refused** at its first closing bracket that does not fit or else at the innermost
  bracket that is still open.
-/

namespace IntentGrammar.Template

/-- The first character other than a space or a tab is `#`. -/
def StartsComment (cs : List Char) : Prop := (cs.dropWhile isMargin).head? = some '#'

instance (cs : List Char) : Decidable (StartsComment cs) :=
  inferInstanceAs (Decidable (_ = some '#'))

/-- What stands between two line breaks outside brackets: a comment, whose characters do not count,
or a line. -/
inductive Piece : List Char → Prop
  | comment {cs : List Char} (h : StartsComment cs) (hbreak : '\n' ∉ cs) : Piece cs
  | line {cs : List Char} (h : ¬StartsComment cs) (hnested : Unbroken cs) : Piece cs

/-- A text, counted from `start` on, that ends in a line which is no comment and leaves `opened`
open. -/
inductive Reaches : Nat → List Opening → List Char → Prop
  | line {start : Nat} {opened : List Opening} {cs : List Char} (h : ¬StartsComment cs)
      (hopened : LeavesOpen start opened cs) : Reaches start opened cs
  | piece {start : Nat} {opened : List Opening} {piece cs : List Char} (hpiece : Piece piece)
      (h : Reaches (start + (piece.length + 1)) opened cs) :
      Reaches start opened (piece ++ '\n' :: cs)

/-- The first closing bracket that does not match the innermost open bracket stands at `n`. -/
def Misfit (source : List Char) (n : Nat) : Prop :=
  ∃ front opened back, ∃ b : Bracket, source = front ++ b.closer :: back ∧ front.length = n ∧
    Reaches 0 opened front ∧ opened.head?.map Opening.bracket ≠ some b

/-- The innermost bracket that is open at the end stands at `n`. -/
def LeftOpen (source : List Char) (n : Nat) : Prop :=
  ∃ o outer, Reaches 0 (o :: outer) source ∧ o.pos = n

/-- The source consists of the pieces, with line breaks between them. -/
def ConsistsOf (source : List Char) (pieces : List (List Char)) : Prop :=
  pieces ≠ [] ∧ (∀ piece ∈ pieces, Piece piece) ∧ source = ['\n'].intercalate pieces

/-- The templates in some pieces: the pieces trimmed, without those that are then blank or start
with `#`. -/
def templatesOf (pieces : List (List Char)) : List String :=
  ((pieces.map (Text.trim Text.isBlank)).filter fun cs => cs ≠ [] ∧ cs.head? ≠ some '#').map
    String.ofList

/-! ### Comments -/

theorem startsComment_append {cs tail : List Char}
    (h : ∀ c ∈ tail.head?, isMargin c = false ∧ c ≠ '#') :
    StartsComment (cs ++ tail) ↔ StartsComment cs := by
  have htail : tail.dropWhile isMargin = tail := by
    cases tail with
    | nil => rfl
    | cons c tail => exact List.dropWhile_cons_of_neg (by simp [(h c rfl).1])
  rw [StartsComment, StartsComment, List.dropWhile_append, htail]
  cases hcs : cs.dropWhile isMargin with
  | nil =>
    cases tail with
    | nil => rfl
    | cons c tail => simpa using (h c rfl).2
  | cons c cs => rfl

theorem StartsComment.append {cs : List Char} (h : StartsComment cs) (tail : List Char) :
    StartsComment (cs ++ tail) := by
  rw [StartsComment, List.dropWhile_append]
  rw [StartsComment] at h
  cases hcs : cs.dropWhile isMargin with
  | nil =>
    rw [hcs] at h
    cases h
  | cons c cs =>
    rw [hcs] at h
    exact h

theorem startsComment_break (cs rest : List Char) :
    StartsComment (cs ++ '\n' :: rest) ↔ StartsComment cs :=
  startsComment_append fun c hc => by
    rw [← Option.some.inj hc]
    decide

theorem startsComment_closer (cs back : List Char) (b : Bracket) :
    StartsComment (cs ++ b.closer :: back) ↔ StartsComment cs :=
  startsComment_append fun c hc => by
    rw [← Option.some.inj hc]
    cases b <;> decide

theorem isComment_fresh (gs : List Glyph) :
    Scan.fresh.isComment gs = true ↔ StartsComment (Glyph.chars gs) := by
  have hdrop := Glyph.chars_dropWhile isMargin gs
  rw [StartsComment, ← hdrop, Glyph.chars, List.head?_map]
  exact beq_iff_eq

/-- Trimmed, a comment starts with `#` as well. -/
theorem StartsComment.head?_trim {cs : List Char} (h : StartsComment cs) :
    (Text.trim Text.isBlank cs).head? = some '#' := by
  rw [Template.head?_trim]
  induction cs with
  | nil => cases h
  | cons c cs ih =>
    rw [StartsComment] at h
    by_cases hc : isMargin c = true
    · rw [List.dropWhile_cons_of_pos hc] at h
      rw [List.dropWhile_cons_of_pos (isBlank_of_isMargin hc)]
      exact ih h
    · rw [List.dropWhile_cons_of_neg hc] at h
      cases h
      rfl

/-! ### Runs of the scan -/

/-- Modify the first of several pieces. -/
theorem map_modifyHead_modifyHead {ε : Type} (r : Except ε (List (List Char))) (cs ds : List Char) :
    (r.map (List.modifyHead (ds ++ ·))).map (List.modifyHead (cs ++ ·)) =
      r.map (List.modifyHead (cs ++ ds ++ ·)) := by
  cases r with
  | error f => rfl
  | ok pieces => cases pieces <;> simp [Except.map]

/-- The scan passes over the text, counted from `start` on, and `opened'` is open behind it. -/
def Scans (start : Nat) (opened opened' : List Opening) (cs : List Char) : Prop :=
  ∀ gs, cut (.within opened) (Glyph.number start cs ++ gs) =
    (cut (.within opened') gs).map (List.modifyHead (cs ++ ·))

section

variable {start : Nat} {opened opened' opened'' : List Opening} {cs ds : List Char}

theorem Scans.nil : Scans start opened opened [] := by
  intro gs
  rw [Glyph.number, List.nil_append]
  cases cut (.within opened) gs with
  | error f => rfl
  | ok pieces => cases pieces <;> rfl

theorem Scans.append (h : Scans start opened opened' cs)
    (h' : Scans (start + cs.length) opened' opened'' ds) :
    Scans start opened opened'' (cs ++ ds) := by
  intro gs
  rw [Glyph.number_append, List.append_assoc, h, h', map_modifyHead_modifyHead]

theorem cut_break (gs : List Glyph) (pos : Nat) :
    cut (.within []) (⟨'\n', pos⟩ :: gs) = (cut .fresh gs).map ([] :: ·) := by
  rw [cut, if_pos ⟨rfl, rfl⟩]

theorem Scans.of_step {c : Char} (hstep : Opening.step opened ⟨c, start⟩ = .ok opened')
    (h : c ≠ '\n' ∨ opened ≠ []) : Scans start opened opened' [c] := by
  intro gs
  have hgo : ¬(c = '\n' ∧ opened = []) := fun ⟨hc, ho⟩ => h.elim (· hc) (· ho)
  rw [Glyph.number, Glyph.number, List.singleton_append, cut, Scan.opened, if_neg hgo,
    Scan.isComment, if_neg Bool.false_ne_true, hstep]
  rfl

theorem Scans.char {c : Char} (hc : isBracket c = false) (h : c ≠ '\n' ∨ opened ≠ []) :
    Scans start opened opened [c] :=
  .of_step (Opening.step_plain _ (isBracket_eq_false hc).1 (isBracket_eq_false hc).2) h

theorem Scans.opener (b : Bracket) : Scans start opened (⟨b, start⟩ :: opened) [b.opener] :=
  .of_step (Opening.step_opener _ (Bracket.ofOpener?_eq_some.2 rfl)) (.inl (by cases b <;> decide))

theorem Scans.closer (o : Opening) : Scans start (o :: opened) opened [o.bracket.closer] := by
  have hstep := Opening.step_closer (g := ⟨o.bracket.closer, start⟩) (Bracket.ofOpener?_closer _)
    (Bracket.ofCloser?_eq_some.2 rfl) o opened
  rw [if_pos rfl] at hstep
  exact .of_step hstep (.inr (List.cons_ne_nil _ _))

theorem step_ne_ok {b : Bracket} {pos : Nat} (h : opened.head?.map Opening.bracket ≠ some b)
    (opened' : List Opening) : Opening.step opened ⟨b.closer, pos⟩ ≠ .ok opened' := by
  have hcloser : Bracket.ofCloser? b.closer = some b := Bracket.ofCloser?_eq_some.2 rfl
  intro hstep
  cases opened with
  | nil => cases (Opening.step_unmatched (Bracket.ofOpener?_closer b) hcloser).symm.trans hstep
  | cons o outer =>
    rw [Opening.step_closer (Bracket.ofOpener?_closer b) hcloser] at hstep
    split at hstep
    · next ho => exact h (congrArg some ho.symm)
    · cases hstep

/-- A text in brackets, given what the scan does inside. -/
theorem Scans.pair (b : Bracket) {inside : List Char}
    (h : ∀ start o outer, Scans start (o :: outer) (o :: outer) inside) :
    Scans start opened opened (b.opener :: (inside ++ [b.closer])) :=
  (Scans.opener b).append ((h _ ⟨b, start⟩ opened).append (Scans.closer _))

theorem Nested.scans (h : Nested cs) (start : Nat) (o : Opening) (outer : List Opening) :
    Scans start (o :: outer) (o :: outer) cs := by
  induction h generalizing start o outer with
  | nil => exact .nil
  | char hc h ih => exact (Scans.char hc (.inr (List.cons_ne_nil _ _))).append (ih _ o outer)
  | pair b hinside h ihinside ih =>
    rw [bracketed_append]
    exact (Scans.pair b ihinside).append (ih _ o outer)

theorem Unbroken.scans (h : Unbroken cs) (start : Nat) (opened : List Opening) :
    Scans start opened opened cs := by
  induction h generalizing start with
  | nil => exact .nil
  | char hc hbreak h ih => exact (Scans.char hc (.inl hbreak)).append (ih _)
  | pair b hinside h ih =>
    rw [bracketed_append]
    exact (Scans.pair b hinside.scans).append (ih _)

theorem LeavesOpen.scans (h : LeavesOpen start opened cs) : Scans start [] opened cs := by
  induction h with
  | unbroken h => exact h.scans start []
  | opener b h hinside ih =>
    exact ih.append ((Scans.opener b).append (hinside.scans _ _ _))

end

/-- Outside comments, the start of a line is a place like any other. -/
theorem cut_fresh {gs : List Glyph} (h : ¬StartsComment (Glyph.chars gs)) :
    cut .fresh gs = cut (.within []) gs := by
  have hcomment : Scan.fresh.isComment gs = false :=
    Bool.eq_false_iff.2 (mt (isComment_fresh gs).1 h)
  cases gs with
  | nil => rfl
  | cons g gs => rw [cut, cut, hcomment]; rfl

theorem cut_comment {cs : List Char} (hbreak : '\n' ∉ cs) (start : Nat) (gs : List Glyph) :
    cut .comment (Glyph.number start cs ++ gs) = cut .comment gs := by
  induction cs generalizing start with
  | nil => rfl
  | cons c cs ih =>
    obtain ⟨hc, hcs⟩ := not_or.1 (mt List.mem_cons.2 hbreak)
    rw [Glyph.number, List.cons_append, cut, if_neg fun h => hc h.1.symm]
    exact ih hcs (start + 1)

theorem cut_fresh_comment {cs : List Char} (h : StartsComment cs) (hbreak : '\n' ∉ cs)
    (start : Nat) (gs : List Glyph) :
    cut .fresh (Glyph.number start cs ++ gs) = cut .comment gs := by
  have hcomment : Scan.fresh.isComment (Glyph.number start cs ++ gs) = true := by
    rw [isComment_fresh, Glyph.chars_append, Glyph.chars_number]
    exact h.append _
  cases cs with
  | nil => cases h
  | cons c cs =>
    obtain ⟨hc, hcs⟩ := not_or.1 (mt List.mem_cons.2 hbreak)
    rw [Glyph.number, List.cons_append] at hcomment ⊢
    rw [cut, if_neg fun h => hc h.1.symm, if_pos hcomment, cut_comment hcs]

/-- What the scan keeps of a piece. -/
def kept (piece : List Char) : List Char := if StartsComment piece then [] else piece

theorem Piece.cut_end {piece : List Char} (h : Piece piece) (start : Nat) :
    cut .fresh (Glyph.number start piece) = .ok [kept piece] := by
  cases h with
  | comment h hbreak =>
    have hcut := cut_fresh_comment h hbreak start []
    rw [List.append_nil] at hcut
    rw [hcut, kept, if_pos h]
    rfl
  | line h hnested =>
    have hcut := hnested.scans start [] []
    rw [List.append_nil] at hcut
    rw [cut_fresh (by rwa [Glyph.chars_number]), hcut, kept, if_neg h]
    exact congrArg (fun cs => Except.ok [cs]) (List.append_nil piece)

theorem Piece.cut_break {piece : List Char} (h : Piece piece) (start pos : Nat)
    (gs : List Glyph) :
    cut .fresh (Glyph.number start piece ++ ⟨'\n', pos⟩ :: gs) =
      (cut .fresh gs).map (kept piece :: ·) := by
  cases h with
  | comment h hbreak =>
    rw [cut_fresh_comment h hbreak, kept, if_pos h, cut, if_pos ⟨rfl, rfl⟩]
  | line h hnested =>
    have hline : ¬StartsComment (Glyph.chars (Glyph.number start piece ++ ⟨'\n', pos⟩ :: gs)) := by
      rw [Glyph.chars_append, Glyph.chars_number]
      exact mt (startsComment_break piece (Glyph.chars gs)).1 h
    rw [cut_fresh hline, hnested.scans, Template.cut_break, kept, if_neg h]
    cases cut .fresh gs with
    | error f => rfl
    | ok pieces => exact congrArg (fun cs => Except.ok (cs :: pieces)) (List.append_nil piece)

theorem cut_pieces {pieces : List (List Char)} (hne : pieces ≠ [])
    (h : ∀ piece ∈ pieces, Piece piece) (start : Nat) :
    cut .fresh (Glyph.number start (['\n'].intercalate pieces)) = .ok (pieces.map kept) := by
  induction pieces generalizing start with
  | nil => exact absurd rfl hne
  | cons piece pieces ih =>
    have hpiece := h piece List.mem_cons_self
    cases pieces with
    | nil =>
      rw [List.intercalate_singleton, hpiece.cut_end]
      rfl
    | cons next pieces =>
      rw [List.intercalate_cons_cons, List.append_assoc, List.singleton_append,
        Glyph.number_append, Glyph.number, hpiece.cut_break,
        ih (List.cons_ne_nil _ _) fun p hp => h p (List.mem_cons_of_mem _ hp)]
      rfl

/-- A fault in the last line is a fault of the source. -/
theorem Reaches.cut_eq_error {start : Nat} {opened : List Opening} {cs : List Char}
    (h : Reaches start opened cs) {gs : List Glyph} {f : Fault}
    (hgs : ∀ line, StartsComment (line ++ Glyph.chars gs) ↔ StartsComment line)
    (hf : cut (.within opened) gs = .error f) :
    cut .fresh (Glyph.number start cs ++ gs) = .error f := by
  induction h with
  | @line start opened cs h hopened =>
    rw [cut_fresh, hopened.scans, hf]
    · rfl
    · rw [Glyph.chars_append, Glyph.chars_number]
      exact mt (hgs cs).1 h
  | piece hpiece h ih =>
    rw [Glyph.number_append, List.append_assoc, Glyph.number, List.cons_append,
      hpiece.cut_break, Nat.add_assoc, ih hf]
    rfl

theorem template?_kept (piece : List Char) :
    template? (kept piece) =
      if Text.trim Text.isBlank piece ≠ [] ∧ (Text.trim Text.isBlank piece).head? ≠ some '#' then
        some (String.ofList (Text.trim Text.isBlank piece))
      else none := by
  by_cases h : StartsComment piece
  · rw [kept, if_pos h, if_neg fun hne => hne.2 h.head?_trim]
    rfl
  · rw [kept, if_neg h, template?]
    cases Text.trim Text.isBlank piece with
    | nil => rfl
    | cons c cs => by_cases hc : c = '#' <;> simp [hc]

theorem filterMap_kept (pieces : List (List Char)) :
    (pieces.map kept).filterMap template? = templatesOf pieces := by
  induction pieces with
  | nil => rfl
  | cons piece pieces ih =>
    rw [List.map_cons, List.filterMap_cons, template?_kept, ih, templatesOf, templatesOf,
      List.map_cons, List.filter_cons]
    by_cases h : Text.trim Text.isBlank piece ≠ [] ∧
        (Text.trim Text.isBlank piece).head? ≠ some '#'
    · rw [if_pos h, if_pos (decide_eq_true h)]
      rfl
    · rw [if_neg h, if_neg (mt of_decide_eq_true h)]

/-! ### Sources -/

section

variable {source : String} {n : Nat} {pieces : List (List Char)}

theorem ConsistsOf.lines_eq (h : ConsistsOf source.toList pieces) :
    lines source = .ok (templatesOf pieces) := by
  obtain ⟨hne, hpieces, hsource⟩ := h
  rw [lines, hsource, cut_pieces hne hpieces, ← filterMap_kept]
  rfl

theorem Misfit.lines_eq (h : Misfit source.toList n) :
    ∃ f, lines source = .error f ∧ f.kind = .unbalanced ∧ f.position = n := by
  obtain ⟨front, opened, back, b, hsource, rfl, hfront, hb⟩ := h
  cases hstep : Opening.step opened ⟨b.closer, 0 + front.length⟩ with
  | ok opened' => exact absurd hstep (step_ne_ok hb opened')
  | error f =>
    obtain ⟨-, hpos, hkind⟩ := Opening.step_eq_error _ hstep
    have hbreak : b.closer ≠ '\n' := by cases b <;> decide
    refine ⟨f, ?_, hkind, hpos.trans (Nat.zero_add _)⟩
    rw [lines, hsource, Glyph.number_append, Glyph.number, hfront.cut_eq_error]
    · rfl
    · exact fun line => startsComment_closer line _ b
    · rw [cut, if_neg fun h => hbreak h.1, Scan.isComment, if_neg Bool.false_ne_true, Scan.opened,
        hstep]

theorem LeftOpen.lines_eq (h : LeftOpen source.toList n) :
    ∃ f, lines source = .error f ∧ f.kind = .unterminated ∧ f.position = n := by
  obtain ⟨o, outer, hsource, rfl⟩ := h
  refine ⟨⟨o.pos, .neverClosed o.bracket.opener⟩, ?_, rfl, rfl⟩
  have hnil (line : List Char) : StartsComment (line ++ Glyph.chars []) ↔ StartsComment line := by
    rw [Glyph.chars, List.map_nil, List.append_nil]
  have hcut := hsource.cut_eq_error hnil rfl
  rw [List.append_nil] at hcut
  rw [lines, hcut]
  rfl

end

/-- A text, counted from `start` on, stands up to a closing bracket that does not fit, or leaves a
bracket open, or consists of pieces. -/
def HasReading (start : Nat) (cs : List Char) : Prop :=
  (∃ front opened back, ∃ b : Bracket, cs = front ++ b.closer :: back ∧
    Reaches start opened front ∧ opened.head?.map Opening.bracket ≠ some b) ∨
  (∃ o outer, Reaches start (o :: outer) cs) ∨ ∃ pieces, ConsistsOf cs pieces

theorem HasReading.behind {start : Nat} {piece cs : List Char} (hpiece : Piece piece)
    (h : HasReading (start + (piece.length + 1)) cs) :
    HasReading start (piece ++ '\n' :: cs) := by
  obtain ⟨front, opened, back, b, rfl, hfront, hb⟩ | ⟨o, outer, h⟩ |
    ⟨pieces, hne, hpieces, rfl⟩ := h
  · exact .inl ⟨piece ++ '\n' :: front, opened, back, b, by simp, .piece hpiece hfront, hb⟩
  · exact .inr (.inl ⟨o, outer, .piece hpiece h⟩)
  · refine .inr (.inr ⟨piece :: pieces, List.cons_ne_nil _ _,
      List.forall_mem_cons.2 ⟨hpiece, hpieces⟩, ?_⟩)
    rw [List.intercalate_cons_of_ne_nil hne]
    simp

theorem consistsOf_singleton {piece : List Char} (h : Piece piece) : ConsistsOf piece [piece] :=
  ⟨List.cons_ne_nil _ _, List.forall_mem_singleton.2 h, List.intercalate_singleton.symm⟩

/-- Piece by piece, from the front. -/
theorem hasReading (start : Nat) (cs : List Char) : HasReading start cs := by
  induction hlength : cs.length using Nat.strong_induction_on generalizing start cs with
  | _ length ih =>
    subst hlength
    have hrest (piece rest : List Char) (hcs : cs = piece ++ '\n' :: rest) (hpiece : Piece piece) :
        HasReading start cs := by
      subst hcs
      refine .behind hpiece (ih rest.length ?_ _ rest rfl)
      rw [List.length_append, List.length_cons]
      omega
    by_cases hcomment : StartsComment cs
    · by_cases hbreak : '\n' ∈ cs
      · obtain ⟨piece, rest, hcs, hpiece⟩ := List.eq_append_cons_of_mem hbreak
        rw [hcs, startsComment_break] at hcomment
        exact hrest piece rest hcs (.comment hcomment hpiece)
      · exact .inr (.inr ⟨_, consistsOf_singleton (.comment hcomment hbreak)⟩)
    · obtain ⟨line, rest, hcs, hline⟩ | ⟨front, opened, back, b, rfl, hfront, hb⟩ | ⟨opened, h⟩ :=
        exists_stretch start cs
      · rw [hcs, startsComment_break] at hcomment
        exact hrest line rest hcs (.line hcomment hline)
      · rw [startsComment_closer] at hcomment
        exact .inl ⟨front, opened, back, b, rfl, .line hcomment hfront, hb⟩
      · cases h with
        | unbroken h => exact .inr (.inr ⟨_, consistsOf_singleton (.line hcomment h)⟩)
        | opener b h hinside =>
          exact .inr (.inl ⟨_, _, .line hcomment (.opener b h hinside)⟩)

/-- The three ways in which a source can be read, each with what comes of it. -/
theorem lines_cases (source : String) :
    (∃ f, Misfit source.toList f.position ∧ lines source = .error f ∧ f.kind = .unbalanced) ∨
    (∃ f, LeftOpen source.toList f.position ∧ lines source = .error f ∧ f.kind = .unterminated) ∨
    ∃ pieces, ConsistsOf source.toList pieces ∧ lines source = .ok (templatesOf pieces) := by
  obtain ⟨front, opened, back, b, hsource, hfront, hb⟩ | ⟨o, outer, h⟩ | ⟨pieces, h⟩ :=
    hasReading 0 source.toList
  · have h : Misfit source.toList front.length :=
      ⟨front, opened, back, b, hsource, rfl, hfront, hb⟩
    obtain ⟨f, hf, hkind, hpos⟩ := h.lines_eq
    exact .inl ⟨f, hpos ▸ h, hf, hkind⟩
  · have h : LeftOpen source.toList o.pos := ⟨o, outer, h, rfl⟩
    obtain ⟨f, hf, hkind, hpos⟩ := h.lines_eq
    exact .inr (.inl ⟨f, hpos ▸ h, hf, hkind⟩)
  · exact .inr (.inr ⟨pieces, h, h.lines_eq⟩)

/-- **A source is cut into the pieces it consists of.**  A first closing bracket that does not
match the innermost open one is an unbalanced fault at its place; otherwise a bracket that is open
at the end is an unterminated fault at the place of the innermost; otherwise the source consists
of pieces, and the templates in them are the lines.  Nothing else can happen. -/
theorem lines_exact (source : String) :
    (∀ n, (∃ f, lines source = .error f ∧ f.kind = .unbalanced ∧ f.position = n) ↔
      Misfit source.toList n) ∧
    (∀ n, (∃ f, lines source = .error f ∧ f.kind = .unterminated ∧ f.position = n) ↔
      LeftOpen source.toList n) ∧
    (∀ texts, lines source = .ok texts ↔
      ∃ pieces, ConsistsOf source.toList pieces ∧ texts = templatesOf pieces) ∧
    ((∃ n, Misfit source.toList n) ∨ (∃ n, LeftOpen source.toList n) ∨
      ∃ pieces, ConsistsOf source.toList pieces) := by
  refine ⟨fun n => ⟨?_, Misfit.lines_eq⟩, fun n => ⟨?_, LeftOpen.lines_eq⟩, fun texts => ⟨?_, ?_⟩,
    ?_⟩
  · rintro ⟨f, hf, hkind, rfl⟩
    obtain ⟨f', h, hf', -⟩ | ⟨f', -, hf', hkind'⟩ | ⟨pieces, -, hok⟩ := lines_cases source
    · cases hf.symm.trans hf'
      exact h
    · cases hf.symm.trans hf'
      cases hkind.symm.trans hkind'
    · cases hf.symm.trans hok
  · rintro ⟨f, hf, hkind, rfl⟩
    obtain ⟨f', -, hf', hkind'⟩ | ⟨f', h, hf', -⟩ | ⟨pieces, -, hok⟩ := lines_cases source
    · cases hf.symm.trans hf'
      cases hkind.symm.trans hkind'
    · cases hf.symm.trans hf'
      exact h
    · cases hf.symm.trans hok
  · intro htexts
    obtain ⟨f, -, hf, -⟩ | ⟨f, -, hf, -⟩ | ⟨pieces, h, hok⟩ := lines_cases source
    · cases htexts.symm.trans hf
    · cases htexts.symm.trans hf
    · exact ⟨pieces, h, Except.ok.inj (htexts.symm.trans hok)⟩
  · rintro ⟨pieces, h, rfl⟩
    exact h.lines_eq
  · obtain ⟨f, h, -⟩ | ⟨f, h, -⟩ | ⟨pieces, h, -⟩ := lines_cases source
    · exact .inl ⟨_, h⟩
    · exact .inr (.inl ⟨_, h⟩)
    · exact .inr (.inr ⟨pieces, h⟩)

/-- A line goes on over a break inside brackets, and a comment opens no brackets. -/
example : lines "\x7ba =\n b\x7d c\n\t# (no\n\n d" = .ok ["\x7ba =\n b\x7d c", "d"] := by
  with_unfolding_all rfl

end IntentGrammar.Template
