import IntentGrammar.Proofs.Template.Places
import IntentGrammar.Proofs.Template.Sources
import IntentGrammar.Proofs.Trimming
import Mathlib.Data.List.DropRight

/-!
# Sources one below the other

A source that can be read ends outside all brackets, so a source below it is read as if it stood
alone: its lines follow, and a fault in it is the same fault further down (`lines_below`).

* `lines_compositional` : **sources are read one after the other, and a line of a source is a source
  of that one line.**
* `lines_comment_iff` : **a line that starts with `#` when it is trimmed counts for nothing just
  when no more than spaces and tabs stand in front of the `#`, or its brackets are nested.**
-/

namespace IntentGrammar.Template

variable {cs : List Char} {pieces : List (List Char)} {upper source : String}
  {texts : List String}

/-! ### A source below another -/

theorem exists_pieces (h : lines source = .ok texts) :
    ∃ pieces, ConsistsOf source.toList pieces ∧ texts = templatesOf pieces := by
  obtain ⟨f, -, hf, -⟩ | ⟨f, -, hf, -⟩ | ⟨pieces, hpieces, hok⟩ := lines_cases source
  · cases h.symm.trans hf
  · cases h.symm.trans hf
  · exact ⟨pieces, hpieces, Except.ok.inj (h.symm.trans hok)⟩

/-- The scan is at the start of a line again behind a row of pieces and a line break. -/
theorem ConsistsOf.cut_break (h : ConsistsOf cs pieces) (start pos : Nat) (gs : List Glyph) :
    cut .fresh (Glyph.number start cs ++ ⟨'\n', pos⟩ :: gs) =
      (cut .fresh gs).map (pieces.map kept ++ ·) := by
  obtain ⟨hne, hpieces, rfl⟩ := h
  induction pieces generalizing start with
  | nil => exact absurd rfl hne
  | cons piece pieces ih =>
    have hpiece := hpieces piece List.mem_cons_self
    cases pieces with
    | nil =>
      rw [List.intercalate_singleton, hpiece.cut_break]
      rfl
    | cons next pieces =>
      rw [List.intercalate_cons_cons, List.append_assoc, List.singleton_append,
        Glyph.number_append, Glyph.number, List.append_assoc, List.cons_append, hpiece.cut_break,
        ih _ (List.cons_ne_nil _ _) fun p hp => hpieces p (List.mem_cons_of_mem _ hp)]
      cases cut .fresh gs <;> rfl

/-- **A source below one that can be read is read as if it stood alone.** -/
theorem lines_below (h : lines upper = .ok texts) (lower : String) :
    lines (upper ++ "\n" ++ lower) =
      ((lines lower).mapError (Fault.move (· + (upper.length + 1)))).map (texts ++ ·) := by
  obtain ⟨pieces, hpieces, rfl⟩ := exists_pieces h
  have htext : (upper ++ "\n" ++ lower).toList = upper.toList ++ '\n' :: lower.toList := by
    simp
  have hnumber : Glyph.number (0 + upper.toList.length + 1) lower.toList =
      (Glyph.number 0 lower.toList).map (Glyph.move (· + (upper.length + 1))) := by
    rw [← Glyph.number_add, String.length_toList, Nat.add_assoc]
  have hcut := cut_move (· + (upper.length + 1)) .fresh (Glyph.number 0 lower.toList)
  rw [Scan.move] at hcut
  rw [lines, htext, Glyph.number_append, Glyph.number, hpieces.cut_break, hnumber, hcut, lines]
  cases cut .fresh (Glyph.number 0 lower.toList) with
  | error f => rfl
  | ok pieces' =>
    show Except.ok ((pieces.map kept ++ pieces').filterMap template?) = _
    rw [List.filterMap_append, filterMap_kept]
    rfl

/-! ### Trimmed lines -/

namespace Unbroken

/-- What stands in front of a character that is no bracket. -/
theorem of_concat {c : Char} (hc : isBracket c = false) (h : Unbroken (cs ++ [c])) :
    Unbroken cs := by
  generalize hds : cs ++ [c] = ds at h
  induction h generalizing cs with
  | nil => simp at hds
  | @char d ds hd hbreak h ih =>
    cases cs with
    | nil => exact .nil
    | cons c' cs =>
      obtain ⟨rfl, rfl⟩ := List.cons.inj hds
      exact .char hd hbreak (ih rfl)
  | @pair inside ds b hinside h ih =>
    obtain rfl | ⟨ds, d, rfl⟩ := List.eq_nil_or_concat' ds
    · have hlast : c = b.closer := by
        rw [← List.cons_append] at hds
        exact List.singleton_inj.1 (List.append_inj' hds rfl).2
      rw [hlast] at hc
      cases b <;> cases hc
    · have hfront : cs ++ [c] = (b.opener :: (inside ++ b.closer :: ds)) ++ [d] := by
        rw [hds]
        simp
      obtain ⟨rfl, hcd⟩ := List.append_inj' hfront rfl
      exact .pair b hinside (ih (by rw [hcd]))

theorem dropWhile (h : Unbroken cs) : Unbroken (cs.dropWhile Text.isBlank) := by
  induction h with
  | nil => exact .nil
  | @char c cs hc hbreak h ih =>
    by_cases hblank : Text.isBlank c = true
    · rwa [List.dropWhile_cons_of_pos hblank]
    · rw [List.dropWhile_cons_of_neg hblank]
      exact .char hc hbreak h
  | pair b hinside h ih =>
    rw [List.dropWhile_cons_of_neg (by cases b <;> decide)]
    exact .pair b hinside h

theorem rdropWhile (h : Unbroken cs) : Unbroken (cs.rdropWhile Text.isBlank) := by
  induction cs using List.reverseRecOn with
  | nil => exact h
  | append_singleton cs c ih =>
    by_cases hblank : Text.isBlank c = true
    · rw [List.rdropWhile_concat_pos _ _ _ hblank]
      exact ih (h.of_concat (isBracket_of_isBlank hblank))
    · rwa [List.rdropWhile_concat_neg _ _ _ hblank]

theorem trim (h : Unbroken cs) : Unbroken (Text.trim Text.isBlank cs) :=
  h.dropWhile.rdropWhile

end Unbroken

/-- Trimmed, a piece with a template in it is a line. -/
theorem Piece.trim {piece : List Char} (h : Piece piece)
    (hhead : (Text.trim Text.isBlank piece).head? ≠ some '#') :
    Piece (Text.trim Text.isBlank piece) := by
  cases h with
  | comment h hbreak => exact absurd h.head?_trim hhead
  | line h hnested =>
    refine .line (fun hcomment => hhead ?_) hnested.trim
    rw [← Text.trim_trim]
    exact hcomment.head?_trim

/-- A line of a source is a source of that one line. -/
theorem lines_of_mem (h : lines source = .ok texts) {line : String} (hline : line ∈ texts) :
    lines line = .ok [line] := by
  obtain ⟨pieces, ⟨-, hpieces, -⟩, rfl⟩ := exists_pieces h
  obtain ⟨cs, hcs, rfl⟩ := List.mem_map.1 hline
  obtain ⟨hmem, hkeep⟩ := List.mem_filter.1 hcs
  obtain ⟨piece, hpiece, rfl⟩ := List.mem_map.1 hmem
  have hline := (hpieces piece hpiece).trim (of_decide_eq_true hkeep).2
  rw [← String.toList_ofList (l := Text.trim Text.isBlank piece)] at hline
  rw [(consistsOf_singleton hline).lines_eq, String.toList_ofList, templatesOf, List.map_singleton,
    Text.trim_trim, List.filter_singleton, hkeep]
  rfl

/-- Lines that are sources of themselves are read back from a source of them. -/
theorem lines_intercalate (h : ∀ line ∈ texts, lines line = .ok [line]) :
    lines ("\n".intercalate texts) = .ok texts := by
  induction texts with
  | nil => rfl
  | cons line texts ih =>
    obtain ⟨hline, htexts⟩ := List.forall_mem_cons.1 h
    cases texts with
    | nil => rwa [String.intercalate_singleton]
    | cons next texts =>
      rw [String.intercalate_cons_cons, lines_below hline, ih htexts]
      rfl

/-- **Sources are read one after the other.**  Below a source that can be read, the lines of another
source follow, or its fault is reported so much further down.  A line of a source is a source of
that one line, whatever line breaks it contains, so the lines joined by line breaks are read
back. -/
theorem lines_compositional (h : lines upper = .ok texts) :
    (∀ lower texts', lines lower = .ok texts' →
      lines (upper ++ "\n" ++ lower) = .ok (texts ++ texts')) ∧
    (∀ lower f, lines lower = .error f →
      lines (upper ++ "\n" ++ lower) = .error ⟨upper.length + 1 + f.position, f.cause⟩) ∧
    (∀ line ∈ texts, lines line = .ok [line]) ∧
    lines ("\n".intercalate texts) = .ok texts := by
  have hself : ∀ line ∈ texts, lines line = .ok [line] := fun line => lines_of_mem h
  refine ⟨fun lower texts' hlower => ?_, fun lower f hlower => ?_, hself, lines_intercalate hself⟩
  · rw [lines_below h, hlower]
    rfl
  · rw [lines_below h, hlower, Nat.add_comm (upper.length + 1)]
    rfl

/-- A source that ends in a comment, above one that can be read and above one that cannot: the
comment opens no bracket for what is below it. -/
theorem lines_below_comment :
    lines "open (a |\n b)\n# (" = .ok ["open (a |\n b)"] ∧
    lines ("open (a |\n b)\n# (" ++ "\n" ++ "show [x]") = .ok (["open (a |\n b)"] ++ ["show [x]"]) ∧
    lines ("open (a |\n b)\n# (" ++ "\n" ++ "b)") = .error ⟨17 + 1 + 1, .unmatched ')'⟩ ∧
    lines "open (a |\n b)" = .ok ["open (a |\n b)"] := by
  have h : lines "open (a |\n b)\n# (" = .ok ["open (a |\n b)"] := by with_unfolding_all rfl
  have hlower : lines "show [x]" = .ok ["show [x]"] := by with_unfolding_all rfl
  have hfault : lines "b)" = .error ⟨1, .unmatched ')'⟩ := by with_unfolding_all rfl
  obtain ⟨hbelow, hbelowFault, hself, -⟩ := lines_compositional h
  exact ⟨h, hbelow _ _ hlower, hbelowFault _ _ hfault, hself _ List.mem_cons_self⟩

/-! ### Comments -/

theorem Nested.unbroken (h : Nested cs) (hbreak : '\n' ∉ cs) : Unbroken cs := by
  induction h with
  | nil => exact .nil
  | char hc h ih =>
    obtain ⟨hne, hrest⟩ := not_or.1 (mt List.mem_cons.2 hbreak)
    exact .char hc (Ne.symm hne) (ih hrest)
  | pair b hinside h ihinside ih =>
    refine .pair b hinside (ih fun hmem => hbreak ?_)
    exact List.mem_cons_of_mem _ (List.mem_append_right _ (List.mem_cons_of_mem _ hmem))

/-- A piece of one line is a comment, or its brackets are nested. -/
theorem piece_iff (hbreak : '\n' ∉ cs) : Piece cs ↔ StartsComment cs ∨ Nested cs := by
  constructor
  · rintro (⟨h, -⟩ | ⟨-, h⟩)
    · exact .inl h
    · exact .inr h.nested
  · intro h
    by_cases hcomment : StartsComment cs
    · exact .comment hcomment hbreak
    · exact .line hcomment ((h.resolve_left hcomment).unbroken hbreak)

/-- An element that occurs at the end only. -/
theorem eq_of_concat_eq {α : Type} {x : α} {xs front back : List α} (hx : x ∉ xs)
    (h : xs ++ [x] = front ++ x :: back) : front = xs := by
  obtain ⟨as, rfl, has⟩ | ⟨as, rfl, has⟩ := List.append_eq_append_iff.1 h
  · obtain rfl : as = [] := by
      have hlength := congrArg List.length has
      rw [List.length_append, List.length_singleton, List.length_cons] at hlength
      exact List.length_eq_zero_iff.1 (by omega)
    exact List.append_nil xs
  · cases as with
    | nil => exact (List.append_nil front).symm
    | cons y as =>
      obtain rfl : x = y := (List.cons.inj has).1
      exact absurd (List.mem_append_right front List.mem_cons_self) hx

/-- A line is a piece of the source that it ends with a line break. -/
theorem ConsistsOf.piece_of_concat (hbreak : '\n' ∉ cs) (h : ConsistsOf (cs ++ ['\n']) pieces) :
    Piece cs := by
  obtain ⟨hne, hpieces, hcs⟩ := h
  cases pieces with
  | nil => exact absurd rfl hne
  | cons piece pieces =>
    have hpiece := hpieces piece List.mem_cons_self
    cases pieces with
    | nil =>
      rw [List.intercalate_singleton] at hcs
      subst hcs
      cases hpiece with
      | comment h hno => exact absurd (List.mem_append_right _ List.mem_cons_self) hno
      | line h hnested => exact (piece_iff hbreak).2 (.inr (hnested.of_concat rfl).nested)
    | cons next pieces =>
      rw [List.intercalate_cons_cons, List.append_assoc, List.singleton_append] at hcs
      exact eq_of_concat_eq hbreak hcs ▸ hpiece

/-- A piece with a comment in it has no template. -/
theorem Piece.lines_eq_nil (h : Piece source.toList)
    (hhash : (Text.trim Text.isBlank source.toList).head? = some '#') : lines source = .ok [] := by
  rw [(consistsOf_singleton h).lines_eq, ← filterMap_kept, List.map_singleton, List.filterMap_cons,
    template?_kept, if_neg fun hkeep => hkeep.2 hhash]
  rfl

/-- **When a commented line counts for nothing.**  A line that starts with `#` when it is trimmed
can be put between any two sources without changing the templates just when the scan sees a comment
in it, that is no more than spaces and tabs stand in front of the `#`, or when its brackets are
nested. -/
theorem lines_comment_iff {comment : String} (hbreak : '\n' ∉ comment.toList)
    (hhash : (Text.trim Text.isBlank comment.toList).head? = some '#') :
    (∀ upper lower above texts, lines upper = .ok above →
      lines (upper ++ "\n" ++ lower) = .ok texts →
        lines (upper ++ "\n" ++ comment ++ "\n" ++ lower) = .ok texts) ↔
      StartsComment comment.toList ∨ Nested comment.toList := by
  rw [← piece_iff hbreak]
  constructor
  · intro hall
    have hempty := hall "" "" [] [] rfl rfl
    have htext : "" ++ "\n" ++ comment ++ "\n" ++ "" = "" ++ "\n" ++ (comment ++ "\n") := by
      simp only [String.append_assoc, String.append_empty]
    rw [htext, lines_below rfl] at hempty
    cases hlines : lines (comment ++ "\n") with
    | error f =>
      rw [hlines] at hempty
      cases hempty
    | ok texts =>
      obtain ⟨pieces, hpieces, -⟩ := exists_pieces hlines
      rw [String.toList_append] at hpieces
      exact hpieces.piece_of_concat hbreak
  · intro hpiece upper lower above texts habove htexts
    have htext : upper ++ "\n" ++ comment ++ "\n" ++ lower =
        upper ++ "\n" ++ (comment ++ "\n" ++ lower) := by
      simp only [String.append_assoc]
    rw [lines_below habove] at htexts
    rw [htext, lines_below habove, lines_below (hpiece.lines_eq_nil hhash)]
    cases hlower : lines lower with
    | error f =>
      rw [hlower] at htexts
      cases htexts
    | ok below =>
      rw [hlower] at htexts
      exact htexts

/-- Behind a space a comment may hold any brackets, behind a form feed nested ones. -/
theorem lines_commented :
    lines ("open" ++ "\n" ++ " # see (notes" ++ "\n" ++ "show") = .ok ["open", "show"] ∧
    lines ("open" ++ "\n" ++ "\x0c# (x)" ++ "\n" ++ "show") = .ok ["open", "show"] := by
  have habove : lines "open" = .ok ["open"] := by with_unfolding_all rfl
  have htexts : lines ("open" ++ "\n" ++ "show") = .ok ["open", "show"] := by with_unfolding_all rfl
  have hnested : Nested "\x0c# (x)".toList :=
    .char rfl (.char rfl (.char rfl (@Nested.pair ['x'] [] .round (.char rfl .nil) .nil)))
  exact ⟨(lines_comment_iff (by decide) (by decide)).2 (.inl (by decide)) _ _ _ _ habove htexts,
    (lines_comment_iff (by decide) (by decide)).2 (.inr hnested) _ _ _ _ habove htexts⟩

/-- **A bracket counts in a line that is dropped as a comment**, where the `#` is behind a blank
other than a space or a tab. -/
theorem lines_hidden_comment :
    '\n' ∉ "\x0c# see (notes".toList ∧
    (Text.trim Text.isBlank "\x0c# see (notes".toList).head? = some '#' ∧
    lines "open" = .ok ["open"] ∧ lines ("open" ++ "\n" ++ "show") = .ok ["open", "show"] ∧
    lines ("open" ++ "\n" ++ "\x0c# see (notes" ++ "\n" ++ "show") =
      .error ⟨12, .neverClosed '('⟩ := by
  refine ⟨by decide, by decide, ?_, ?_, ?_⟩ <;> with_unfolding_all rfl

end IntentGrammar.Template
