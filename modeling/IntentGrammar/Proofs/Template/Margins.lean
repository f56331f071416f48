import IntentGrammar.Proofs.Trimming
import IntentGrammar.Template.Assignment

/-!
# Margins of values

A value may go on over further lines, which are written with a margin.  What these lines share of
it is no part of the value; what one of them has more than another is.

`commonMargin` is the longest margin of all lines (`prefix_commonMargin_iff`).  So a margin that is
put in front of all lines is in front of the one that they shared (`commonMargin_map_append`), and
goes with it.

* `dedent_margin` : **a value does not depend on the margin that its lines share**, and without one
  it is kept as it is written.
-/

namespace IntentGrammar.Template

/-! ### Margins of lines -/

/-- A run of spaces and tabs that all lines start with. -/
def IsMarginOf (m : List Char) (lines : List (List Char)) : Prop :=
  (∀ c ∈ m, isMargin c = true) ∧ ∀ l ∈ lines, m <+: l

variable {m : List Char} {lines : List (List Char)}

theorem prefix_takeWhile_iff {α : Type} {p : α → Bool} {xs ys : List α} :
    xs <+: ys.takeWhile p ↔ (∀ x ∈ xs, p x = true) ∧ xs <+: ys := by
  constructor
  · intro h
    exact ⟨fun x hx => List.mem_takeWhile_imp (h.subset hx), h.trans (List.takeWhile_prefix p)⟩
  · rintro ⟨hall, rest, rfl⟩
    rw [List.takeWhile_append_of_pos hall]
    exact List.prefix_append xs _

theorem prefix_sharedMargin_iff {a b : List Char} :
    m <+: sharedMargin a b ↔ m <+: a ∧ m <+: b := by
  induction m generalizing a b with
  | nil => simp
  | cons c m ih =>
    cases a with
    | nil => simp [sharedMargin]
    | cons d a =>
      cases b with
      | nil => simp [sharedMargin]
      | cons e b =>
        by_cases hde : d = e
        · subst hde
          rw [sharedMargin, if_pos rfl, List.cons_prefix_cons, List.cons_prefix_cons,
            List.cons_prefix_cons, ih, and_and_left]
        · rw [sharedMargin, if_neg hde, List.cons_prefix_cons, List.cons_prefix_cons]
          constructor
          · simp
          · rintro ⟨⟨rfl, -⟩, rfl, -⟩
            exact absurd rfl hde

theorem prefix_foldl_sharedMargin_iff {a : List Char} {margins : List (List Char)} :
    m <+: margins.foldl sharedMargin a ↔ m <+: a ∧ ∀ b ∈ margins, m <+: b := by
  induction margins generalizing a with
  | nil => simp
  | cons b margins ih =>
    rw [List.foldl_cons, ih, prefix_sharedMargin_iff, and_assoc, List.forall_mem_cons]

/-- A line that is more than a margin. -/
def HasText (l : List Char) : Prop := ∃ c ∈ l, isMargin c = false

theorem HasText.append {l : List Char} (h : HasText l) (m : List Char) : HasText (m ++ l) := by
  obtain ⟨c, hc, hmargin⟩ := h
  exact ⟨c, List.mem_append_right m hc, hmargin⟩

/-- **The common margin is the longest one.** -/
theorem prefix_commonMargin_iff (hne : lines ≠ []) (htext : ∀ l ∈ lines, HasText l) :
    m <+: commonMargin lines ↔ IsMarginOf m lines := by
  obtain ⟨l, lines, rfl⟩ := List.exists_cons_of_ne_nil hne
  have hcount : ∀ l' ∈ l :: lines, l'.any (!isMargin ·) = true := by
    intro l' hl'
    simpa [HasText] using htext l' hl'
  rw [commonMargin, List.filter_eq_self.2 hcount, List.map_cons, prefix_foldl_sharedMargin_iff,
    List.forall_mem_map, prefix_takeWhile_iff, IsMarginOf, List.forall_mem_cons]
  simp only [prefix_takeWhile_iff]
  constructor
  · rintro ⟨⟨hm, hl⟩, hlines⟩
    exact ⟨hm, hl, fun l' hl' => (hlines l' hl').2⟩
  · rintro ⟨hm, hl, hlines⟩
    exact ⟨⟨hm, hl⟩, fun l' hl' => ⟨hm, hlines l' hl'⟩⟩

theorem isMarginOf_map_append (hm : ∀ c ∈ m, isMargin c = true) {k : List Char} :
    IsMarginOf (m ++ k) (lines.map (m ++ ·)) ↔ IsMarginOf k lines := by
  simp only [IsMarginOf, List.forall_mem_append, List.forall_mem_map, List.prefix_append_right_inj]
  exact and_congr_left fun _ => and_iff_right hm

/-- A margin in front of all lines is in front of the margin that they share. -/
theorem commonMargin_map_append (hne : lines ≠ []) (htext : ∀ l ∈ lines, HasText l)
    (hm : ∀ c ∈ m, isMargin c = true) :
    commonMargin (lines.map (m ++ ·)) = m ++ commonMargin lines := by
  have hold {k : List Char} := prefix_commonMargin_iff (m := k) hne htext
  have hnew {k : List Char} := prefix_commonMargin_iff (m := k) (mt List.map_eq_nil_iff.1 hne)
    (List.forall_mem_map.2 fun l hl => (htext l hl).append m)
  -- what the new lines share starts with `m`, and the rest of it is a margin of the old ones
  have hle : m ++ commonMargin lines <+: commonMargin (lines.map (m ++ ·)) :=
    hnew.2 ((isMarginOf_map_append hm).2 (hold.1 List.prefix_rfl))
  obtain ⟨k, hk⟩ := (List.prefix_append m (commonMargin lines)).trans hle
  have hrest : k <+: commonMargin lines :=
    hold.2 ((isMarginOf_map_append hm).1 (hnew.1 (hk ▸ List.prefix_rfl)))
  rw [← hk] at hle ⊢
  rw [hrest.eq_of_length_le ((List.prefix_append_right_inj m).1 hle).length_le]

/-- Lines with text lose the common margin and nothing else. -/
theorem removeMargin_eq (htext : ∀ l ∈ lines, HasText l) :
    removeMargin lines = lines.map (·.drop (commonMargin lines).length) := by
  refine List.map_congr_left fun l hl => if_neg ?_
  obtain ⟨c, hc, hmargin⟩ := htext l hl
  rw [List.all_eq_true]
  exact fun hall => Bool.false_ne_true (hmargin.symm.trans (hall c hc))

/-- A margin in front of all lines makes no difference to what is left of them. -/
theorem removeMargin_map_append (hne : lines ≠ []) (htext : ∀ l ∈ lines, HasText l)
    (hm : ∀ c ∈ m, isMargin c = true) :
    removeMargin (lines.map (m ++ ·)) = removeMargin lines := by
  have htext' := List.forall_mem_map.2 fun l hl => (htext l hl).append m
  rw [removeMargin_eq htext, removeMargin_eq htext', commonMargin_map_append hne htext hm,
    List.map_map, List.length_append]
  exact List.map_congr_left fun l _ => List.drop_length_add_append _

/-- Lines that share no margin are kept as they are. -/
theorem removeMargin_eq_self (hne : lines ≠ []) (htext : ∀ l ∈ lines, HasText l)
    (hnone : ∀ k, IsMarginOf k lines → k = []) : removeMargin lines = lines := by
  have hmargin := hnone _ ((prefix_commonMargin_iff hne htext).1 List.prefix_rfl)
  rw [removeMargin_eq htext, hmargin]
  exact List.map_id lines

/-! ### Values of several lines -/

/-- A value as it is written over several lines, with no blanks around it: a first line and further
ones, none of which is blank. -/
structure IsLaidOut (first : List Char) (lines : List (List Char)) : Prop where
  first_ne : first ≠ []
  start : ∀ c ∈ first.head?, Text.isBlank c = false
  lines_ne : lines ≠ []
  text : ∀ l ∈ lines, ∃ c ∈ l, Text.isBlank c = false
  stop : ∀ l ∈ lines.getLast?, ∀ c ∈ l.getLast?, Text.isBlank c = false
  unbroken : ∀ l ∈ first :: lines, '\n' ∉ l

/-- Lines, one below the other. -/
def stacked (lines : List (List Char)) : List Char := ['\n'].intercalate lines

theorem head?_stacked {first : List Char} (hne : first ≠ []) :
    (stacked (first :: lines)).head? = first.head? := by
  obtain ⟨c, cs, rfl⟩ := List.exists_cons_of_ne_nil hne
  cases lines with
  | nil => rw [stacked, List.intercalate_singleton]
  | cons l lines => rw [stacked, List.intercalate_cons_cons]; rfl

theorem getLast?_stacked {l : List Char} {c : Char} (hl : lines.getLast? = some l)
    (hc : l.getLast? = some c) : (stacked lines).getLast? = some c := by
  induction lines with
  | nil => cases hl
  | cons a lines ih =>
    cases lines with
    | nil =>
      obtain rfl : a = l := Option.some.inj hl
      rwa [stacked, List.intercalate_singleton]
    | cons b lines =>
      rw [List.getLast?_cons_cons] at hl
      rw [stacked, List.intercalate_cons_cons, List.getLast?_append]
      exact congrArg (Option.or · _) (ih hl)

namespace IsLaidOut

variable {first : List Char}

theorem hasText (h : IsLaidOut first lines) : ∀ l ∈ lines, HasText l := by
  intro l hl
  obtain ⟨c, hc, hblank⟩ := h.text l hl
  refine ⟨c, hc, Bool.eq_false_iff.2 fun hmargin => ?_⟩
  exact Bool.false_ne_true (hblank.symm.trans (isBlank_of_isMargin hmargin))

theorem exists_last (h : IsLaidOut first lines) {l : List Char} (hl : lines.getLast? = some l) :
    ∃ c, l.getLast? = some c := by
  obtain ⟨c, hc, -⟩ := h.text l (List.mem_of_getLast? hl)
  exact Option.isSome_iff_exists.1 (List.getLast?_isSome.2 (List.ne_nil_of_mem hc))

/-- Behind a margin the lines are laid out as well. -/
theorem indent (h : IsLaidOut first lines) (hm : ∀ c ∈ m, isMargin c = true) :
    IsLaidOut first (lines.map (m ++ ·)) where
  first_ne := h.first_ne
  start := h.start
  lines_ne := mt List.map_eq_nil_iff.1 h.lines_ne
  text := List.forall_mem_map.2 fun l hl => by
    obtain ⟨c, hc, hblank⟩ := h.text l hl
    exact ⟨c, List.mem_append_right m hc, hblank⟩
  stop l hl c hc := by
    rw [List.getLast?_map] at hl
    obtain ⟨l, hlast, rfl⟩ := Option.map_eq_some_iff.1 hl
    obtain ⟨d, hd⟩ := h.exists_last hlast
    rw [List.getLast?_append, hd] at hc
    exact h.stop l hlast c (hd.trans hc)
  unbroken := by
    obtain ⟨hfirst, hlines⟩ := List.forall_mem_cons.1 h.unbroken
    refine List.forall_mem_cons.2 ⟨hfirst, List.forall_mem_map.2 fun l hl hbreak => ?_⟩
    rcases List.mem_append.1 hbreak with hbreak | hbreak
    · exact absurd (hm _ hbreak) (by decide)
    · exact hlines l hl hbreak

/-- Nothing is trimmed from a value that is laid out. -/
theorem trim_stacked (h : IsLaidOut first lines) :
    Text.trim Text.isBlank (stacked (first :: lines)) = stacked (first :: lines) := by
  obtain ⟨l, hl⟩ := Option.isSome_iff_exists.1 (List.getLast?_isSome.2 h.lines_ne)
  obtain ⟨c, hc⟩ := h.exists_last hl
  have hlast : (stacked (first :: lines)).getLast? = some c := by
    refine getLast?_stacked (l := l) ?_ hc
    rw [List.getLast?_cons, hl]
    rfl
  refine Text.trim_eq_self ?_ ?_
  · rw [head?_stacked h.first_ne]
    exact h.start
  · rw [hlast, ← hc]
    exact h.stop l hl

/-- The first line is kept, and the others lose the margin that they share. -/
theorem dedent_stacked (h : IsLaidOut first lines) :
    dedent (stacked (first :: lines)) = stacked (first :: removeMargin lines) := by
  have hsplit : (stacked (first :: lines)).splitOnP (· == '\n') = first :: lines :=
    List.splitOn_intercalate '\n' h.unbroken (List.cons_ne_nil _ _)
  rw [dedent, h.trim_stacked, hsplit]
  rfl

end IsLaidOut

/-- **A value does not depend on the margin that its lines share.**  Further lines may all stand
behind one more run of spaces and tabs; and where no such run is in front of all of them, the value
is kept as it is written. -/
theorem dedent_margin {first : List Char} (h : IsLaidOut first lines)
    (hm : ∀ c ∈ m, isMargin c = true) :
    dedent (stacked (first :: lines.map (m ++ ·))) = dedent (stacked (first :: lines)) ∧
      ((∀ k, IsMarginOf k lines → k = []) →
        dedent (stacked (first :: lines.map (m ++ ·))) = stacked (first :: lines) ∧
        dedent (stacked (first :: lines)) = stacked (first :: lines)) := by
  have hsame : dedent (stacked (first :: lines.map (m ++ ·))) =
      dedent (stacked (first :: lines)) := by
    rw [h.dedent_stacked, (h.indent hm).dedent_stacked,
      removeMargin_map_append h.lines_ne h.hasText hm]
  refine ⟨hsame, fun hnone => ?_⟩
  have hkept : dedent (stacked (first :: lines)) = stacked (first :: lines) := by
    rw [h.dedent_stacked, removeMargin_eq_self h.lines_ne h.hasText hnone]
  exact ⟨hsame.trans hkept, hkept⟩

/-- A verse of three lines, the second of which stands further in than the third. -/
theorem dedent_verse :
    dedent (stacked ["once".toList, "\t   upon".toList, "\t a time".toList]) =
      stacked ["once".toList, "  upon".toList, "a time".toList] := by
  have h : IsLaidOut "once".toList ["  upon".toList, "a time".toList] := {
    first_ne := by decide
    start := by rintro c ⟨⟩; decide
    lines_ne := by decide
    text := List.forall_mem_cons.2 ⟨⟨'u', by decide, by decide⟩,
      List.forall_mem_singleton.2 ⟨'a', by decide, by decide⟩⟩
    stop := by rintro l ⟨⟩ c ⟨⟩; decide
    unbroken := by decide }
  refine ((dedent_margin h (m := "\t ".toList) (List.all_eq_true.1 (by decide))).2 ?_).1
  rintro (_ | ⟨c, k⟩) ⟨hmargin, hstart⟩
  · rfl
  · obtain ⟨rfl, -⟩ := List.cons_prefix_cons.1 (hstart "a time".toList (by decide))
    exact absurd (hmargin 'a' List.mem_cons_self) (by decide)

end IntentGrammar.Template
