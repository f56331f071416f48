/-!
# Blanks, trimming and words

Which characters count as blank, and the two operations on lists that rest on such a class:
`trim` removes a class of elements from both ends, `words` cuts a list into its maximal runs
outside the class.  Both are generic, since templates are read as numbered characters and
utterances as plain ones.

The main statement is `words_append_sep`: a separator between two lists separates their words.
-/

namespace IntentGrammar.Text

/-- The characters that separate words: ASCII controls used as spacing (with the four
information separators), the plain space, and the spacing characters beyond ASCII.  The
zero-width space and the byte order mark are not blank. -/
def isBlank (c : Char) : Bool :=
  let n := c.toNat
  (9 ≤ n && n ≤ 13) || (28 ≤ n && n ≤ 32) || n == 0x85 || n == 0xA0 || n == 0x1680 ||
    (0x2000 ≤ n && n ≤ 0x200A) || n == 0x2028 || n == 0x2029 || n == 0x202F || n == 0x205F ||
    n == 0x3000

section

variable {α : Type} (p : α → Bool)

/-- Remove the elements of the class `p` from both ends. -/
def trim (xs : List α) : List α :=
  ((xs.dropWhile p).reverse.dropWhile p).reverse

/-- The maximal runs of elements outside the class `p`, in order. -/
def words (xs : List α) : List (List α) :=
  (xs.splitOnP p).filter (!·.isEmpty)

@[simp] theorem words_nil : words p [] = [] := by simp [words]

theorem words_append_sep {s : α} (hs : p s = true) (xs ys : List α) :
    words p (xs ++ s :: ys) = words p xs ++ words p ys := by
  simp [words, List.splitOnP_append_cons xs ys hs]

theorem words_cons_sep {s : α} (hs : p s = true) (ys : List α) :
    words p (s :: ys) = words p ys := by
  simpa using words_append_sep p hs [] ys

theorem words_seps_append {seps : List α} (h : ∀ s ∈ seps, p s = true) (ys : List α) :
    words p (seps ++ ys) = words p ys := by
  induction seps with
  | nil => rfl
  | cons s seps ih =>
    obtain ⟨hs, hseps⟩ := List.forall_mem_cons.1 h
    rw [List.cons_append, words_cons_sep p hs, ih hseps]

/-- A run of separators separates no less than one of them. -/
theorem words_append_seps {seps : List α} (hne : seps ≠ []) (h : ∀ s ∈ seps, p s = true)
    (xs ys : List α) : words p (xs ++ (seps ++ ys)) = words p xs ++ words p ys := by
  obtain ⟨s, seps, rfl⟩ := List.exists_cons_of_ne_nil hne
  obtain ⟨hs, hseps⟩ := List.forall_mem_cons.1 h
  rw [List.cons_append, words_append_sep p hs, words_seps_append p hseps]

theorem words_eq_singleton {p : α → Bool} {run : List α} (hne : run ≠ [])
    (hrun : ∀ a ∈ run, p a = false) : words p run = [run] := by
  rw [words, List.splitOnP_eq_singleton hrun]
  cases run with
  | nil => exact absurd rfl hne
  | cons a run => rfl

end

end IntentGrammar.Text
