import IntentGrammar.Text.Blank
import Mathlib.Data.List.TakeDrop
import Mathlib.Data.List.TakeWhile

/-!
# What trimming and cutting leave

`Text.trim` and `Text.words` rest on a class of elements.  Here is what is left by them: a trimmed
list has none of the class at its ends, and lists like that are the ones that trimming does not
change (`trim_eq_self`); no word holds an element of the class (`of_mem_words`).
-/

namespace IntentGrammar.Text

variable {α : Type} {p : α → Bool}

/-! ### Trimming -/

theorem mem_of_mem_trim {xs : List α} {x : α} (hx : x ∈ trim p xs) : x ∈ xs := by
  have hdrop := (List.dropWhile_sublist p).subset (List.mem_reverse.1 hx)
  exact (List.dropWhile_sublist p).subset (List.mem_reverse.1 hdrop)

theorem trim_prefix (p : α → Bool) (xs : List α) : trim p xs <+: xs.dropWhile p := by
  have hrest := List.reverse_prefix.2 (List.dropWhile_suffix (l := (xs.dropWhile p).reverse) p)
  rwa [List.reverse_reverse] at hrest

/-- What is trimmed from a text is in front of the rest and behind it. -/
theorem exists_append_trim (p : α → Bool) (xs : List α) :
    ∃ front back, xs = front ++ (trim p xs ++ back) := by
  obtain ⟨front, hfront⟩ : xs.dropWhile p <:+ xs := List.dropWhile_suffix p
  obtain ⟨back, hback⟩ := trim_prefix p xs
  exact ⟨front, back, by rw [hback, hfront]⟩

theorem trim_ne_nil {xs : List α} (h : ∃ x ∈ xs, p x = false) : trim p xs ≠ [] := by
  obtain ⟨x, hx, hpx⟩ := h
  have hmem : x ∈ xs.dropWhile p := by
    rcases List.mem_append.1 ((List.takeWhile_append_dropWhile (p := p) (l := xs)).symm ▸ hx) with
      hx | hx
    · exact absurd (List.mem_takeWhile_imp hx) (by simp [hpx])
    · exact hx
  intro hnil
  have hall := List.dropWhile_eq_nil_iff.1 (List.reverse_eq_nil_iff.1 hnil)
  exact absurd (hall x (List.mem_reverse.2 hmem)) (by simp [hpx])

theorem trim_append_of_forall {ys : List α} (h : ∀ y ∈ ys, p y = true) (xs : List α) :
    trim p (xs ++ ys) = trim p xs := by
  rw [trim, trim, List.dropWhile_append]
  split
  · next hxs => rw [List.isEmpty_iff.1 hxs, List.dropWhile_eq_nil_iff.2 h]
  · rw [List.reverse_append, List.dropWhile_append_of_pos fun y hy => h y (List.mem_reverse.1 hy)]

theorem trim_of_forall_append {xs : List α} (h : ∀ x ∈ xs, p x = true) (ys : List α) :
    trim p (xs ++ ys) = trim p ys := by
  rw [trim, List.dropWhile_append_of_pos h, trim]

/-- Nothing is trimmed from a list that has none of the class at its ends. -/
theorem trim_eq_self {xs : List α} (hhead : ∀ x ∈ xs.head?, p x = false)
    (hlast : ∀ x ∈ xs.getLast?, p x = false) : trim p xs = xs := by
  have hdrop (ys : List α) (h : ∀ y ∈ ys.head?, p y = false) : ys.dropWhile p = ys := by
    cases ys with
    | nil => rfl
    | cons y ys => exact List.dropWhile_cons_of_neg (by simp [h y rfl])
  rw [trim, hdrop xs hhead, hdrop xs.reverse (List.head?_reverse ▸ hlast), List.reverse_reverse]

theorem trim_trim (p : α → Bool) (xs : List α) : trim p (trim p xs) = trim p xs := by
  have hfront (ys : List α) (y : α) (hy : y ∈ (ys.dropWhile p).head?) : p y = false := by
    have hhead := List.head?_dropWhile_not p ys
    rwa [hy] at hhead
  refine trim_eq_self (fun x hx => hfront xs x ?_) (fun x hx => ?_)
  · obtain ⟨back, hback⟩ := trim_prefix p xs
    rw [← hback, List.head?_append, hx]
    rfl
  · rw [trim, List.getLast?_reverse] at hx
    exact hfront _ x hx

/-! ### Cutting -/

/-- No piece of a text holds what the text was split at. -/
theorem forall_of_mem_splitOnP {xs piece : List α} (h : piece ∈ xs.splitOnP p) :
    ∀ x ∈ piece, p x = false := by
  induction xs generalizing piece with
  | nil =>
    obtain rfl := List.mem_singleton.1 h
    exact fun x hx => absurd hx List.not_mem_nil
  | cons x xs ih =>
    rw [List.splitOnP_cons_eq_if_modifyHead] at h
    split at h
    · rcases List.mem_cons.1 h with rfl | h
      · exact fun x hx => absurd hx List.not_mem_nil
      · exact ih h
    · next hx =>
      obtain ⟨first, more, hsplit⟩ := List.exists_cons_of_ne_nil (List.splitOnP_ne_nil p xs)
      rw [hsplit] at h ih
      rcases List.mem_cons.1 h with rfl | h
      · exact List.forall_mem_cons.2 ⟨Bool.eq_false_iff.2 hx, ih List.mem_cons_self⟩
      · exact ih (List.mem_cons_of_mem _ h)

/-- A word is not empty and holds no separator. -/
theorem of_mem_words {xs run : List α} (h : run ∈ words p xs) :
    run ≠ [] ∧ ∀ x ∈ run, p x = false := by
  obtain ⟨hpiece, hne⟩ := List.mem_filter.1 h
  exact ⟨by simpa using hne, forall_of_mem_splitOnP hpiece⟩

end IntentGrammar.Text
