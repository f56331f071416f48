import IntentGrammar.Token
import Mathlib.Data.List.Basic

/-!
# Texts that differ in case

Case folding and the cutting of a text into words go well together.  The characters that separate
words, and the punctuation around them, fold to themselves, and no other character folds to
something that contains one of them (`Text.eq_of_mem_foldChar`).  So it makes no difference whether
a text is folded first and then cut into words, or the other way round.

`Text.Keeps` is what is needed of a function from characters to texts for this: it keeps a class of
characters.

* `Token.folded_tokenize` : **the words of a text, as they are compared, are those of its
  folding.**
-/

namespace IntentGrammar

namespace Text

/-! ### Cutting and replacing -/

variable {α β : Type} {f : α → List β} {p : α → Bool} {q : β → Bool}

/-- Elements of the class `p` are replaced by one element of the class `q`, all others by elements
outside of it, at least one of them. -/
structure Keeps (f : α → List β) (p : α → Bool) (q : β → Bool) : Prop where
  of_pos : ∀ {a}, p a = true → ∃ b, f a = [b] ∧ q b = true
  of_neg : ∀ {a}, p a = false → f a ≠ [] ∧ ∀ b ∈ f a, q b = false

/-- A stretch outside the class belongs to the first piece. -/
theorem splitOnP_append_of_forall {xs : List β} (h : ∀ b ∈ xs, q b = false) (ys : List β) :
    (xs ++ ys).splitOnP q = (ys.splitOnP q).modifyHead (xs ++ ·) := by
  induction xs with
  | nil =>
    rw [List.nil_append]
    cases ys.splitOnP q <;> rfl
  | cons b xs ih =>
    rw [List.cons_append, List.splitOnP_cons_eq_if_modifyHead, h b List.mem_cons_self,
      ih fun c hc => h c (List.mem_cons_of_mem _ hc)]
    cases ys.splitOnP q <;> rfl

namespace Keeps

theorem splitOnP_flatMap (h : Keeps f p q) (xs : List α) :
    (xs.flatMap f).splitOnP q = (xs.splitOnP p).map (List.flatMap f) := by
  induction xs with
  | nil => rfl
  | cons a xs ih =>
    rw [List.flatMap_cons, List.splitOnP_cons_eq_if_modifyHead]
    by_cases ha : p a = true
    · obtain ⟨b, hb, hq⟩ := h.of_pos ha
      rw [hb, List.singleton_append, List.splitOnP_cons_eq_if_modifyHead, ih]
      simp [ha, hq]
    · rw [splitOnP_append_of_forall (h.of_neg (by simpa using ha)).2, ih]
      cases xs.splitOnP p <;> simp [ha]

theorem flatMap_eq_nil (h : Keeps f p q) {xs : List α} : xs.flatMap f = [] ↔ xs = [] := by
  cases xs with
  | nil => simp
  | cons a xs =>
    have ha : f a ≠ [] := by
      cases hp : p a with
      | true =>
        obtain ⟨b, hb, -⟩ := h.of_pos hp
        simp [hb]
      | false => exact (h.of_neg hp).1
    simp [ha]

theorem words_flatMap (h : Keeps f p q) (xs : List α) :
    words q (xs.flatMap f) = (words p xs).map (List.flatMap f) := by
  have hempty : ∀ ys : List α, (ys.flatMap f).isEmpty = ys.isEmpty := by
    intro ys
    rw [Bool.eq_iff_iff, List.isEmpty_iff, List.isEmpty_iff, h.flatMap_eq_nil]
  rw [words, words, h.splitOnP_flatMap, List.filter_map]
  simp [Function.comp_def, hempty]

theorem dropWhile_flatMap (h : Keeps f p q) (xs : List α) :
    (xs.flatMap f).dropWhile q = (xs.dropWhile p).flatMap f := by
  induction xs with
  | nil => rfl
  | cons a xs ih =>
    rw [List.flatMap_cons]
    cases ha : p a with
    | true =>
      obtain ⟨b, hb, hq⟩ := h.of_pos ha
      simp [hb, hq, ha, ih]
    | false =>
      obtain ⟨hne, hq⟩ := h.of_neg ha
      obtain ⟨b, bs, hb⟩ := List.exists_cons_of_ne_nil hne
      have hb' : q b = false := hq b (by simp [hb])
      rw [List.dropWhile_cons_of_neg (by simp [ha]), List.flatMap_cons, hb, List.cons_append,
        List.dropWhile_cons_of_neg (by simp [hb'])]

theorem reverse (h : Keeps f p q) : Keeps (List.reverse ∘ f) p q where
  of_pos ha := by
    obtain ⟨b, hb, hq⟩ := h.of_pos ha
    exact ⟨b, by simp [hb], hq⟩
  of_neg ha := by
    obtain ⟨hne, hq⟩ := h.of_neg ha
    exact ⟨by simpa using hne, fun b hb => hq b (List.mem_reverse.1 hb)⟩

theorem trim_flatMap (h : Keeps f p q) (xs : List α) :
    trim q (xs.flatMap f) = (trim p xs).flatMap f := by
  rw [trim, trim, h.dropWhile_flatMap, List.reverse_flatMap, h.reverse.dropWhile_flatMap,
    List.reverse_flatMap, ← Function.comp_assoc]
  simp

end Keeps

/-! ### Characters -/

/-- The characters that separate words or are stripped from them, by their code points. -/
def separators : List Nat :=
  [9, 10, 11, 12, 13, 28, 29, 30, 31, 32, 0x85, 0xA0, 0x1680, 0x2000, 0x2001, 0x2002, 0x2003,
    0x2004, 0x2005, 0x2006, 0x2007, 0x2008, 0x2009, 0x200A, 0x2028, 0x2029, 0x202F, 0x205F, 0x3000,
    33, 34, 39, 40, 41, 44, 46, 58, 59, 63, 91, 93, 96, 123, 125, 0x2018, 0x2019, 0x201C, 0x201D]

theorem mem_separators_of_range {lo n : Nat} (k : Nat)
    (h : (List.range' lo k).all separators.contains = true) (hlo : lo ≤ n) (hn : n < lo + k) :
    n ∈ separators := by
  have hmem : n ∈ List.range' lo k := List.mem_range'_1.2 ⟨hlo, hn⟩
  simpa using List.all_eq_true.1 h n hmem

theorem mem_separators_of_isBlank {c : Char} (h : isBlank c = true) : c.toNat ∈ separators := by
  simp only [isBlank, Bool.or_eq_true, Bool.and_eq_true, decide_eq_true_eq, beq_iff_eq] at h
  rcases h with (((((((((⟨h, h'⟩ | ⟨h, h'⟩) | h) | h) | h) | ⟨h, h'⟩) | h) | h) | h) | h) | h
  · exact mem_separators_of_range 5 (by decide) h (Nat.lt_succ_of_le h')
  · exact mem_separators_of_range 5 (by decide) h (Nat.lt_succ_of_le h')
  · exact h ▸ by decide
  · exact h ▸ by decide
  · exact h ▸ by decide
  · exact mem_separators_of_range 11 (by decide) h (Nat.lt_succ_of_le h')
  all_goals exact h ▸ by decide

theorem mem_separators_of_isEdge {c : Char} (h : Token.isEdge c = true) :
    c.toNat ∈ separators := by
  have hall : (".,!?;:\"'\u0060()[]\x7b\x7d“”‘’".toList.all fun d =>
      separators.contains d.toNat) = true := by decide +kernel
  simpa using List.all_eq_true.1 hall c (by simpa [Token.isEdge] using h)

/-- No separator folds by a run, and none is the image of a run. -/
theorem foldRuns_clear {r : FoldRun} (hr : r ∈ foldRuns) {n : Nat} (hn : n ∈ separators) :
    (128 ≤ n → r.fold? n = none) ∧ (n < r.image ∨ r.image + (r.last - r.first) < n) := by
  have hall : (foldRuns.toList.all fun r => separators.all fun n =>
      (n < 128 || (r.fold? n).isNone) && (n < r.image || r.image + (r.last - r.first) < n)) =
      true := by decide +kernel
  have h := List.all_eq_true.1 (List.all_eq_true.1 hall r hr.val) n hn
  simp only [Bool.and_eq_true, Bool.or_eq_true, decide_eq_true_eq, Option.isNone_iff_eq_none] at h
  exact ⟨fun hle => h.1.resolve_left (Nat.not_lt.2 hle), h.2⟩

/-- No separator is replaced by several characters, and none is one of several. -/
theorem foldExpansions_clear {e : Nat × List Nat} (he : e ∈ foldExpansions) :
    e.1 ∉ separators ∧ e.2 ≠ [] ∧ ∀ n ∈ e.2, (Char.ofNat n).toNat ∉ separators := by
  have hall : ∀ e ∈ foldExpansions.toList, e.1 ∉ separators ∧ e.2 ≠ [] ∧
      ∀ n ∈ e.2, (Char.ofNat n).toNat ∉ separators := by decide +kernel
  exact hall e he.val

theorem foldChar_of_mem_separators {c : Char} (h : c.toNat ∈ separators) : foldChar c = [c] := by
  have hascii : ∀ n ∈ separators, n < 128 → (Char.ofNat n).toLower = Char.ofNat n := by
    decide +kernel
  unfold foldChar
  split
  · next hlt =>
    have hc := hascii _ h hlt
    rw [Char.ofNat_toNat] at hc
    rw [hc]
  · next hle =>
    have hruns : foldRuns.findSome? (·.fold? c.toNat) = none :=
      Array.findSome?_eq_none_iff.2 fun r hr => (foldRuns_clear hr h).1 (Nat.not_lt.1 hle)
    have hexpansions : foldExpansions.find? (·.1 == c.toNat) = none := by
      refine Array.find?_eq_none.2 fun e he heq => (foldExpansions_clear he).1 ?_
      rw [eq_of_beq heq]
      exact h
    rw [hruns, hexpansions]

theorem foldChar_ne_nil (c : Char) : foldChar c ≠ [] := by
  unfold foldChar
  split
  · simp
  · split
    · simp
    · split
      · next n ns he => simpa using (foldExpansions_clear (Array.mem_of_find?_eq_some he)).2.1
      · simp

theorem toNat_ofNat_or (n : Nat) : (Char.ofNat n).toNat = n ∨ (Char.ofNat n).toNat = 0 := by
  by_cases h : n.isValidChar
  · exact .inl (by rw [Char.ofNat, dif_pos h]; rfl)
  · exact .inr (by rw [Char.ofNat, dif_neg h]; rfl)

/-- No character but itself folds to something with a separator in it. -/
theorem eq_of_mem_foldChar {c d : Char} (h : d ∈ foldChar c) (hd : d.toNat ∈ separators) :
    c = d := by
  have hascii : ∀ n < 128, (Char.ofNat n).toLower.toNat ∈ separators →
      Char.ofNat n = (Char.ofNat n).toLower := by decide +kernel
  unfold foldChar at h
  split at h
  · next hlt =>
    obtain rfl := List.mem_singleton.1 h
    have hc := hascii c.toNat hlt
    rw [Char.ofNat_toNat] at hc
    exact hc hd
  · split at h
    · next n hn =>
      -- the image of a run is a run of the same length, and no separator lies in it
      obtain rfl := List.mem_singleton.1 h
      obtain ⟨r, hr, hfold⟩ := Array.exists_of_findSome?_eq_some hn
      have himage : r.image ≤ n ∧ n ≤ r.image + (r.last - r.first) := by
        simp only [FoldRun.fold?, Option.ite_none_right_eq_some, Bool.and_eq_true,
          decide_eq_true_eq, Option.some.injEq] at hfold
        omega
      rcases toNat_ofNat_or n with hn | hn <;> rw [hn] at hd
      · have := (foldRuns_clear hr hd).2
        omega
      · exact absurd hd (by decide)
    · split at h
      · next n ns he =>
        obtain ⟨m, hm, rfl⟩ := List.mem_map.1 h
        exact absurd hd ((foldExpansions_clear (Array.mem_of_find?_eq_some he)).2.2 m hm)
      · exact (List.mem_singleton.1 h).symm

/-- Case folding keeps any class of separators. -/
theorem keeps_foldChar {p : Char → Bool} (hp : ∀ {c}, p c = true → c.toNat ∈ separators) :
    Keeps foldChar p p where
  of_pos {c} hc := ⟨c, foldChar_of_mem_separators (hp hc), hc⟩
  of_neg {c} hc := by
    refine ⟨foldChar_ne_nil c, fun d hd => ?_⟩
    by_contra hpd
    rw [Bool.not_eq_false] at hpd
    rw [eq_of_mem_foldChar hd (hp hpd), hpd] at hc
    cases hc

end Text

/-! ### Tokens -/

namespace Token

open Text

/-- The word that a run of folded characters is compared as, unless it is punctuation alone. -/
def wordOfRun? (run : List Char) : Option String :=
  match trim isEdge run with
  | [] => none
  | cs => some (String.ofList cs)

theorem folded_ofRun? (run : List Char) :
    (ofRun? run).map (·.folded) = wordOfRun? (run.flatMap foldChar) := by
  have hkeeps := keeps_foldChar mem_separators_of_isEdge
  rw [ofRun?, wordOfRun?, hkeeps.trim_flatMap]
  cases htrim : trim isEdge run with
  | nil => rfl
  | cons c cs =>
    have hne : (c :: cs).flatMap foldChar ≠ [] :=
      mt hkeeps.flatMap_eq_nil.1 (List.cons_ne_nil c cs)
    obtain ⟨d, ds, hfold⟩ := List.exists_cons_of_ne_nil hne
    simp [hfold, ofTyped, foldCase]

/-- **The words of a text, as they are compared, are those of its folding.** -/
theorem folded_tokenize (text : String) :
    (tokenize text).map (·.folded) =
      (words isBlank (foldCase text).toList).filterMap wordOfRun? := by
  have hkeeps := keeps_foldChar mem_separators_of_isBlank
  rw [tokenize, toList_foldCase, hkeeps.words_flatMap, List.map_filterMap, List.filterMap_map]
  exact List.filterMap_congr fun run _ => folded_ofRun? run

end Token

end IntentGrammar
