import IntentGrammar.Proofs.Template.Surface
import Mathlib.Data.List.TakeDrop

/-!
# Reading terms

A term of the surface language is read as what it stands for: one word, the wildcard, or a word
that is taken apart at the brackets of its fragment.  Terms with blanks between them are read one
after the other (`readRun_spaced`).
-/

namespace IntentGrammar.Template

open Glyph (chars)

theorem chars_eq_append {gs : List Glyph} {cs ds : List Char} (h : chars gs = cs ++ ds) :
    ∃ gs₁ gs₂, gs = gs₁ ++ gs₂ ∧ chars gs₁ = cs ∧ chars gs₂ = ds :=
  List.map_eq_append_iff.1 h

theorem chars_eq_cons {gs : List Glyph} {c : Char} {cs : List Char} (h : chars gs = c :: cs) :
    ∃ g gs', gs = g :: gs' ∧ g.char = c ∧ chars gs' = cs :=
  List.map_eq_cons_iff.1 h

theorem char_mem_chars {g : Glyph} {gs : List Glyph} (h : g ∈ gs) : g.char ∈ chars gs :=
  List.mem_map_of_mem h

namespace Strand

variable (cs : List Char)

theorem short_plains : (cs.map plain).flatMap short = cs := by
  simp [List.flatMap_map, short]

theorem long_plains : (cs.map plain).flatMap long = cs := by
  simp [List.flatMap_map, long]

theorem any_isFragment_plains : (cs.map plain).any isFragment = false := by
  simp [isFragment]

variable (pre fragment post : List Char)

theorem short_variants :
    (pre.map plain ++ Strand.fragment fragment :: post.map plain).flatMap short = pre ++ post := by
  rw [List.flatMap_append, List.flatMap_cons, short_plains, short_plains]
  rfl

theorem long_variants :
    (pre.map plain ++ Strand.fragment fragment :: post.map plain).flatMap long =
      pre ++ (fragment ++ post) := by
  rw [List.flatMap_append, List.flatMap_cons, long_plains, long_plains]
  rfl

theorem any_isFragment_variants :
    (pre.map plain ++ Strand.fragment fragment :: post.map plain).any isFragment = true := by
  rw [List.any_append, List.any_cons]
  simp [isFragment]

end Strand

section

variable {gs : List Glyph} (rest : List Glyph)

theorem strands_word (h : ∀ c ∈ chars gs, isBracket c = false) :
    strands none (gs ++ rest) =
      (strands none rest).map ((chars gs).map Strand.plain ++ ·) := by
  induction gs with
  | nil =>
    rw [List.nil_append]
    cases strands none rest <;> rfl
  | cons g gs ih =>
    obtain ⟨hopener, hcloser⟩ := isBracket_eq_false (h g.char List.mem_cons_self)
    rw [List.cons_append, strands_plain _ hopener hcloser,
      ih fun c hc => h c (List.mem_cons_of_mem _ hc)]
    cases strands none rest <;> rfl

theorem strands_fragment (h : ∀ c ∈ chars gs, isBracket c = false) {closer : Glyph}
    (hcloser : closer.char = '\x7d') (pos : Nat) (cs : List Char) :
    strands (some (pos, cs)) (gs ++ closer :: rest) =
      (strands none rest).map (braced (cs ++ chars gs) ++ ·) := by
  induction gs generalizing cs with
  | nil =>
    have hclose := strands_close rest (g := closer) (by rw [hcloser]; rfl) (by rw [hcloser]; rfl)
    rw [List.nil_append, hclose, chars, List.map_nil, List.append_nil]
  | cons g gs ih =>
    obtain ⟨hopener, hcloser'⟩ := isBracket_eq_false (h g.char List.mem_cons_self)
    rw [List.cons_append, strands_braced _ hopener hcloser',
      ih fun c hc => h c (List.mem_cons_of_mem _ hc), List.append_assoc]
    rfl

theorem braced_of_ne_nil {cs : List Char} (h : cs ≠ []) : braced cs = [.fragment cs] := by
  cases cs with
  | nil => exact absurd rfl h
  | cons c cs => rfl

end

namespace Form

/-- The stretches of a form. -/
def strands : Form → List Strand
  | .word cs => cs.map .plain
  | .wildcard => [.plain '*']
  | .variants _ pre fragment post => pre.map .plain ++ .fragment fragment :: post.map .plain

theorem strands_eq {f : Form} (h : f.WellFormed) {gs : List Glyph} (hgs : chars gs = f.read) :
    Template.strands none gs = .ok f.strands := by
  have hword {gs : List Glyph} (h : ∀ c ∈ chars gs, isBracket c = false) :
      Template.strands none gs = .ok ((chars gs).map .plain) := by
    have hall := strands_word [] h
    rwa [List.append_nil, Template.strands, Except.map, List.append_nil] at hall
  cases f with
  | word cs =>
    rw [hword (by rw [hgs]; exact fun c hc => (isPlain_iff.1 (h.2.2.2 c hc)).2), hgs]
    rfl
  | wildcard =>
    rw [hword (by rw [hgs]; exact List.forall_mem_singleton.2 rfl), hgs]
    rfl
  | variants round pre fragment post =>
    obtain ⟨gs₁, gs₂, rfl, rfl, hgs₂⟩ := chars_eq_append hgs
    obtain ⟨opener, gs₃, rfl, hopener, hgs₃⟩ := chars_eq_cons hgs₂
    obtain ⟨gs₄, gs₅, rfl, rfl, hgs₅⟩ := chars_eq_append hgs₃
    obtain ⟨closer, gs₆, rfl, hcloser, rfl⟩ := chars_eq_cons hgs₅
    obtain ⟨-, hfragment, -, hplain⟩ := h
    have hbracket : ∀ c ∈ chars gs₁ ++ (chars gs₄ ++ chars gs₆), isBracket c = false :=
      fun c hc => (isPlain_iff.1 (hplain c hc)).2
    simp only [List.mem_append] at hbracket
    rw [strands_word _ fun c hc => hbracket c (.inl hc),
      strands_open _ (by rw [hopener]; rfl),
      strands_fragment _ (fun c hc => hbracket c (.inr (.inl hc))) hcloser,
      hword fun c hc => hbracket c (.inr (.inr hc)), List.nil_append, braced_of_ne_nil hfragment]
    rfl

theorem ofStrands_strands {f : Form} (h : f.WellFormed) (hne : f.read ≠ ['*']) (optional : Bool) :
    Atom.ofStrands f.strands optional = f.atom optional := by
  match f with
  | .word cs =>
    simp only [strands, Atom.ofStrands, Strand.short_plains, Strand.any_isFragment_plains]
    rfl
  | .wildcard => exact absurd rfl hne
  | .variants _ pre fragment post =>
    simp only [strands, Atom.ofStrands, Strand.short_variants, Strand.long_variants,
      Strand.any_isFragment_variants, atom]
    cases pre with
    | nil => exact absurd rfl h.1
    | cons c pre => rfl

theorem getLast?_read {f : Form} (h : f.WellFormed) : f.read.getLast? ≠ some '?' := by
  match f with
  | .word cs => exact h.2.2.1
  | .wildcard => decide
  | .variants _ pre fragment post =>
    have hsplit : pre ++ '\x7b' :: (fragment ++ '\x7d' :: post) =
        (pre ++ '\x7b' :: fragment) ++ ['\x7d'] ++ post := by simp
    rw [read, hsplit, List.getLast?_append, List.getLast?_concat]
    have hpost := h.2.2.1
    cases hlast : post.getLast? with
    | none => decide
    | some c => rwa [hlast] at hpost

theorem eq_wildcard {f : Form} (h : f.WellFormed) (hread : f.read = ['*']) : f = .wildcard := by
  match f with
  | .word cs => exact absurd hread h.2.1
  | .wildcard => rfl
  | .variants _ [] _ _ => exact absurd rfl h.1
  | .variants _ (c :: pre) fragment post => simp [read] at hread

end Form

namespace Term

variable {t : Term} {gs : List Glyph}

theorem exists_first (h : t.form.WellFormed) (hgs : chars gs = t.read) :
    ∃ g gs', gs = g :: gs' ∧ isPlain g.char = true := by
  obtain ⟨c, hc, -, cs, hcs⟩ := Form.exists_first h
  rw [read, hcs, List.cons_append] at hgs
  obtain ⟨g, gs', rfl, rfl, -⟩ := chars_eq_cons hgs
  exact ⟨g, gs', rfl, hc⟩

theorem of_mem_read (h : t.form.WellFormed) {c : Char} (hc : c ∈ t.read) :
    isPlain c = true ∨ c = '\x7b' ∨ c = '\x7d' := by
  rcases List.mem_append.1 hc with hc | hc
  · exact Form.of_mem_read h hc
  · rw [eq_of_mem_mark hc]
    exact .inl rfl

theorem not_mem_read (h : t.form.WellFormed) {c : Char} (hplain : isPlain c = false)
    (hopen : c ≠ '\x7b') (hclose : c ≠ '\x7d') : c ∉ t.read := by
  intro hc
  rcases List.mem_append.1 hc with hc | hc
  · exact Form.not_mem_read h hplain hopen hclose hc
  · rw [eq_of_mem_mark hc] at hplain
    cases hplain

theorem isBlank_of_mem_read (h : t.form.WellFormed) {c : Char} (hc : c ∈ t.read) :
    Text.isBlank c = false := by
  rcases of_mem_read h hc with hplain | rfl | rfl
  · exact (isPlain_iff.1 hplain).1
  · decide
  · decide

theorem getLast?_read (h : t.form.WellFormed) : (t.read.getLast? == some '?') = t.optional := by
  rw [read]
  cases t.optional with
  | false => simpa [mark] using Form.getLast?_read h
  | true => simp [mark]

/-- What is left of a term without its question mark. -/
theorem chars_stem (hgs : chars gs = t.read) :
    chars (if t.optional then gs.dropLast else gs) = t.form.read := by
  rw [read] at hgs
  cases hoptional : t.optional with
  | false => simpa [hoptional, mark] using hgs
  | true =>
    rw [hoptional] at hgs
    rw [if_pos rfl, chars, List.map_dropLast, ← chars, hgs, mark, if_pos rfl, List.dropLast_concat]

theorem atom_read (h : t.form.WellFormed) {g : Glyph} (hgs : chars (g :: gs) = t.read) :
    Atom.read g gs = .ok t.atom := by
  have hlast : (((g :: gs).getLast?.map (·.char)) == some '?') = t.optional := by
    rw [← List.getLast?_map, show (g :: gs).map (·.char) = t.read from hgs, getLast?_read h]
  have hstem := chars_stem hgs
  obtain ⟨form, optional⟩ := t
  simp only at hlast hstem
  simp only [Atom.read, hlast]
  generalize (if optional then (g :: gs).dropLast else g :: gs) = stem at hstem
  by_cases hwild : form.read = ['*']
  · obtain rfl := Form.eq_wildcard h hwild
    rw [hwild] at hstem
    simp only [hstem]
    rfl
  · split
    · next hnil =>
      -- only a question mark alone leaves nothing
      obtain ⟨c, -, -, cs, hcs⟩ := Form.exists_first h
      rw [← hstem, hnil] at hcs
      cases hcs
    · next hstar => exact absurd (hstem.symm.trans hstar) hwild
    · rw [Form.strands_eq h hstem, Except.map, Form.ofStrands_strands h hwild]
      rfl

theorem readAll_cons (h : t.form.WellFormed) (hgs : chars gs = t.read)
    (words : List (List Glyph)) :
    Atom.readAll (gs :: words) = (Atom.readAll words).map (t.atom :: ·) := by
  obtain ⟨g, gs', rfl, -⟩ := exists_first h hgs
  rw [Atom.readAll, atom_read h hgs]

end Term

/-- Terms with blanks between them are read one after the other. -/
theorem readRun_spaced {ts : List Term} {cs : List Char} (hwf : ∀ t ∈ ts, t.form.WellFormed)
    (h : Spaced (fun t cs => t.read = cs) ts cs) {gs : List Glyph} (hgs : chars gs = cs) :
    Atom.readRun gs = .ok (ts.map Term.atom) := by
  rw [Atom.readRun]
  have hsolid {t : Term} (ht : t.form.WellFormed) {gs : List Glyph} (hgs : chars gs = t.read) :
      ∀ g ∈ gs, g.isBlank = false := fun g hg =>
    Term.isBlank_of_mem_read ht (hgs ▸ char_mem_chars hg)
  induction h generalizing gs with
  | nil =>
    obtain rfl := List.map_eq_nil_iff.1 hgs
    rfl
  | blank hc h ih =>
    obtain ⟨g, gs', rfl, rfl, hgs'⟩ := chars_eq_cons hgs
    have hblank : g.isBlank = true := hc
    rw [List.splitOnP_cons_eq_if_modifyHead, if_pos hblank]
    exact ih hwf hgs'
  | last ht =>
    subst ht
    have ht := hwf _ List.mem_cons_self
    rw [List.splitOnP_eq_singleton (hsolid ht hgs), Term.readAll_cons ht hgs]
    rfl
  | cons ht hc h ih =>
    subst ht
    have ht := hwf _ List.mem_cons_self
    obtain ⟨gs₁, gs₂, rfl, hgs₁, hgs₂⟩ := chars_eq_append hgs
    obtain ⟨g, gs₃, rfl, rfl, hgs₃⟩ := chars_eq_cons hgs₂
    rw [List.splitOnP_append_cons_of_forall_mem (hsolid ht hgs₁) g hc, Term.readAll_cons ht hgs₁,
      ih (fun t ht => hwf t (List.mem_cons_of_mem _ ht)) hgs₃]
    rfl

end IntentGrammar.Template
