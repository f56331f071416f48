import IntentGrammar.Proofs.Template.Built
import IntentGrammar.Proofs.Template.Seams
import Mathlib.Data.List.Forall2

/-!
# Templates as they are written

The language of templates from the side of those who write them.  A template is a list of parts
with blanks between them; a part is a word-level term, a group of options or a slot, and an option
is a list of terms with blanks between them (`Part.Written`, `Spaced`).  `Part.pattern` is the
pattern that a part stands for, taken from the part itself and from nothing around it.

A fragment of a word may be written in braces or in parentheses: `Term.text` is the term as it is
written, `Term.read` the term with braces.
-/

namespace IntentGrammar.Template

/-- Characters of a bracket. -/
def isBracket (c : Char) : Bool := (Bracket.ofOpener? c).isSome || (Bracket.ofCloser? c).isSome

/-- Characters of a plain word: neither blanks nor brackets. -/
def isPlain (c : Char) : Bool := !Text.isBlank c && !isBracket c

theorem isBracket_eq_false {c : Char} (h : isBracket c = false) :
    Bracket.ofOpener? c = none ∧ Bracket.ofCloser? c = none := by
  simpa [isBracket] using h

theorem isBracket_of_ne {c : Char} (hopener : ∀ b : Bracket, c ≠ b.opener)
    (hcloser : ∀ b : Bracket, c ≠ b.closer) : isBracket c = false := by
  have hno : Bracket.ofOpener? c = none := Option.eq_none_iff_forall_ne_some.2 fun b hb =>
    hopener b (Bracket.ofOpener?_eq_some.1 hb)
  have hnc : Bracket.ofCloser? c = none := Option.eq_none_iff_forall_ne_some.2 fun b hb =>
    hcloser b (Bracket.ofCloser?_eq_some.1 hb)
  rw [isBracket, hno, hnc]
  rfl

theorem isBracket_of_isBlank {c : Char} (hc : Text.isBlank c = true) : isBracket c = false :=
  isBracket_of_ne (fun b => ne_of_isBlank hc (by cases b <;> decide))
    fun b => ne_of_isBlank hc (by cases b <;> decide)

theorem isPlain_iff {c : Char} :
    isPlain c = true ↔ Text.isBlank c = false ∧ isBracket c = false := by
  simp [isPlain]

theorem ne_of_isBracket {c d : Char} (hc : isBracket c = false) (hd : isBracket d = true) :
    c ≠ d := by
  rintro rfl
  exact absurd (hc.symm.trans hd) (by decide)

theorem not_mem_of_isBracket {cs : List Char} (h : ∀ c ∈ cs, isBracket c = false) {d : Char}
    (hd : isBracket d = true) : d ∉ cs := fun hmem => ne_of_isBracket (h d hmem) hd rfl

theorem not_mem_of_isPlain {cs : List Char} (h : ∀ c ∈ cs, isPlain c = true) {d : Char}
    (hd : isBracket d = true) : d ∉ cs :=
  not_mem_of_isBracket (fun c hc => (isPlain_iff.1 (h c hc)).2) hd

/-- The question mark of an optional part. -/
def mark (optional : Bool) : List Char := if optional then ['?'] else []

theorem eq_of_mem_mark {optional : Bool} {c : Char} (h : c ∈ mark optional) : c = '?' := by
  cases optional with
  | false => cases h
  | true => exact List.mem_singleton.1 h

/-- A text of the elements of a list, one after the other, with blanks between them and any number
of blanks around; `R` says how an element is written. -/
inductive Spaced {α : Type} (R : α → List Char → Prop) : List α → List Char → Prop
  | nil : Spaced R [] []
  | blank {xs : List α} {cs : List Char} {c : Char} (hc : Text.isBlank c = true)
      (h : Spaced R xs cs) : Spaced R xs (c :: cs)
  | last {x : α} {piece : List Char} (hx : R x piece) : Spaced R [x] piece
  | cons {x : α} {xs : List α} {piece cs : List Char} {c : Char} (hx : R x piece)
      (hc : Text.isBlank c = true) (h : Spaced R xs cs) : Spaced R (x :: xs) (piece ++ c :: cs)

theorem Spaced.of_mem {α : Type} {R : α → List Char → Prop} {xs : List α} {cs : List Char}
    (h : Spaced R xs cs) {c : Char} (hc : c ∈ cs) :
    Text.isBlank c = true ∨ ∃ x ∈ xs, ∃ piece, R x piece ∧ c ∈ piece := by
  induction h with
  | nil => cases hc
  | blank hblank h ih =>
    rcases List.mem_cons.1 hc with rfl | hc
    · exact .inl hblank
    · exact ih hc
  | last hx => exact .inr ⟨_, List.mem_cons_self, _, hx, hc⟩
  | cons hx hblank h ih =>
    rcases List.mem_append.1 hc with hc | hc
    · exact .inr ⟨_, List.mem_cons_self, _, hx, hc⟩
    · rcases List.mem_cons.1 hc with rfl | hc
      · exact .inl hblank
      · refine (ih hc).imp_right fun ⟨x, hx, hpiece⟩ => ⟨x, List.mem_cons_of_mem _ hx, hpiece⟩

/-! ### Terms -/

/-- What a term looks like, its question mark apart. -/
inductive Form where
  | word (text : List Char)
  | wildcard
  /-- A word around a fragment that may be left out; it stands in parentheses if `round`, and in
  braces otherwise. -/
  | variants (round : Bool) (pre fragment post : List Char)

namespace Form

/-- The form as it is written. -/
def text : Form → List Char
  | .word cs => cs
  | .wildcard => ['*']
  | .variants true pre fragment post => pre ++ '(' :: (fragment ++ ')' :: post)
  | .variants false pre fragment post => pre ++ '\x7b' :: (fragment ++ '\x7d' :: post)

/-- The form with its fragment in braces. -/
def read : Form → List Char
  | .word cs => cs
  | .wildcard => ['*']
  | .variants _ pre fragment post => pre ++ '\x7b' :: (fragment ++ '\x7d' :: post)

/-- Words have no blanks and no brackets in them, no word is a star, and no form ends in a question
mark: the one at the end of a term is the mark of the term. -/
def WellFormed : Form → Prop
  | .word cs => cs ≠ [] ∧ cs ≠ ['*'] ∧ cs.getLast? ≠ some '?' ∧ ∀ c ∈ cs, isPlain c
  | .wildcard => True
  | .variants _ pre fragment post =>
    pre ≠ [] ∧ fragment ≠ [] ∧ post.getLast? ≠ some '?' ∧
      ∀ c ∈ pre ++ (fragment ++ post), isPlain c

/-- What the form stands for. -/
def atom (optional : Bool) : Form → Atom
  | .word cs => .word (String.ofList cs) optional
  | .wildcard => .wildcard optional
  | .variants _ pre fragment post =>
    .variants (String.ofList (pre ++ post)) (String.ofList (pre ++ (fragment ++ post))) optional

theorem exists_first {f : Form} (h : f.WellFormed) :
    ∃ c, isPlain c = true ∧ (∃ cs, f.text = c :: cs) ∧ ∃ cs, f.read = c :: cs := by
  match f with
  | .word [] => exact absurd rfl h.1
  | .word (c :: cs) => exact ⟨c, h.2.2.2 c List.mem_cons_self, ⟨cs, rfl⟩, cs, rfl⟩
  | .wildcard => exact ⟨'*', by decide, ⟨[], rfl⟩, [], rfl⟩
  | .variants _ [] _ _ => exact absurd rfl h.1
  | .variants true (c :: _) _ _ => exact ⟨c, h.2.2.2 c List.mem_cons_self, ⟨_, rfl⟩, _, rfl⟩
  | .variants false (c :: _) _ _ => exact ⟨c, h.2.2.2 c List.mem_cons_self, ⟨_, rfl⟩, _, rfl⟩

theorem of_mem_read {f : Form} (h : f.WellFormed) {c : Char} (hc : c ∈ f.read) :
    isPlain c = true ∨ c = '\x7b' ∨ c = '\x7d' := by
  match f with
  | .word cs => exact .inl (h.2.2.2 c hc)
  | .wildcard =>
    rw [List.mem_singleton.1 hc]
    decide
  | .variants _ pre fragment post =>
    obtain ⟨-, -, -, hplain⟩ := h
    simp only [read, List.mem_append, List.mem_cons] at hc
    simp only [List.mem_append] at hplain
    rcases hc with hc | hc | hc | hc | hc
    · exact .inl (hplain c (.inl hc))
    · exact .inr (.inl hc)
    · exact .inl (hplain c (.inr (.inl hc)))
    · exact .inr (.inr hc)
    · exact .inl (hplain c (.inr (.inr hc)))

theorem not_mem_read {f : Form} (h : f.WellFormed) {c : Char} (hplain : isPlain c = false)
    (hopen : c ≠ '\x7b') (hclose : c ≠ '\x7d') : c ∉ f.read := by
  intro hc
  obtain hc | hc | hc := of_mem_read h hc
  · cases hplain.symm.trans hc
  · exact hopen hc
  · exact hclose hc

end Form

/-- A word-level term. -/
structure Term where
  form : Form
  optional : Bool

namespace Term

variable (t : Term)

/-- The term as it is written. -/
def text : List Char := t.form.text ++ mark t.optional

/-- The term with its fragment in braces. -/
def read : List Char := t.form.read ++ mark t.optional

/-- What the term stands for. -/
def atom : Atom := t.form.atom t.optional

/-- The pattern of the term: a word, a wildcard, or the choice between a word without its fragment
and the word with it. -/
def pattern : Pattern :=
  match t.form with
  | .word cs => .word 0 (String.ofList cs) t.optional
  | .wildcard => .wildcard 0 t.optional
  | .variants _ pre fragment post =>
    .choice 0 [.word 0 (String.ofList (pre ++ post)) false,
      .word 0 (String.ofList (pre ++ (fragment ++ post))) false] t.optional

/-- The pattern of an option: that of its only term, or all of them in a row. -/
def optionPattern : List Term → Pattern
  | [t] => t.pattern
  | ts => .series 0 (ts.map pattern)

theorem plain_atom : t.atom.plain = t.pattern := by
  obtain ⟨form, optional⟩ := t
  cases form <;> rfl

theorem plainOption_atoms (ts : List Term) :
    Atom.plainOption (ts.map atom) = optionPattern ts := by
  match ts with
  | [] => rfl
  | [t] => exact t.plain_atom
  | t :: u :: ts =>
    simp only [List.map_cons, Atom.plainOption, optionPattern, List.map_map, Function.comp_def,
      plain_atom]

end Term

/-! ### Parts -/

/-- A part of a template that stands for a pattern. -/
inductive Part where
  | term (t : Term)
  | group (options : List (List Term)) (optional : Bool)
  /-- A slot; a typed one comes with the name of its entity type as it is written, and with the
  pattern of the type. -/
  | slot (name : List Char) (entity : Option (List Char × Pattern)) (optional : Bool)

namespace Part

/-- The text of a slot between its brackets: its name, and the name of its entity type behind a
colon. -/
def slotText (name : List Char) : Option (List Char × Pattern) → List Char
  | none => name
  | some (kind, _) => name ++ ':' :: kind

/-- The text is a way to write the part, given how terms are written. -/
inductive Written (text : Term → List Char) : Part → List Char → Prop
  | term (t : Term) : Written text (.term t) (text t)
  | group {options : List (List Term)} {texts : List (List Char)} (optional : Bool)
      (h : List.Forall₂ (Spaced fun t cs => text t = cs) options texts) :
      Written text (.group options optional)
        ('(' :: (['|'].intercalate texts ++ ')' :: mark optional))
  | slot (name : List Char) (entity : Option (List Char × Pattern)) (optional : Bool) :
      Written text (.slot name entity optional)
        ('[' :: (slotText name entity ++ ']' :: mark optional))

/-- The texts of a part can be told apart from everything else: an option holds no bar of its own,
the name of a slot ends where it seems to end, and the entity type of a slot is known. -/
def WellFormed (E : Entities) : Part → Prop
  | .term t => t.form.WellFormed
  | .group options _ =>
    options ≠ [] ∧ ∀ o ∈ options, ∀ t ∈ o, t.form.WellFormed ∧ '|' ∉ t.form.text
  | .slot name entity _ =>
    (∃ c ∈ name, Text.isBlank c = false) ∧
      (∀ c ∈ name, c ≠ ':' ∧ c ≠ '=' ∧ isBracket c = false) ∧
      ∀ e ∈ entity, (∀ c ∈ e.1, isBracket c = false) ∧
        E.table.get? (String.ofList (Text.trim Text.isBlank e.1)) = some e.2

theorem isBracket_of_mem_slotText {E : Entities} {name : List Char}
    {entity : Option (List Char × Pattern)} {optional : Bool}
    (h : (slot name entity optional).WellFormed E) :
    ∀ c ∈ slotText name entity, isBracket c = false := by
  intro c hc
  match entity with
  | none => exact (h.2.1 c hc).2.2
  | some (kind, p) =>
    rcases List.mem_append.1 hc with hc | hc
    · exact (h.2.1 c hc).2.2
    · rcases List.mem_cons.1 hc with rfl | hc
      · decide
      · exact (h.2.2 (kind, p) rfl).1 c hc

/-- What the part stands for. -/
def item : Part → Item
  | .term t => .atom t.atom
  | .group options optional =>
    .group ((options.map (List.map Term.atom)).filter (!·.isEmpty))
      ((options.map (List.map Term.atom)).any List.isEmpty || optional)
  | .slot name entity optional =>
    .slot (String.ofList (Text.trim Text.isBlank name)) optional
      (entity.map fun e => (String.ofList (Text.trim Text.isBlank e.1), e.2))

/-- The pattern of the part.  A group stands for the choice between its options that are not
empty; it is optional if it is marked or has an empty option.  A slot takes what its entity type
takes, or any tokens if it has none. -/
def pattern : Part → Pattern
  | .term t => t.pattern
  | .group options optional =>
    .choice 0 ((options.filter (!·.isEmpty)).map Term.optionPattern)
      (optional || options.any List.isEmpty)
  | .slot name none optional =>
    .slot 0 (String.ofList (Text.trim Text.isBlank name)) (.wildcard 0 optional) none
  | .slot name (some (kind, p)) optional =>
    .slot 0 (String.ofList (Text.trim Text.isBlank name))
      (if optional then p.plain.optionally 0 else p.plain)
      (some (String.ofList (Text.trim Text.isBlank kind)))

theorem plain?_item (part : Part) : part.item.plain? = some part.pattern := by
  cases part with
  | term t => exact congrArg some t.plain_atom
  | group options optional =>
    have hisEmpty : (List.isEmpty ∘ List.map Term.atom) = (List.isEmpty : List Term → Bool) := by
      funext o
      exact List.isEmpty_map
    have hfilter : (options.map (List.map Term.atom)).filter (!·.isEmpty) =
        (options.filter (!·.isEmpty)).map (List.map Term.atom) := by
      rw [List.filter_map]
      simp only [Function.comp_def, List.isEmpty_map]
    rw [item, Item.plain?, hfilter, List.any_map, hisEmpty, List.map_map, Bool.or_comm]
    simp only [Function.comp_def, Term.plainOption_atoms, pattern]
  | slot name entity optional =>
    cases entity with
    | none => rfl
    | some e => rfl

theorem assignments_item (part : Part) : part.item.assignments = [] := by
  cases part <;> rfl

end Part

end IntentGrammar.Template
