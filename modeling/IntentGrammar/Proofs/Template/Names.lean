import IntentGrammar.Proofs.Casing
import IntentGrammar.Proofs.Template.Terms
import IntentGrammar.Proofs.Trimming

/-!
# Names in a tag block

A tag block is cut at the names that an equals sign follows.  `nameBefore?_eq_some_iff` says what
is read there by its parts (`NameParts`), for any class of characters that names are made of; two
readers with different classes are compared by it.

The cut looks for names from left to right.  No name starts in a text without equals signs if none
starts at its last glyph (`cutAtNames_front`), and a blank in front of a block changes no assignment
(`cutAtNames_blank`); so a value ends where the next assignment is written, up to blanks
(`cutAtNames_value_append`).
-/

namespace IntentGrammar.Template

open Glyph (chars)

/-! ### Characters of names -/

/-- Names of this class can be told apart from the blanks and the equals sign behind them. -/
def NameClass (p : Char → Bool) : Prop := ∀ c, p c = true → Text.isBlank c = false ∧ c ≠ '='

/-- Characters of the name behind a square bracket that opens a tag block. -/
def isLeadChar (c : Char) : Bool := Text.isWordChar c || c == '-'

theorem startsTags_eq (gs : List Glyph) :
    Item.startsTags gs = (nameBefore? isLeadChar gs).isSome := rfl

theorem nameClass_of_separators {p : Char → Bool}
    (hblank : ∀ c : Char, c.toNat ∈ Text.separators → p c = false) (hsign : p '=' = false) :
    NameClass p := by
  intro c hc
  constructor
  · rw [← Bool.not_eq_true]
    intro h
    cases (hblank c (Text.mem_separators_of_isBlank h)).symm.trans hc
  · rintro rfl
    cases hsign.symm.trans hc

theorem nameClass_isNameChar : NameClass isNameChar := by
  have hall : ∀ n ∈ Text.separators, isNameChar (Char.ofNat n) = false := by decide +kernel
  refine nameClass_of_separators (fun c hc => ?_) (by decide)
  rw [← Char.ofNat_toNat c]
  exact hall _ hc

theorem isWordChar_of_mem_separators {c : Char} (h : c.toNat ∈ Text.separators) :
    Text.isWordChar c = false := by
  have hascii : ∀ n ∈ Text.separators,
      ((Char.ofNat n).isAlphanum || Char.ofNat n == '_') = false := by decide +kernel
  have hranges : ∀ n ∈ Text.separators, 128 ≤ n →
      (Text.wordRanges.toList.any fun range => range.1 ≤ n && n ≤ range.2) = false := by
    decide +kernel
  rw [Text.isWordChar]
  split
  · rw [← Char.ofNat_toNat c]
    exact hascii _ h
  · next hle =>
    rw [← Array.any_toList]
    exact hranges _ h (Nat.not_lt.1 hle)

theorem nameClass_isLeadChar : NameClass isLeadChar := by
  refine nameClass_of_separators (fun c hc => ?_) (by decide)
  have hdash : c ≠ '-' := by
    rintro rfl
    exact absurd hc (by decide)
  simp [isLeadChar, isWordChar_of_mem_separators hc, hdash]

theorem isLeadChar_of_isNameChar {c : Char} (h : isNameChar c = true) : isLeadChar c = true := by
  simp only [isNameChar, Bool.or_eq_true, beq_iff_eq] at h
  rcases h with (h | rfl) | rfl
  · have hascii : c.toNat < 128 := by
      have hranges : (decide ('A'.val ≤ c.val ∧ c.val ≤ 'Z'.val) ||
          ('a'.val ≤ c.val && c.val ≤ 'z'.val) || ('0'.val ≤ c.val && c.val ≤ '9'.val)) = true := h
      simp only [Bool.or_eq_true, Bool.and_eq_true, decide_eq_true_eq,
        UInt32.le_iff_toNat_le] at hranges
      have hval : c.toNat = c.val.toNat := rfl
      rcases hranges with (⟨-, hle⟩ | ⟨-, hle⟩) | ⟨-, hle⟩ <;>
        exact hval ▸ Nat.lt_of_le_of_lt hle (by decide)
    simp [isLeadChar, Text.isWordChar, hascii, h]
  · decide
  · decide

theorem ne_of_isNameChar {c d : Char} (h : isNameChar c = true) (hd : isNameChar d = false) :
    c ≠ d := by
  rintro rfl
  cases h.symm.trans hd

theorem isBracket_of_isNameChar {c : Char} (h : isNameChar c = true) : isBracket c = false :=
  isBracket_of_ne (fun b => ne_of_isNameChar h (by cases b <;> decide))
    fun b => ne_of_isNameChar h (by cases b <;> decide)

/-! ### Names in front of an equals sign -/

section

variable {p : Char → Bool} {gs name value : List Glyph}

/-- The parts of a text that starts with a name of the class `p`: blanks, the name, blanks, and an
equals sign with the value behind it. -/
structure NameParts (p : Char → Bool) (gs before name after : List Glyph) (sign : Glyph)
    (value : List Glyph) : Prop where
  append_eq : gs = before ++ (name ++ (after ++ sign :: value))
  before : ∀ g ∈ before, g.isBlank = true
  nonempty : name ≠ []
  name : ∀ g ∈ name, p g.char = true
  after : ∀ g ∈ after, g.isBlank = true
  sign : sign.char = '='

theorem NameParts.append {before after : List Glyph} {sign : Glyph}
    (h : NameParts p gs before name after sign value) (tail : List Glyph) :
    NameParts p (gs ++ tail) before name after sign (value ++ tail) :=
  { h with append_eq := by simp [h.append_eq] }

theorem isBlank_of_sign {sign : Glyph} (h : sign.char = '=') : sign.isBlank = false := by
  rw [Glyph.isBlank, h]
  decide

theorem dropWhile_to_sign {after : List Glyph} (hafter : ∀ g ∈ after, g.isBlank = true)
    {sign : Glyph} (hsign : sign.char = '=') (value : List Glyph) :
    (after ++ sign :: value).dropWhile Glyph.isBlank = sign :: value := by
  rw [List.dropWhile_append_of_pos hafter,
    List.dropWhile_cons_of_neg (Bool.eq_false_iff.1 (isBlank_of_sign hsign))]

theorem exists_nameParts (h : nameBefore? p gs = some (name, value)) :
    ∃ before after sign, NameParts p gs before name after sign value := by
  have hgs := List.takeWhile_append_dropWhile (p := Glyph.isBlank) (l := gs)
  have hstart := List.takeWhile_append_dropWhile (p := fun g : Glyph => p g.char)
    (l := gs.dropWhile Glyph.isBlank)
  have hbehind := List.takeWhile_append_dropWhile (p := Glyph.isBlank)
    (l := (gs.dropWhile Glyph.isBlank).dropWhile fun g => p g.char)
  simp only [nameBefore?] at h
  split at h
  · cases h
  · cases h
  · next sign value' hsign hne =>
    split at h
    · next hchar =>
      cases h
      rw [hsign] at hbehind
      rw [← hbehind] at hstart
      rw [← hstart] at hgs
      exact ⟨_, _, sign, hgs.symm, fun g hg => List.mem_takeWhile_imp hg, hne,
        fun g hg => List.mem_takeWhile_imp (p := fun g : Glyph => p g.char) hg,
        fun g hg => List.mem_takeWhile_imp hg, hchar⟩
    · cases h

/-- **What is read as a name**: the characters of the class between the blanks at the start and the
blanks in front of an equals sign. -/
theorem nameBefore?_eq_some_iff (hp : NameClass p) :
    nameBefore? p gs = some (name, value) ↔
      ∃ before after sign, NameParts p gs before name after sign value := by
  refine ⟨exists_nameParts, ?_⟩
  rintro ⟨before, after, sign, rfl, hbefore, hne, hname, hafter, hsign⟩
  -- a name ends at the first blank behind it, or at the sign
  have hstop : ∃ x rest, after ++ sign :: value = x :: rest ∧ ¬p x.char = true := by
    cases after with
    | nil => exact ⟨sign, value, rfl, fun h => (hp _ h).2 hsign⟩
    | cons blank after =>
      have hblank : Text.isBlank blank.char = true := hafter blank List.mem_cons_self
      exact ⟨blank, _, rfl, fun h => absurd hblank (Bool.eq_false_iff.1 (hp _ h).1)⟩
  obtain ⟨x, rest, hx, hpx⟩ := hstop
  have htake : (after ++ sign :: value).takeWhile (fun g => p g.char) = [] := by
    rw [hx]
    exact List.takeWhile_cons_of_neg hpx
  have hdrop : (after ++ sign :: value).dropWhile (fun g => p g.char) = after ++ sign :: value := by
    rw [hx]
    exact List.dropWhile_cons_of_neg hpx
  obtain ⟨g, name, rfl⟩ := List.exists_cons_of_ne_nil hne
  have hg : ¬g.isBlank = true := Bool.eq_false_iff.1 (hp _ (hname g List.mem_cons_self)).1
  have hstart : (before ++ (g :: name ++ (after ++ sign :: value))).dropWhile Glyph.isBlank =
      g :: name ++ (after ++ sign :: value) := by
    rw [List.dropWhile_append_of_pos hbefore]
    exact List.dropWhile_cons_of_neg hg
  simp only [nameBefore?, hstart, List.takeWhile_append_of_pos hname,
    List.dropWhile_append_of_pos hname, htake, hdrop, dropWhile_to_sign hafter hsign,
    List.append_nil]
  exact if_pos hsign

theorem nameBefore?_name (hp : NameClass p) (hne : name ≠ []) (hname : ∀ g ∈ name, p g.char = true)
    {after : List Glyph} (hafter : ∀ g ∈ after, g.isBlank = true) {sign : Glyph}
    (hsign : sign.char = '=') (value : List Glyph) :
    nameBefore? p (name ++ (after ++ sign :: value)) = some (name, value) :=
  (nameBefore?_eq_some_iff hp).2 ⟨[], after, sign, rfl, nofun, hne, hname, hafter, hsign⟩

/-- A name of one class is a name of every class that its characters are in. -/
theorem nameBefore?_of_forall {q : Char → Bool} (hq : NameClass q)
    (h : nameBefore? p gs = some (name, value)) (hname : ∀ g ∈ name, q g.char = true) :
    nameBefore? q gs = some (name, value) := by
  obtain ⟨before, after, sign, hparts⟩ := exists_nameParts h
  exact (nameBefore?_eq_some_iff hq).2 ⟨before, after, sign, { hparts with name := hname }⟩

theorem nameBefore?_blank {g : Glyph} (hg : g.isBlank = true) :
    nameBefore? p (g :: gs) = nameBefore? p gs := by
  rw [nameBefore?, List.dropWhile_cons_of_pos hg, nameBefore?]

theorem nameBefore?_of_not {g : Glyph} (hg : g.isBlank = false) (hp : p g.char = false) :
    nameBefore? p (g :: gs) = none := by
  have hstart : (g :: gs).dropWhile Glyph.isBlank = g :: gs :=
    List.dropWhile_cons_of_neg (Bool.eq_false_iff.1 hg)
  have hname : (g :: gs).takeWhile (fun g => p g.char) = [] :=
    List.takeWhile_cons_of_neg (Bool.eq_false_iff.1 hp)
  simp only [nameBefore?, hstart, hname]

/-- The first glyph that is no blank is no equals sign either. -/
def Unsigned (gs : List Glyph) : Prop :=
  ∀ g ∈ (gs.dropWhile Glyph.isBlank).head?, g.char ≠ '='

theorem unsigned_blank {g : Glyph} (hg : g.isBlank = true) : Unsigned (g :: gs) ↔ Unsigned gs := by
  rw [Unsigned, List.dropWhile_cons_of_pos hg, Unsigned]

theorem unsigned_front {front : List Glyph} (hfront : '=' ∉ chars front) {x : Glyph}
    (hx : x.isBlank = false) (hsign : x.char ≠ '=') (rest : List Glyph) :
    Unsigned (front ++ x :: rest) := by
  intro g hg
  rw [dropWhile_seam hx] at hg
  cases hdrop : front.dropWhile Glyph.isBlank with
  | nil =>
    rw [hdrop] at hg
    cases hg
    exact hsign
  | cons y ys =>
    rw [hdrop] at hg
    cases hg
    intro hchar
    have hmem : g ∈ front := (List.dropWhile_sublist Glyph.isBlank).subset
      (hdrop ▸ List.mem_cons_self)
    exact hfront (hchar ▸ char_mem_chars hmem)

/-- A text that starts with a name does not start with an equals sign. -/
theorem unsigned_of_name (hp : NameClass p) (h : nameBefore? p gs = some (name, value)) :
    Unsigned gs := by
  obtain ⟨before, after, sign, rfl, hbefore, hne, hname, -, -⟩ := exists_nameParts h
  obtain ⟨g, name, rfl⟩ := List.exists_cons_of_ne_nil hne
  obtain ⟨hblank, hsign⟩ := hp _ (hname g List.mem_cons_self)
  have hsolid : ¬g.isBlank = true := Bool.eq_false_iff.1 hblank
  rw [Unsigned, List.dropWhile_append_of_pos hbefore, List.cons_append,
    List.dropWhile_cons_of_neg hsolid]
  rintro _ ⟨⟩
  exact hsign

/-- A name behind which no equals sign comes next goes on in what follows. -/
theorem nameBefore?_of_cons (hp : NameClass p) {g : Glyph} (hg : g.isBlank = false)
    (hnext : Unsigned gs) (h : nameBefore? p (g :: gs) = some (name, value)) :
    (∀ g' ∈ gs.head?, g'.isBlank = false) ∧ (nameBefore? p gs).isSome := by
  obtain ⟨before, after, sign, hgs, hbefore, hne, hname, hafter, hsign⟩ := exists_nameParts h
  obtain rfl : before = [] := by
    cases before with
    | nil => rfl
    | cons blank before =>
      obtain ⟨rfl, -⟩ := List.cons.inj hgs
      cases hg.symm.trans (hbefore g List.mem_cons_self)
  match name with
  | [] => exact absurd rfl hne
  | [_] =>
    obtain rfl : gs = after ++ sign :: value := (List.cons.inj hgs).2
    rw [Unsigned, dropWhile_to_sign hafter hsign] at hnext
    exact absurd hsign (hnext sign rfl)
  | _ :: g' :: name =>
    obtain rfl : gs = g' :: name ++ (after ++ sign :: value) := (List.cons.inj hgs).2
    have hname' : ∀ g ∈ g' :: name, p g.char = true := fun g hg =>
      hname g (List.mem_cons_of_mem _ hg)
    have hfound := nameBefore?_name hp (List.cons_ne_nil g' name) hname' hafter hsign value
    refine ⟨?_, Option.isSome_of_eq_some hfound⟩
    rintro _ ⟨⟩
    exact (hp _ (hname' g' List.mem_cons_self)).1

/-- Where no name starts at a glyph, none starts in a text without equals signs in front of it. -/
theorem nameBefore?_front (hp : NameClass p) {front rest : List Glyph} {x : Glyph}
    (hfront : '=' ∉ chars front) (hx : x.isBlank = false) (hsign : x.char ≠ '=')
    (h : nameBefore? p (x :: rest) = none) : nameBefore? p (front ++ x :: rest) = none := by
  induction front with
  | nil => exact h
  | cons g front ih =>
    have hfront' : '=' ∉ chars front := fun hmem => hfront (List.mem_cons_of_mem _ hmem)
    cases hg : g.isBlank with
    | true => exact (nameBefore?_blank hg).trans (ih hfront')
    | false =>
      refine Option.eq_none_iff_forall_ne_some.2 fun found hfound => ?_
      have hsome := (nameBefore?_of_cons hp hg (unsigned_front hfront' hx hsign rest) hfound).2
      rw [ih hfront'] at hsome
      cases hsome

end

/-! ### Cutting a block -/

section

variable {gs : List Glyph}

theorem cutAtNames_front {front rest : List Glyph} {x : Glyph} (hfront : '=' ∉ chars front)
    (hx : x.isBlank = false) (hsign : x.char ≠ '=')
    (h : nameBefore? isNameChar (x :: rest) = none) :
    cutAtNames (front ++ x :: rest) = (front ++ x :: (cutAtNames rest).1, (cutAtNames rest).2) := by
  induction front with
  | nil => exact cutAtNames_cons h
  | cons g front ih =>
    have hfront' : '=' ∉ chars front := fun hmem => hfront (List.mem_cons_of_mem _ hmem)
    have hno : nameBefore? isNameChar (g :: front ++ x :: rest) = none :=
      nameBefore?_front nameClass_isNameChar hfront hx hsign h
    rw [List.cons_append] at hno ⊢
    rw [cutAtNames_cons hno, ih hfront', List.cons_append]

/-- A blank in front of a block changes none of its assignments. -/
theorem cutAtNames_blank {g : Glyph} (hg : g.isBlank = true) (gs : List Glyph) :
    (cutAtNames (g :: gs)).2 = (cutAtNames gs).2 ∧
      (cutAtNames (g :: gs)).1 ⊆ g :: (cutAtNames gs).1 := by
  cases h : nameBefore? isNameChar gs with
  | none =>
    rw [cutAtNames_cons ((nameBefore?_blank hg).trans h)]
    exact ⟨rfl, List.Subset.refl _⟩
  | some found =>
    rw [cutAtNames_name ((nameBefore?_blank hg).trans h), cutAtNames_name h]
    exact ⟨rfl, List.nil_subset _⟩

/-- Nothing but blanks stands in front of the first assignment, and the first assignment has a
name. -/
structure Tidy (gs : List Glyph) : Prop where
  leading : ∀ g ∈ (cutAtNames gs).1, g.isBlank = true
  unsigned : Unsigned gs

theorem Tidy.nil : Tidy [] where
  leading := by
    rw [cutAtNames_nil]
    exact fun g hg => absurd hg List.not_mem_nil
  unsigned := fun g hg => absurd hg (Option.not_mem_none g)

theorem Tidy.blank (h : Tidy gs) {g : Glyph} (hg : g.isBlank = true) : Tidy (g :: gs) where
  leading := by
    intro g' hmem
    rcases List.mem_cons.1 ((cutAtNames_blank hg gs).2 hmem) with rfl | hmem
    · exact hg
    · exact h.leading g' hmem
  unsigned := (unsigned_blank hg).2 h.unsigned

theorem tidy_of_name {name value : List Glyph}
    (h : nameBefore? isNameChar gs = some (name, value)) : Tidy gs where
  leading := by
    rw [cutAtNames_name h]
    exact fun g hg => absurd hg List.not_mem_nil
  unsigned := unsigned_of_name nameClass_isNameChar h

/-- A block with assignments and nothing but blanks in front of them starts with a name. -/
theorem isSome_nameBefore?_of_leading (hlead : ∀ g ∈ (cutAtNames gs).1, g.isBlank = true)
    (hne : (cutAtNames gs).2 ≠ []) : (nameBefore? isNameChar gs).isSome := by
  induction gs with
  | nil =>
    rw [cutAtNames_nil] at hne
    exact absurd rfl hne
  | cons g gs ih =>
    cases h : nameBefore? isNameChar (g :: gs) with
    | some found => rfl
    | none =>
      rw [cutAtNames_cons h] at hlead hne
      have hsome := ih (fun g hg => hlead g (List.mem_cons_of_mem _ hg)) hne
      rw [← nameBefore?_blank (hlead g List.mem_cons_self), h] at hsome
      cases hsome

/-- A value ends where the next assignment is written, up to the blanks between them. -/
theorem cutAtNames_value_append {w tail : List Glyph} (hw : '=' ∉ chars w)
    (hhead : ∀ g ∈ tail.head?, g.isBlank = true) (htail : Tidy tail) :
    (cutAtNames (w ++ tail)).2 = (cutAtNames tail).2 ∧
      Text.trim Glyph.isBlank (cutAtNames (w ++ tail)).1 = Text.trim Glyph.isBlank w := by
  induction w using List.reverseRecOn generalizing tail with
  | nil => exact ⟨rfl, Text.trim_append_of_forall htail.leading []⟩
  | append_singleton w x ih =>
    rw [Glyph.chars_append, List.mem_append, not_or] at hw
    rw [List.append_assoc, List.singleton_append]
    cases hx : x.isBlank with
    | true =>
      -- a blank at the end of the value may as well be one in front of what follows
      have hhead' : ∀ g ∈ (x :: tail).head?, g.isBlank = true := by
        rintro _ ⟨⟩
        exact hx
      obtain ⟨hmore, htrim⟩ := ih hw.1 hhead' (htail.blank hx)
      refine ⟨hmore.trans (cutAtNames_blank hx tail).1, htrim.trans ?_⟩
      exact (Text.trim_append_of_forall (List.forall_mem_singleton.2 hx) w).symm
    | false =>
      have hsign : x.char ≠ '=' := fun hchar => hw.2 (hchar ▸ List.mem_singleton_self _)
      have hno : nameBefore? isNameChar (x :: tail) = none := by
        refine Option.eq_none_iff_forall_ne_some.2 fun found hfound => ?_
        obtain ⟨hsolid, hsome⟩ := nameBefore?_of_cons nameClass_isNameChar hx htail.unsigned hfound
        cases tail with
        | nil => cases hsome
        | cons g tail => cases (hhead g rfl).symm.trans (hsolid g rfl)
      rw [cutAtNames_front hw.1 hx hsign hno]
      refine ⟨rfl, ?_⟩
      rw [← List.singleton_append, ← List.append_assoc]
      exact Text.trim_append_of_forall htail.leading (w ++ [x])

end

end IntentGrammar.Template
