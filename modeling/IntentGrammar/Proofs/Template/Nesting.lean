import IntentGrammar.Proofs.Template.Surface

/-!
# Properly nested texts

A grammar of bracketed texts that no scan appears in.  A `Nested` text closes every bracket that
it opens and no other, an `Unbroken` text is nested and has line breaks inside brackets only, and a
text that `LeavesOpen` some brackets is unbroken up to the first of them and nested between any
two.

* `exists_stretch` : every text is unbroken up to a line break, or leaves brackets open up to a
  closing bracket that does not fit, or leaves brackets open up to its end.
-/

namespace IntentGrammar.Template

/-- Every bracket that is opened is closed, in the right order, and nothing else is closed. -/
inductive Nested : List Char → Prop
  | nil : Nested []
  | char {c : Char} {cs : List Char} (hc : isBracket c = false) (h : Nested cs) : Nested (c :: cs)
  | pair {inside cs : List Char} (b : Bracket) (hinside : Nested inside) (h : Nested cs) :
      Nested (b.opener :: (inside ++ b.closer :: cs))

/-- A nested text with line breaks inside brackets only. -/
inductive Unbroken : List Char → Prop
  | nil : Unbroken []
  | char {c : Char} {cs : List Char} (hc : isBracket c = false) (hbreak : c ≠ '\n')
      (h : Unbroken cs) : Unbroken (c :: cs)
  | pair {inside cs : List Char} (b : Bracket) (hinside : Nested inside) (h : Unbroken cs) :
      Unbroken (b.opener :: (inside ++ b.closer :: cs))

/-- A text, counted from `start` on, that leaves the brackets `opened` open; the innermost comes
first. -/
inductive LeavesOpen (start : Nat) : List Opening → List Char → Prop
  | unbroken {cs : List Char} (h : Unbroken cs) : LeavesOpen start [] cs
  | opener {opened : List Opening} {cs inside : List Char} (b : Bracket)
      (h : LeavesOpen start opened cs) (hinside : Nested inside) :
      LeavesOpen start (⟨b, start + cs.length⟩ :: opened) (cs ++ b.opener :: inside)

theorem bracketed_append (b : Bracket) (inside cs : List Char) :
    b.opener :: (inside ++ b.closer :: cs) = b.opener :: (inside ++ [b.closer]) ++ cs := by
  simp

namespace Nested

variable {cs ds : List Char}

theorem append (h : Nested cs) (h' : Nested ds) : Nested (cs ++ ds) := by
  induction h with
  | nil => exact h'
  | char hc h ih => exact .char hc ih
  | pair b hinside h ihinside ih =>
    rw [List.cons_append, List.append_assoc]
    exact .pair b hinside ih

end Nested

namespace Unbroken

variable {cs ds : List Char}

theorem nested (h : Unbroken cs) : Nested cs := by
  induction h with
  | nil => exact .nil
  | char hc hbreak h ih => exact .char hc ih
  | pair b hinside h ih => exact .pair b hinside ih

theorem append (h : Unbroken cs) (h' : Unbroken ds) : Unbroken (cs ++ ds) := by
  induction h with
  | nil => exact h'
  | char hc hbreak h ih => exact .char hc hbreak ih
  | pair b hinside h ih =>
    rw [List.cons_append, List.append_assoc]
    exact .pair b hinside ih

end Unbroken

namespace LeavesOpen

variable {start : Nat} {o : Opening} {opened outer : List Opening} {cs ds : List Char}

theorem append (h : LeavesOpen start opened cs) (h' : Unbroken ds) :
    LeavesOpen start opened (cs ++ ds) := by
  cases h with
  | unbroken h => exact .unbroken (h.append h')
  | opener b h hinside =>
    rw [List.append_assoc, List.cons_append]
    exact .opener b h (hinside.append h'.nested)

/-- Inside a bracket a line break is a character like any other. -/
theorem append_nested (h : LeavesOpen start (o :: outer) cs) (h' : Nested ds) :
    LeavesOpen start (o :: outer) (cs ++ ds) := by
  cases h with
  | opener b h hinside =>
    rw [List.append_assoc, List.cons_append]
    exact .opener b h (hinside.append h')

theorem close (h : LeavesOpen start (o :: outer) cs) :
    LeavesOpen start outer (cs ++ [o.bracket.closer]) := by
  cases h with
  | opener b h hinside =>
    rw [List.append_assoc, List.cons_append]
    exact h.append (.pair b hinside .nil)

/-- One more character: a line break outside brackets, a closing bracket that does not fit, or a
character that some brackets are open behind. -/
theorem step (h : LeavesOpen start opened cs) (c : Char) :
    (c = '\n' ∧ opened = []) ∨
      (∃ b : Bracket, c = b.closer ∧ opened.head?.map Opening.bracket ≠ some b) ∨
      ∃ opened', LeavesOpen start opened' (cs ++ [c]) := by
  cases hopener : Bracket.ofOpener? c with
  | some b =>
    obtain rfl := Bracket.ofOpener?_eq_some.1 hopener
    exact .inr (.inr ⟨_, h.opener b .nil⟩)
  | none =>
    cases hcloser : Bracket.ofCloser? c with
    | some b =>
      obtain rfl := Bracket.ofCloser?_eq_some.1 hcloser
      by_cases hfits : opened.head?.map Opening.bracket = some b
      · obtain ⟨o, ho, rfl⟩ := Option.map_eq_some_iff.1 hfits
        obtain ⟨outer, rfl⟩ := List.head?_eq_some_iff.1 ho
        exact .inr (.inr ⟨outer, h.close⟩)
      · exact .inr (.inl ⟨b, rfl, hfits⟩)
    | none =>
      have hc : isBracket c = false := by simp [isBracket, hopener, hcloser]
      by_cases hbreak : c = '\n'
      · cases opened with
        | nil => exact .inl ⟨hbreak, rfl⟩
        | cons o outer => exact .inr (.inr ⟨_, h.append_nested (.char hc .nil)⟩)
      · exact .inr (.inr ⟨_, h.append (.char hc hbreak .nil)⟩)

end LeavesOpen

/-- What a text looks like up to the first place where a line ends or a bracket does not fit. -/
theorem exists_stretch (start : Nat) (cs : List Char) :
    (∃ line rest, cs = line ++ '\n' :: rest ∧ Unbroken line) ∨
      (∃ front opened back, ∃ b : Bracket, cs = front ++ b.closer :: back ∧
        LeavesOpen start opened front ∧ opened.head?.map Opening.bracket ≠ some b) ∨
      ∃ opened, LeavesOpen start opened cs := by
  induction cs using List.reverseRecOn with
  | nil => exact .inr (.inr ⟨[], .unbroken .nil⟩)
  | append_singleton cs c ih =>
    obtain ⟨line, rest, rfl, hline⟩ | ⟨front, opened, back, b, rfl, hfront, hb⟩ | ⟨opened, h⟩ := ih
    · exact .inl ⟨line, rest ++ [c], by simp, hline⟩
    · exact .inr (.inl ⟨front, opened, back ++ [c], b, by simp, hfront, hb⟩)
    · obtain ⟨rfl, rfl⟩ | ⟨b, rfl, hb⟩ | hmore := h.step c
      · cases h with
        | unbroken h => exact .inl ⟨cs, [], rfl, h⟩
      · exact .inr (.inl ⟨cs, opened, [], b, rfl, h, hb⟩)
      · exact .inr (.inr hmore)

end IntentGrammar.Template
