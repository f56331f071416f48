import IntentGrammar.Template.Glyph
import IntentGrammar.Template.Fault

/-!
# Brackets

Templates use three pairs of brackets.  `Opening.step` follows the open brackets through a text,
one glyph at a time, and faults at the first closing bracket that does not fit.  `block` reads on
from an opening bracket to the one that closes it.

`append_of_block` accounts for every glyph of a block, and `closer_of_block` says what closes it.
-/

namespace IntentGrammar.Template

/-- The pairs of brackets. -/
inductive Bracket where
  | round
  | square
  | curly
deriving DecidableEq, Repr

namespace Bracket

def opener : Bracket → Char
  | .round => '('
  | .square => '['
  | .curly => '\x7b'

def closer : Bracket → Char
  | .round => ')'
  | .square => ']'
  | .curly => '\x7d'

/-- The pair that a character opens. -/
def ofOpener? (c : Char) : Option Bracket :=
  if c = '(' then some .round
  else if c = '[' then some .square
  else if c = '\x7b' then some .curly
  else none

/-- The pair that a character closes. -/
def ofCloser? (c : Char) : Option Bracket :=
  if c = ')' then some .round
  else if c = ']' then some .square
  else if c = '\x7d' then some .curly
  else none

theorem ofOpener?_eq_some {c : Char} {b : Bracket} : ofOpener? c = some b ↔ c = b.opener := by
  cases b <;> grind [ofOpener?, opener]

theorem ofCloser?_eq_some {c : Char} {b : Bracket} : ofCloser? c = some b ↔ c = b.closer := by
  cases b <;> grind [ofCloser?, closer]

/-- No character opens one pair and closes another. -/
theorem ofOpener?_closer (b : Bracket) : ofOpener? b.closer = none := by
  cases b <;> rfl

end Bracket

/-- A bracket that has been opened, and where. -/
structure Opening where
  bracket : Bracket
  pos : Nat
deriving DecidableEq, Repr

/-- The brackets that are open after one more glyph; the innermost comes first. -/
def Opening.step (opened : List Opening) (g : Glyph) : Except Fault (List Opening) :=
  match Bracket.ofOpener? g.char, Bracket.ofCloser? g.char, opened with
  | some b, _, _ => .ok (⟨b, g.pos⟩ :: opened)
  | none, none, _ => .ok opened
  | none, some _, [] => .error ⟨g.pos, .unmatched g.char⟩
  | none, some b, o :: outer =>
    if b = o.bracket then .ok outer else .error ⟨g.pos, .crossed g.char o.bracket.opener⟩

namespace Opening

variable {g : Glyph} {b : Bracket} (opened : List Opening)

theorem step_opener (hopener : Bracket.ofOpener? g.char = some b) :
    step opened g = .ok (⟨b, g.pos⟩ :: opened) := by
  simp only [step, hopener]

theorem step_plain (hopener : Bracket.ofOpener? g.char = none)
    (hcloser : Bracket.ofCloser? g.char = none) : step opened g = .ok opened := by
  simp only [step, hopener, hcloser]

theorem step_unmatched (hopener : Bracket.ofOpener? g.char = none)
    (hcloser : Bracket.ofCloser? g.char = some b) :
    step [] g = .error ⟨g.pos, .unmatched g.char⟩ := by
  simp only [step, hopener, hcloser]

theorem step_closer (hopener : Bracket.ofOpener? g.char = none)
    (hcloser : Bracket.ofCloser? g.char = some b) (o : Opening) (outer : List Opening) :
    step (o :: outer) g =
      if b = o.bracket then .ok outer else .error ⟨g.pos, .crossed g.char o.bracket.opener⟩ := by
  simp only [step, hopener, hcloser]

/-- What a step can do: push an opening bracket, pass over a glyph, or pop what the glyph closes. -/
theorem step_eq_ok {opened' : List Opening} (h : step opened g = .ok opened') :
    (∃ b, g.char = b.opener ∧ opened' = ⟨b, g.pos⟩ :: opened) ∨ opened' = opened ∨
      ∃ o, opened = o :: opened' ∧ g.char = o.bracket.closer := by
  cases hopener : Bracket.ofOpener? g.char with
  | some b =>
    rw [step_opener opened hopener] at h
    exact .inl ⟨b, Bracket.ofOpener?_eq_some.1 hopener, (Except.ok.inj h).symm⟩
  | none =>
    cases hcloser : Bracket.ofCloser? g.char with
    | none =>
      rw [step_plain opened hopener hcloser] at h
      exact .inr (.inl (Except.ok.inj h).symm)
    | some b =>
      cases opened with
      | nil => cases (step_unmatched hopener hcloser).symm.trans h
      | cons o outer =>
        rw [step_closer hopener hcloser] at h
        split at h
        · next hb =>
          cases h
          exact .inr (.inr ⟨o, rfl, hb ▸ Bracket.ofCloser?_eq_some.1 hcloser⟩)
        · cases h

/-- A step fails at a closing bracket only. -/
theorem step_eq_error {f : Fault} (h : step opened g = .error f) :
    (∃ b : Bracket, g.char = b.closer) ∧ f.position = g.pos ∧ f.kind = .unbalanced := by
  cases hopener : Bracket.ofOpener? g.char with
  | some b => cases (step_opener opened hopener).symm.trans h
  | none =>
    cases hcloser : Bracket.ofCloser? g.char with
    | none => cases (step_plain opened hopener hcloser).symm.trans h
    | some b =>
      refine ⟨⟨b, Bracket.ofCloser?_eq_some.1 hcloser⟩, ?_⟩
      cases opened with
      | nil =>
        cases (step_unmatched hopener hcloser).symm.trans h
        exact ⟨rfl, rfl⟩
      | cons o outer =>
        rw [step_closer hopener hcloser] at h
        split at h
        · cases h
        · cases h
          exact ⟨rfl, rfl⟩

end Opening

/-- A bracketed stretch of a template, behind its opening bracket. -/
structure Block where
  inside : List Glyph
  closer : Glyph
  rest : List Glyph

/-- Read up to the bracket that closes the outermost of the open ones. -/
def block (o : Opening) (outer : List Opening) : List Glyph → Except Fault Block
  | [] => .error ⟨o.pos, .unclosed o.bracket.closer⟩
  | g :: gs =>
    match Opening.step (o :: outer) g with
    | .error f => .error f
    | .ok [] => .ok ⟨[], g, gs⟩
    | .ok (o' :: outer') =>
      match block o' outer' gs with
      | .error f => .error f
      | .ok b => .ok { b with inside := g :: b.inside }

theorem block_close {o : Opening} {outer : List Opening} {g : Glyph}
    (hstep : Opening.step (o :: outer) g = .ok []) (gs : List Glyph) :
    block o outer (g :: gs) = .ok ⟨[], g, gs⟩ := by
  simp only [block, hstep]

theorem block_step {o o' : Opening} {outer outer' : List Opening} {g : Glyph}
    (hstep : Opening.step (o :: outer) g = .ok (o' :: outer')) (gs : List Glyph) :
    block o outer (g :: gs) =
      (block o' outer' gs).map fun b => { b with inside := g :: b.inside } := by
  simp only [block, hstep]
  cases block o' outer' gs <;> rfl

theorem append_of_block {o : Opening} {outer : List Opening} {gs : List Glyph} {b : Block}
    (h : block o outer gs = .ok b) : gs = b.inside ++ b.closer :: b.rest := by
  fun_induction block o outer gs generalizing b with
  | case1 => simp at h
  | case2 => simp at h
  | case3 => cases h; rfl
  | case4 => simp at h
  | case5 o outer g gs o' outer' hs b' hb ih => cases h; simpa using ih hb

/-- What closes a block closes the outermost of the brackets that are open in front of it. -/
theorem closer_of_block {o base : Opening} {outer : List Opening} {gs : List Glyph} {b : Block}
    (hbase : (o :: outer).getLast? = some base) (h : block o outer gs = .ok b) :
    b.closer.char = base.bracket.closer := by
  fun_induction block o outer gs generalizing b with
  | case1 => cases h
  | case2 => cases h
  | case3 o outer g gs hstep =>
    cases h
    obtain ⟨b, -, hb⟩ | hb | ⟨o', ho', hclose⟩ := Opening.step_eq_ok _ hstep
    · cases hb
    · cases hb
    · cases ho'
      cases hbase
      exact hclose
  | case4 => cases h
  | case5 o outer g gs o' outer' hstep b' hblock ih =>
    cases h
    show b'.closer.char = _
    refine ih ?_ hblock
    obtain ⟨b, -, hb⟩ | hb | ⟨o₁, ho₁, -⟩ := Opening.step_eq_ok _ hstep
    · rw [hb, List.getLast?_cons_cons]
      exact hbase
    · rw [hb]
      exact hbase
    · cases ho₁
      rwa [List.getLast?_cons_cons] at hbase

end IntentGrammar.Template
